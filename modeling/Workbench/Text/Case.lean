import Workbench.Text.Range

/-!
# Lower case

The full lower-case form of a text. One character may become two (`İ`), and a capital sigma
becomes the final form where it ends a word: after a cased letter and not before one, where
case-ignorable characters do not count.
-/

namespace Workbench.Text

/-- Capitals outside ASCII with a lower-case form of one character: how far it is from them, and their ranges.
Where it is the next character, every second one of a range is a capital. -/
def capitalRanges : List (Int × List Nat) :=
  [(32,[192,22,2,6,691,16,2,8,101,31,64242,25,6502,31,21889,31]),(1,[256,46,4,4,3,14,3,44,3,4,5,2,3,0,4,0,6,0,7,0,8,4,3,
   0,5,0,3,0,4,2,3,0,4,0,9,0,3,0,3,16,3,16,4,2,4,38,4,16,9,0,6,0,5,8,290,2,4,0,98,22,9,0,3,0,102,32,10,52,3,12,3,94,
   6354,148,12,94,645,0,2781,0,7,4,7,0,3,0,11,98,9,2,5,0,31054,44,20,26,136,12,4,60,11,2,3,8,5,0,5,2,4,18,12,14,5,2,7,0,
   6,2,29,0]),(-121,[376,0]),(210,[385,0]),(206,[390,0]),(205,[393,1,9,0]),(79,[398,0]),(202,[399,0]),(203,[400,0]),
   (207,[404,0]),(211,[406,0,6,0]),(209,[407,0]),(213,[413,0]),(214,[415,0]),(218,[422,0,3,0,5,0]),(217,[433,1]),(219,
   [439,0]),(2,[452,0,3,0,3,0,39,0]),(-97,[502,0]),(-56,[503,0]),(-130,[544,0,477,2]),(10795,[570,0]),(-163,[573,0]),
   (10792,[574,0]),(-195,[579,0]),(69,[580,0]),(71,[581,0]),(116,[895,0]),(38,[902,0]),(37,[904,2]),(64,[908,0,67828,
   50]),(63,[910,1]),(8,[975,0,4129,5]),(-60,[1012,0]),(-7,[1017,0,7155,0]),(80,[1024,15]),(15,[1216,0]),(48,[1329,37,
   9898,47]),(7264,[4256,37,2,0,6,0]),(38864,[5024,79]),(-3008,[7312,42,3,2]),(-7615,[7838,0]),(-8,[7944,7,9,5,11,7,9,7,
   9,5,12,0,2,0,2,0,2,0,9,7,25,7,9,7,9,7,9,1,31,1,15,1]),(-74,[8122,1]),(-9,[8124,0,16,0,48,0]),(-86,[8136,3]),(-100,
   [8154,1]),(-112,[8170,1]),(-128,[8184,1]),(-126,[8186,1]),(-7517,[8486,0]),(-8383,[8490,0]),(-8262,[8491,0]),(28,
   [8498,0]),(16,[8544,15]),(26,[9398,25]),(-10743,[11362,0]),(-3814,[11363,0]),(-10727,[11364,0]),(-10780,[11373,0]),
   (-10749,[11374,0]),(-10783,[11375,0]),(-10782,[11376,0]),(-10815,[11390,1]),(-35332,[42877,0]),(-42280,[42893,0]),
   (-42308,[42922,0,4,0]),(-42319,[42923,0]),(-42315,[42924,0]),(-42305,[42925,0]),(-42258,[42928,0]),(-42282,[42929,
   0]),(-42261,[42930,0]),(928,[42931,0]),(-48,[42948,0]),(-42307,[42949,0]),(-35384,[42950,0]),(40,[66560,39,137,35]),
   (39,[66928,10,2,14,2,6,2,1]),(34,[125184,33])]

/-- Characters that do not count when a word boundary is looked for. -/
def caseIgnorableRanges : List (Nat × Nat) := rangesFrom 0
  [39,0,7,0,12,0,36,0,2,0,72,0,5,0,2,0,5,0,3,1,504,191,5,1,5,0,10,1,2,0,252,6,208,0,6,0,50,44,2,0,2,1,2,1,2,0,45,0,12,5,
   11,10,2,0,36,0,11,20,17,0,102,7,2,9,2,3,34,0,2,0,31,26,92,10,59,10,5,0,3,0,25,23,44,2,45,0,8,1,7,7,42,57,56,0,2,0,5,
   7,5,0,4,6,11,1,14,0,16,0,59,0,5,3,9,0,21,1,27,0,3,1,58,0,5,1,5,1,3,2,4,0,31,1,4,0,12,1,58,0,5,4,2,1,5,0,21,1,23,5,2,
   0,59,0,3,0,2,3,9,0,8,1,12,1,31,0,62,0,13,0,51,0,4,0,56,0,2,2,6,2,2,3,8,1,12,1,30,0,59,0,3,0,7,0,6,1,21,1,29,1,58,1,5,
   3,9,0,21,1,30,0,73,0,8,2,2,0,91,0,3,6,12,8,99,0,3,8,10,0,2,5,75,1,28,0,2,0,2,0,56,13,2,4,2,1,6,10,2,35,10,0,103,3,2,
   5,2,1,3,1,26,1,5,2,17,3,14,0,3,1,7,0,16,0,95,0,609,2,947,2,30,1,31,1,31,1,65,1,2,6,9,0,3,10,4,0,6,0,46,4,52,0,66,1,
   35,0,119,2,5,1,10,0,7,2,220,1,3,0,59,0,2,6,2,0,2,0,3,7,7,9,3,0,40,0,9,30,50,3,49,0,2,4,2,0,6,0,41,8,13,1,33,3,3,1,2,
   2,57,0,2,1,4,0,2,2,59,7,3,1,65,5,83,2,2,12,2,6,5,0,7,0,4,1,51,62,14,0,35,100,446,0,2,2,12,2,14,2,14,2,14,1,13,4,9,1,
   11,0,3,0,3,4,50,4,2,9,2,0,14,0,17,12,52,32,2956,1,114,2,126,0,16,0,97,31,48,0,470,0,37,3,4,4,6,0,94,5,94,2,28439,0,
   1251,5,271,0,99,3,2,9,2,0,29,3,81,1,15,33,79,0,24,2,104,2,4,1,9,0,4,0,5,0,26,1,6,0,152,1,27,17,14,0,39,7,26,10,47,2,
   49,0,3,3,3,1,18,0,22,1,67,5,3,1,3,1,13,0,9,0,36,0,12,0,52,0,2,2,3,1,6,1,2,0,28,0,15,1,6,1,2,0,101,4,10,2,122,0,3,0,5,
   0,20273,0,148,16,574,15,4,0,13,15,35,0,3,0,170,0,8,0,7,0,12,0,36,0,2,0,48,0,46,1,68,0,22,2,514,0,227,0,150,4,1030,5,
   2,41,2,8,583,2,2,1,6,3,41,2,5,0,166,1,574,3,388,1,154,10,50,3,124,0,55,14,42,0,3,1,11,2,50,3,3,1,3,0,5,0,11,0,51,2,
   37,4,2,7,63,0,13,1,53,8,11,3,3,0,96,2,3,0,2,1,7,0,161,0,4,7,22,1,58,1,4,0,38,6,4,4,196,7,3,2,2,0,24,0,85,5,2,0,5,1,2,
   1,239,3,7,1,2,1,28,1,86,7,3,0,2,1,107,0,2,0,3,5,2,0,102,2,3,3,2,4,260,8,2,1,257,1,2,0,5,0,145,3,3,1,5,0,33,9,41,5,3,
   3,9,0,10,5,3,2,47,12,2,1,407,6,2,5,2,0,83,21,3,6,2,1,2,1,123,5,4,0,2,1,2,6,2,0,73,1,4,0,2,0,348,1,5436,8,14008,4,60,
   6,10,3,1036,0,64,16,65,1,2,1,16396,3,2,6,2,1,3231,1,2,3,4701,45,3,22,545,2,10,15,3,6,31,3,149,2,1980,54,5,49,9,0,15,
   0,23,4,2,14,1361,6,2,16,3,6,2,1,2,4,262,13,369,0,62,3,1505,6,110,7,2736,4,789506,0,31,95,129,239]

def casedRanges : List (Nat × Nat) := rangesFrom 0
  [65,25,7,25,48,0,11,0,5,0,6,22,2,30,2,194,2,3,5,207,2,26,193,3,3,1,4,2,2,0,7,0,2,2,2,0,2,19,2,82,2,138,9,165,2,37,10,
   40,2840,37,2,0,6,0,3,42,3,2,673,85,3,5,2179,8,8,42,3,2,65,43,64,12,2,33,102,277,3,5,3,37,3,5,3,7,2,0,2,0,2,0,2,30,3,
   52,2,6,2,0,4,2,2,6,4,3,3,5,5,12,6,2,2,6,262,0,5,0,3,9,2,0,4,4,7,0,2,0,2,0,2,3,2,5,5,0,3,3,6,4,5,0,18,31,4,1,818,51,
   1815,123,3,102,7,3,4,1,13,37,2,0,6,0,30995,45,19,27,135,77,2,22,4,3,2,58,6,1,2,0,2,4,28,1,4,0,822,42,6,8,8,79,20289,
   6,13,4,1034,25,7,25,1190,79,97,35,5,35,117,10,2,14,2,6,2,1,2,10,2,14,2,6,2,1,1732,50,14,50,2990,63,21857,63,25985,84,
   2,70,2,1,3,0,3,1,3,3,2,11,2,0,2,6,2,64,2,3,3,7,2,6,2,27,2,3,2,4,2,0,4,6,2,339,3,24,2,24,2,30,2,24,2,30,2,24,2,30,2,
   24,2,30,2,24,2,7,1845,9,2,19,2530,67,2029,25,7,25,7,25]

/-- The lower-case form of a code point; itself if it has none. -/
def lowerCodePoint (n : Nat) : Nat :=
  if n < 128 then
    if 65 ≤ n && n ≤ 90 then n + 32 else n
  else
    match capitalRanges.find? fun (shift, gaps) => (rangesFrom 0 gaps).any fun r =>
        r.1 ≤ n && n ≤ r.2 && (n - r.1) % (if shift = 1 then 2 else 1) == 0 with
    | some (shift, _) => (n + shift : Int).toNat
    | none => n

/-- The nearest character that counts in `cs` has case. -/
def meetsCased (cs : List Char) : Bool :=
  match cs.find? fun c => !inRanges caseIgnorableRanges c.toNat with
  | some c => inRanges casedRanges c.toNat
  | none => false

/-- The lower-case form of the character `c` between `before` (nearest first) and `after`. -/
def lowerChar (before : List Char) (c : Char) (after : List Char) : List Char :=
  if c == 'İ' then ['i', '\u0307']
  else if c == 'Σ' then
    if meetsCased before && !meetsCased after then ['ς'] else ['σ']
  else [Char.ofNat (lowerCodePoint c.toNat)]

/-- Lower-casing of `cs` after the characters `before` (nearest first). -/
def lowerAfter (before : List Char) : List Char → List Char
  | [] => []
  | c :: cs => lowerChar before c cs ++ lowerAfter (c :: before) cs

def lowerChars (cs : List Char) : List Char := lowerAfter [] cs

def lower (s : String) : String := String.ofList (lowerChars s.toList)

end Workbench.Text
