import Workbench.Text.Letter

/-!
# Digits and numbers

Three nested classes. A *decimal* digit has a place value and may stand in an integer literal; a
*digit* is a decimal digit or a digit in a special form such as a superscript; a *numeric*
character stands for any number, fractions and Roman numerals included. A name may go on with
letters and numeric characters.
-/

namespace Workbench.Text

/-- The zeros outside ASCII: each starts ten consecutive decimal digits. -/
def decimalZeros : List Nat :=
  [0x660,0x6f0,0x7c0,0x966,0x9e6,0xa66,0xae6,0xb66,0xbe6,0xc66,0xce6,0xd66,0xde6,0xe50,0xed0,0xf20,0x1040,0x1090,0x17e0,
   0x1810,0x1946,0x19d0,0x1a80,0x1a90,0x1b50,0x1bb0,0x1c40,0x1c50,0xa620,0xa8d0,0xa900,0xa9d0,0xa9f0,0xaa50,0xabf0,
   0xff10,0x104a0,0x10d30,0x11066,0x110f0,0x11136,0x111d0,0x112f0,0x11450,0x114d0,0x11650,0x116c0,0x11730,0x118e0,
   0x11950,0x11c50,0x11d50,0x11da0,0x16a60,0x16ac0,0x16b50,0x1d7ce,0x1d7d8,0x1d7e2,0x1d7ec,0x1d7f6,0x1e140,0x1e2f0,
   0x1e950,0x1fbf0]

/-- The place value of a decimal digit of any script. -/
def decimalValue? (c : Char) : Option Nat :=
  if c.toNat < 128 then
    if c.isDigit then some (c.toNat - 48) else none
  else
    (decimalZeros.find? fun z => z ≤ c.toNat && c.toNat < z + 10).map fun z => c.toNat - z

def isDecimal (c : Char) : Bool := (decimalValue? c).isSome

/-- Digits in a special form (superscript, circled, ...), which have no place value. -/
def specialDigitRanges : List (Nat × Nat) := rangesFrom 0
  [178,1,6,0,4784,8,1641,0,1686,0,4,5,7,9,983,8,12,8,12,8,90,0,11,8,2,0,631,8,2,8,2,8,58030,3,1053,8,490,8,57510,10]

/-- A digit: decimal, or in a special form. -/
def isDigit (c : Char) : Bool :=
  isDecimal c || inRanges specialDigitRanges c.toNat

/-- Numeric characters that are not digits: fractions, Roman numerals, numeric ideographs, ... -/
def numberRanges : List (Nat × Nat) := rangesFrom 0
  [188,2,2358,5,377,5,121,2,134,6,218,6,18,8,434,9,1087,10,882,2,256,9,2391,50,3,4,736,10,10,10,10,10,80,9,10,0,641,0,
   10,0,10,0,1386,0,778,0,26,8,15,2,344,3,139,9,31,7,2,14,33,9,40,14,326,0,126,0,935,0,803,0,4787,0,3,0,4,0,2,0,84,0,47,
   0,8,0,2,0,41,1,31,0,9,0,37,0,99,0,404,0,66,0,35,0,2,0,2,0,468,0,2,2,7,0,117,3,791,0,534,0,8,0,1409,0,132,1,13,2,2,0,
   1006,0,78,0,1158,0,1844,0,1168,0,744,0,2568,0,934,0,2178,0,5,0,125,0,2289,0,37,0,6,0,44,0,126,0,4080,9,321,5,20790,0,
   8,0,5,0,58,0,31,0,2,0,42,0,1802,44,13,56,18,1,342,26,37,3,30,0,9,0,135,4,1155,7,26,6,40,8,76,4,23,5,161,1,3,15,3,45,
   69,4,53,1,31,2,76,4,105,7,25,7,42,6,331,5,362,21,159,9,43,3,113,6,144,10,380,19,1350,1,431,8,872,18,852,20,1068,110,
   18157,6,799,22,25674,19,109,24,5455,8,930,58,2,2,2,3,77,44,2,14,974,1,3829,0,99,0,126,0,63,0,2057,0,89,0,9,0,16,0,
   334,0,19,0,28,0,6263,0,1544,0,4483,0,10066,0,38435,0]

def isNumeric (c : Char) : Bool :=
  isDigit c || inRanges numberRanges c.toNat

def isAlphanumeric (c : Char) : Bool :=
  isLetter c || isNumeric c

/-- A character of a word: what may stand in a name after its first character. -/
def isWordChar (c : Char) : Bool :=
  isAlphanumeric c || c == '_'

end Workbench.Text
