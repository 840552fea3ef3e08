/-!
# Decimal numbers

Numbers with finitely many digits after the point, exactly as they are written. Reports print them with
a fixed number of places; a number that lies halfway between two such ones goes to the even one.
-/

namespace Workbench

/-- The number `digits / 10 ^ places`. -/
structure Decimal where
  digits : Int
  places : Nat
  deriving DecidableEq, Repr

namespace Decimal

def ofInt (n : Int) : Decimal := ⟨n, 0⟩

def scaled (n e : Int) : Decimal :=
  if 0 ≤ e then ⟨n * Int.pow 10 e.toNat, 0⟩ else ⟨n, (-e).toNat⟩

/-- The digits of a number with `k` more places than it has. -/
def widened (d : Decimal) (k : Nat) : Int := d.digits * Int.pow 10 k

def add (a b : Decimal) : Decimal :=
  ⟨a.widened b.places + b.widened a.places, a.places + b.places⟩

def sub (a b : Decimal) : Decimal :=
  ⟨a.widened b.places - b.widened a.places, a.places + b.places⟩

def times (a : Decimal) (n : Int) : Decimal := ⟨a.digits * n, a.places⟩

def lt (a b : Decimal) : Bool := a.widened b.places < b.widened a.places

def le (a b : Decimal) : Bool := !b.lt a

def same (a b : Decimal) : Bool := a.widened b.places == b.widened a.places

def isZero (d : Decimal) : Bool := d.digits == 0

/-- The whole number nearest to `n / m`; the even one of two. -/
def roundQuotient (n : Int) (m : Nat) : Int :=
  let q := n.fdiv m
  let twice := 2 * (n - q * m)
  if twice < m then q
  else if twice > m then q + 1
  else if q % 2 = 0 then q else q + 1

/-- The number with `k` places that is nearest. -/
def roundTo (d : Decimal) (k : Nat) : Decimal :=
  if d.places ≤ k then ⟨d.widened (k - d.places), k⟩
  else ⟨roundQuotient d.digits (Nat.pow 10 (d.places - k)), k⟩

/-- The whole part, toward zero. -/
def truncate (d : Decimal) : Int := d.digits.tdiv (Int.pow 10 d.places)

/-- The digits of `n` with at least `k + 1` of them, and a point before the last `k`. -/
def pointed (n k : Nat) : String :=
  let ds := (toString n).toList
  let ds := List.replicate (k + 1 - ds.length) '0' ++ ds
  String.ofList (ds.take (ds.length - k)) ++ "." ++ String.ofList (ds.drop (ds.length - k))

/-- How a number is written with `k` places. A number below zero keeps its sign when it rounds to zero. -/
def fixed (d : Decimal) (k : Nat) : String :=
  let n := (d.roundTo k).digits.natAbs
  let sign := if d.digits < 0 then "-" else ""
  sign ++ if k = 0 then toString n else pointed n k

/-- Takes zeros at the end away, as long as more than one place is left. -/
def trimZeros (n : Int) : Nat → Decimal
  | 0 => ⟨n * 10, 1⟩
  | 1 => ⟨n, 1⟩
  | k + 2 => if n % 10 = 0 then trimZeros (n / 10) (k + 1) else ⟨n, k + 2⟩

/-- How a number is written with as many places as it needs, and at least one. -/
def text (d : Decimal) : String :=
  let t := trimZeros d.digits d.places
  (if t.digits < 0 then "-" else "") ++ pointed t.digits.natAbs t.places

end Decimal

end Workbench
