import Workbench.Proofs.BackEnds

/-!
# Negative numbers

A negative number is stored as its residue modulo `2 ^ 16`. Sums, differences, products and tests for equality do not
tell the two apart, but quotients and orderings are taken of the residues as they stand. `Expr.signed` is the value of
an expression over the integers, and `Expr.Agrees` says of which expressions the machine computes it: no quotient and
no ordering inside has operands whose signs make a difference. The main statement is `signed_compiled`: the machine is
right about these, and wrong about an operation that disagrees on operands that are right.
-/

open Option

namespace Workbench

open Machine (wrap ofBool)
open Typing (Note Signatures Scope HasType)

/-! ### Values over the integers -/

/-- A number that 16 bits can hold with a sign. -/
def IsSigned (n : Int) : Prop := -32768 ≤ n ∧ n ≤ 32767

instance : DecidablePred IsSigned := fun n => inferInstanceAs (Decidable (-32768 ≤ n ∧ n ≤ 32767))

def signedOnly (n : Int) : Option Int := if IsSigned n then some n else none

/-- How a quotient that is not whole is rounded. -/
inductive Rounding where
  | towardZero
  | down
  deriving DecidableEq

def Rounding.quotient : Rounding → Int → Int → Int
  | .towardZero, a, b => a.tdiv b
  | .down, a, b => a.fdiv b

/-- Applies an operator with one operand to an integer. -/
def signedUnary (a : Int) : UnaryOp → Option Int
  | .neg => some (-a)
  | .not => some (ofBool (a = 0))
  | .other _ => none

/-- Applies an operator to integers. -/
def signedBinary (r : Rounding) (a b : Int) : BinaryOp → Option Int
  | .div => if b = 0 then none else some (r.quotient a b)
  | op => exactOp a b op

/-- The operator gives for the residues of the numbers what it gives for the numbers. Which numbers have the same order
as their residues depends on their signs alone. -/
def BinaryOp.Agrees (r : Rounding) (a b : Int) : BinaryOp → Prop
  | .div => b = 1 ∨ a = b ∨ 0 ≤ a ∧ (0 < b ∨ r.quotient a b = 0)
  | .lt | .le | .gt | .ge => 0 ≤ a ↔ 0 ≤ b
  | _ => True

instance (r : Rounding) (a b : Int) : (op : BinaryOp) → Decidable (op.Agrees r a b)
  | .div => inferInstanceAs (Decidable (b = 1 ∨ a = b ∨ 0 ≤ a ∧ (0 < b ∨ r.quotient a b = 0)))
  | .lt | .le | .gt | .ge => inferInstanceAs (Decidable (0 ≤ a ↔ 0 ≤ b))
  | .add | .sub | .mul | .eq | .ne | .and | .or | .other _ => inferInstanceAs (Decidable True)

namespace Expr

/-- The value of an expression of numbers and variables of type `int`, if it and every value on the way to it are signed
numbers and no divisor is zero. Literals have no sign. -/
def signed (r : Rounding) (vars : String → Int) : Expr Note → Option Int
  | .lit _ (.int n) => small n
  | .var (some .int) x => signedOnly (vars x)
  | .unary _ op e => (e.signed r vars).bind fun a => (signedUnary a op).bind signedOnly
  | .binary _ op x y =>
    (x.signed r vars).bind fun a => (y.signed r vars).bind fun b => (signedBinary r a b op).bind signedOnly
  | _ => none

/-- Every operator in the expression agrees on its operands. -/
def Agrees (r : Rounding) (vars : String → Int) : Expr Note → Prop
  | .unary _ _ e => e.Agrees r vars
  | .binary _ op x y => x.Agrees r vars ∧ y.Agrees r vars ∧
    ∀ a b, x.signed r vars = some a → y.signed r vars = some b → op.Agrees r a b
  | _ => True

/-- The last operator does not agree on its operands, and every other one does. -/
def Disagrees (r : Rounding) (vars : String → Int) : Expr Note → Prop
  | .binary _ op x y => x.Agrees r vars ∧ y.Agrees r vars ∧
    ∃ a b, x.signed r vars = some a ∧ y.signed r vars = some b ∧ ¬ op.Agrees r a b
  | _ => False

end Expr

theorem signedOnly_eq_some {n m : Int} : signedOnly n = some m ↔ n = m ∧ IsSigned m := by
  rw [signedOnly, ite_none_right_eq_some, some.injEq]
  constructor
  · rintro ⟨h, rfl⟩
    exact ⟨rfl, h⟩
  · rintro ⟨rfl, h⟩
    exact ⟨h, rfl⟩

variable {op : BinaryOp} {e : Expr Note}

namespace Expr

variable {r : Rounding} {vars : String → Int} {note : Note} {v : Int}

theorem signed_unary {op : UnaryOp} : (Expr.unary note op e).signed r vars = some v ↔
    ∃ a, e.signed r vars = some a ∧ signedUnary a op = some v ∧ IsSigned v := by
  simp only [signed, bind_eq_some_iff, signedOnly_eq_some]
  constructor
  · rintro ⟨a, ha, _, hu, rfl, hv⟩
    exact ⟨a, ha, hu, hv⟩
  · rintro ⟨a, ha, hu, hv⟩
    exact ⟨a, ha, v, hu, rfl, hv⟩

theorem signed_binary {x y : Expr Note} : (Expr.binary note op x y).signed r vars = some v ↔
    ∃ a b, x.signed r vars = some a ∧ y.signed r vars = some b ∧ signedBinary r a b op = some v ∧ IsSigned v := by
  simp only [signed, bind_eq_some_iff, signedOnly_eq_some]
  constructor
  · rintro ⟨a, ha, b, hb, _, hu, rfl, hv⟩
    exact ⟨a, b, ha, hb, hu, hv⟩
  · rintro ⟨a, b, ha, hb, hu, hv⟩
    exact ⟨a, ha, b, hb, v, hu, rfl, hv⟩

theorem isSigned_of_signed (h : e.signed r vars = some v) : IsSigned v := by
  unfold signed at h
  split at h
  · obtain ⟨rfl, hlow, hhigh⟩ := small_eq_some.1 h
    exact ⟨by omega, hhigh⟩
  · exact (signedOnly_eq_some.1 h).2
  · obtain ⟨a, -, h⟩ := bind_eq_some_iff.1 h
    obtain ⟨u, -, h⟩ := bind_eq_some_iff.1 h
    exact (signedOnly_eq_some.1 h).2
  · obtain ⟨a, -, h⟩ := bind_eq_some_iff.1 h
    obtain ⟨b, -, h⟩ := bind_eq_some_iff.1 h
    obtain ⟨u, -, h⟩ := bind_eq_some_iff.1 h
    exact (signedOnly_eq_some.1 h).2
  · cases h

/-- An expression that has a value and does not agree contains one whose last operator is the first to disagree. -/
theorem exists_disagrees (e : Expr Note) : ∀ {v : Int}, e.signed r vars = some v → ¬ e.Agrees r vars →
    ∃ d : Expr Note, d.Within e ∧ d.Disagrees r vars := by
  induction e using Expr.induction with
  | unary note op e ih =>
    intro v hv hagrees
    obtain ⟨a, ha, -⟩ := signed_unary.1 hv
    obtain ⟨d, hwithin, hd⟩ := ih ha hagrees
    exact ⟨d, .unary hwithin, hd⟩
  | binary note op x y ihx ihy =>
    intro v hv hagrees
    obtain ⟨a, b, ha, hb, -⟩ := signed_binary.1 hv
    by_cases hx : x.Agrees r vars
    · by_cases hy : y.Agrees r vars
      · refine ⟨_, .self, hx, hy, a, b, ha, hb, fun hop => hagrees ⟨hx, hy, fun a' b' ha' hb' => ?_⟩⟩
        obtain rfl : a = a' := some.inj (ha.symm.trans ha')
        obtain rfl : b = b' := some.inj (hb.symm.trans hb')
        exact hop
      · obtain ⟨d, hwithin, hd⟩ := ihy hb hy
        exact ⟨d, .right hwithin, hd⟩
    · obtain ⟨d, hwithin, hd⟩ := ihx ha hx
      exact ⟨d, .left hwithin, hd⟩
  | lit | var | call | index | addrVar | addrIndex | addr | hole => exact fun _ => absurd trivial

theorem signed_truth {table : Signatures} {scope : Scope} (ht : HasType table scope e .bool)
    (hv : e.signed r vars = some v) : v = 0 ∨ v = 1 := by
  have hofBool b : ofBool b = 0 ∨ ofBool b = 1 := by cases b <;> simp [ofBool]
  generalize hu : Ty.bool = u at ht
  cases ht with
  | lit l => cases l with
    | bool => cases hv
    | int | str | none => cases hu
  | var hx =>
    subst hu
    cases hv
  | @unary op e t u he hop =>
    obtain ⟨a, -, hop', -⟩ := signed_unary.1 hv
    cases op with
    | not =>
      obtain rfl := some.inj hop'
      exact hofBool _
    | neg =>
      subst hu
      simp only [Typing.unaryType] at hop
      split at hop <;> cases hop
    | other text => cases hop'
  | @binary op x y t t' u hx hy hop =>
    obtain ⟨a, b, -, -, hop', -⟩ := signed_binary.1 hv
    subst hu
    cases op with
    | add | sub | mul | div =>
      simp only [Typing.binaryType] at hop
      split at hop <;> cases hop
    | and | or | other => cases hop'
    | _ =>
      obtain rfl := some.inj hop'
      exact hofBool _
  | index | addrVar | addrIndex | push | pop | call => cases hv

end Expr

/-! ### Residues -/

section Residues

variable {r : Rounding} {a b v : Int}

theorem wrap_of_nonneg (ha : IsSigned a) (h : 0 ≤ a) : wrap a = a :=
  Int.emod_eq_of_lt h (by have := ha.2; omega)

theorem wrap_of_neg (ha : IsSigned a) (h : a < 0) : wrap a = a + 65536 := by
  have hlow := ha.1
  rw [wrap, ← Int.add_emod_right]
  exact Int.emod_eq_of_lt (by omega) (by omega)

theorem wrap_inj (ha : IsSigned a) (hb : IsSigned b) : wrap a = wrap b ↔ a = b := by
  unfold IsSigned at ha hb
  unfold wrap
  omega

theorem wrap_eq_zero (ha : IsSigned a) : wrap a = 0 ↔ a = 0 := wrap_inj ha (by decide : IsSigned 0)

/-- Residues have the order of the numbers on one side of zero, and the opposite one across it. -/
theorem wrap_lt_wrap (ha : IsSigned a) (hb : IsSigned b) : wrap a < wrap b ↔ ((0 ≤ a ↔ 0 ≤ b) ↔ a < b) := by
  unfold IsSigned at ha hb
  unfold wrap
  omega

theorem wrap_le_wrap (ha : IsSigned a) (hb : IsSigned b) : wrap a ≤ wrap b ↔ ((0 ≤ a ↔ 0 ≤ b) ↔ a ≤ b) := by
  unfold IsSigned at ha hb
  unfold wrap
  omega

/-! A quotient of residues, by the signs of the numbers. -/

theorem quotient_of_nonneg (ha : 0 ≤ a) (hb : 0 < b) : r.quotient a b = a / b := by
  cases r with
  | towardZero => exact Int.tdiv_eq_ediv_of_nonneg ha
  | down => exact Int.fdiv_eq_ediv_of_nonneg a (Int.le_of_lt hb)

theorem quotient_neg_neg : r.quotient (-a) (-b) = r.quotient a b := by
  cases r with
  | towardZero => exact Int.neg_tdiv_neg a b
  | down => exact Int.neg_fdiv_neg a b

theorem le_quotient (hb : 0 < b) : a / b ≤ r.quotient a b ∧ r.quotient a b ≤ a / b + 1 := by
  cases r with
  | towardZero =>
    rw [Rounding.quotient, Int.tdiv_eq_ediv, Int.sign_eq_one_of_pos hb]
    split <;> omega
  | down =>
    rw [Rounding.quotient, Int.fdiv_eq_ediv_of_nonneg a (Int.le_of_lt hb)]
    omega

theorem residue_quotient_across (ha : IsSigned a) (hb : IsSigned b) (hneg : b < 0) (h : 0 ≤ a) :
    wrap a / wrap b = 0 := by
  rw [wrap_of_nonneg ha h, wrap_of_neg hb hneg]
  unfold IsSigned at ha hb
  exact Int.ediv_eq_zero_of_lt h (by omega)

theorem residue_quotient_ne (ha : IsSigned a) (hb : IsSigned b) (hneg : a < 0) (hpos : 1 < b)
    (h : v = r.quotient a b) : wrap a / wrap b ≠ wrap v := by
  obtain ⟨hlow, hhigh⟩ := le_quotient (r := r) (a := a) (b := b) (by omega)
  rw [wrap_of_neg ha hneg, wrap_of_nonneg hb (by omega)]
  unfold IsSigned at ha hb
  have hmax : (a + 65536) / b < 32768 := (Int.ediv_lt_iff_lt_mul (by omega)).2 (by omega)
  have hmin : 1 ≤ (a + 65536) / b := (Int.le_ediv_iff_mul_le (by omega)).2 (by omega)
  have hquotient : -16384 ≤ a / b := (Int.le_ediv_iff_mul_le (by omega)).2 (by omega)
  have hnegative : a / b < 0 := (Int.ediv_lt_iff_lt_mul (by omega)).2 (by omega)
  have hwrap : wrap v = 0 ∨ 49152 ≤ wrap v := by
    unfold wrap
    omega
  omega

/-- Of two negative numbers the residues are close to each other, so that their quotient is zero or one. -/
theorem residue_quotient_below (ha : IsSigned a) (hb : IsSigned b) (hna : a < 0) (hnb : b < 0) (hv : IsSigned v)
    (h : v = r.quotient a b) : wrap a / wrap b = wrap v ↔ a = b := by
  rw [← quotient_neg_neg, quotient_of_nonneg (by omega) (by omega)] at h
  have hnonneg : 0 ≤ v := h ▸ Int.ediv_nonneg (by omega) (by omega)
  rw [wrap_of_neg ha hna, wrap_of_neg hb hnb, wrap_of_nonneg hv hnonneg]
  unfold IsSigned at ha hb
  rcases Int.lt_trichotomy a b with hab | rfl | hab
  · have hzero : (a + 65536) / (b + 65536) = 0 := Int.ediv_eq_zero_of_lt (by omega) (by omega)
    have hone : 1 ≤ v := h ▸ (Int.le_ediv_iff_mul_le (by omega)).2 (by omega)
    omega
  · have hone : (a + 65536) / (a + 65536) = 1 := Int.ediv_self (by omega)
    have hone' : -a / -a = 1 := Int.ediv_self (by omega)
    omega
  · have hone : 1 ≤ (a + 65536) / (b + 65536) := (Int.le_ediv_iff_mul_le (by omega)).2 (by omega)
    have hzero : -a / -b = 0 := Int.ediv_eq_zero_of_lt (by omega) (by omega)
    omega

theorem residue_quotient (ha : IsSigned a) (hb : IsSigned b) (hb0 : b ≠ 0) (hv : IsSigned v) (h : v = r.quotient a b) :
    (wrap a).fdiv (wrap b) = wrap v ↔ BinaryOp.Agrees r a b .div := by
  rw [Int.fdiv_eq_ediv_of_nonneg _ (Expr.nonneg_wrap b), BinaryOp.Agrees]
  rcases Int.lt_or_le a 0 with hna | hpa
  · rcases Int.lt_or_le b 0 with hnb | hpb
    · rw [residue_quotient_below ha hb hna hnb hv h]
      omega
    · rcases Decidable.em (b = 1) with rfl | hb1
      · have hself : r.quotient a 1 = a := by cases r <;> simp [Rounding.quotient]
        rw [show wrap 1 = 1 from rfl, Int.ediv_one, h, hself]
        simp
      · have hne := residue_quotient_ne ha hb hna (by omega) h
        constructor
        · intro heq
          exact absurd heq hne
        · omega
  · rcases Int.lt_or_le b 0 with hnb | hpb
    · rw [residue_quotient_across ha hb hnb hpa, eq_comm, wrap_eq_zero hv, h]
      omega
    · have hpos : 0 < b := by omega
      rw [quotient_of_nonneg hpa hpos] at h
      have hnonneg : 0 ≤ v := h ▸ Int.ediv_nonneg hpa hpb
      rw [wrap_of_nonneg ha hpa, wrap_of_nonneg hb hpb, wrap_of_nonneg hv hnonneg, h]
      simp only [true_iff]
      exact .inr (.inr ⟨hpa, .inl hpos⟩)

/-- A truth about residues that is the truth about the numbers exactly if `q` holds. -/
theorem ofBool_residue {p p' q : Prop} [Decidable p] [Decidable p'] (h : p' ↔ (q ↔ p)) :
    (ofBool p' = wrap (ofBool p) ↔ q) ∧ (¬ q → ofBool p' = 1 - ofBool p) := by
  by_cases hp : p <;> by_cases hq : q <;> simp [h, hp, ofBool, wrap]

/-- A truth about residues that is always the truth about the numbers. -/
theorem ofBool_same {p p' : Prop} [Decidable p] [Decidable p'] (h : p' ↔ p) : ofBool p' = wrap (ofBool p) :=
  (ofBool_residue (by rw [h, true_iff])).1.2 trivial

theorem operate_signedUnary {op : UnaryOp} (ha : IsSigned a) (h : signedUnary a op = some v) :
    Expr.operate (Scalar.unary op (wrap a)) = .ok (wrap v) := by
  cases op with
  | neg =>
    obtain rfl := some.inj h
    have hneg : wrap (-wrap a) = wrap (-a) := by
      unfold wrap
      omega
    exact congrArg Except.ok hneg
  | not =>
    obtain rfl := some.inj h
    exact congrArg Except.ok (ofBool_same (wrap_eq_zero ha))
  | other text => cases h

theorem ne_circuit_of_signedBinary (h : signedBinary r a b op = some v) : op ≠ .and ∧ op ≠ .or := by
  constructor <;>
    · rintro rfl
      cases h

/-- What the machine computes from the residues of two numbers is right exactly if the operator agrees on them; an
ordering is turned round otherwise. -/
theorem operate_signedBinary (ha : IsSigned a) (hb : IsSigned b) (hv : IsSigned v)
    (h : signedBinary r a b op = some v) : ∃ w, Expr.operate (Scalar.binary op (wrap a) (wrap b)) = .ok w ∧
      (w = wrap v ↔ op.Agrees r a b) ∧ (op ≠ .div → ¬ op.Agrees r a b → w = 1 - v) := by
  cases op with
  | add | sub =>
    obtain rfl := some.inj h
    refine ⟨_, rfl, iff_of_true ?_ trivial, fun _ => absurd trivial⟩
    unfold wrap
    omega
  | mul =>
    obtain rfl := some.inj h
    exact ⟨_, rfl, iff_of_true (Int.mul_emod a b 65536).symm trivial, fun _ => absurd trivial⟩
  | div =>
    rw [signedBinary, ite_none_left_eq_some, some.injEq] at h
    have hdivisor : wrap b ≠ 0 := fun h0 => h.1 ((wrap_eq_zero hb).1 h0)
    refine ⟨(wrap a).fdiv (wrap b), ?_, residue_quotient ha hb h.1 hv h.2.symm, absurd rfl⟩
    rw [Scalar.binary, if_neg hdivisor]
    rfl
  | eq =>
    obtain rfl := some.inj h
    exact ⟨_, rfl, iff_of_true (ofBool_same (wrap_inj ha hb)) trivial, fun _ => absurd trivial⟩
  | ne =>
    obtain rfl := some.inj h
    exact ⟨_, rfl, iff_of_true (ofBool_same (not_congr (wrap_inj ha hb))) trivial, fun _ => absurd trivial⟩
  | lt =>
    obtain rfl := some.inj h
    obtain ⟨hright, hturned⟩ := ofBool_residue (wrap_lt_wrap ha hb)
    exact ⟨_, rfl, hright, fun _ => hturned⟩
  | gt =>
    obtain rfl := some.inj h
    obtain ⟨hright, hturned⟩ := ofBool_residue (wrap_lt_wrap hb ha)
    exact ⟨_, rfl, hright.trans .comm, fun _ hq => hturned fun h => hq h.symm⟩
  | le =>
    obtain rfl := some.inj h
    obtain ⟨hright, hturned⟩ := ofBool_residue (wrap_le_wrap ha hb)
    exact ⟨_, rfl, hright, fun _ => hturned⟩
  | ge =>
    obtain rfl := some.inj h
    obtain ⟨hright, hturned⟩ := ofBool_residue (wrap_le_wrap hb ha)
    exact ⟨_, rfl, hright.trans .comm, fun _ hq => hturned fun h => hq h.symm⟩
  | and | or | other => cases h

end Residues

/-! ### The machine -/

namespace Bytecode

open Machine (Image Frame)

section Number

variable {slots : Slots} {r : Rounding} {vars : String → Int} {locals : Array Int}

theorem plain_of_signed (e : Expr Note) : ∀ {v : Int}, e.signed r vars = some v → e.plain = true := by
  induction e using Expr.induction with
  | lit note l =>
    intro v hv
    cases l with
    | int n => rfl
    | bool | str | none => cases hv
  | var note x => exact fun _ => rfl
  | unary note op e ih =>
    intro v hv
    obtain ⟨a, ha, -⟩ := Expr.signed_unary.1 hv
    exact ih ha
  | binary note op x y ihx ihy =>
    intro v hv
    obtain ⟨a, b, ha, hb, -⟩ := Expr.signed_binary.1 hv
    exact (Bool.and_eq_true _ _).mpr ⟨ihx ha, ihy hb⟩
  | call | index | addrVar | addrIndex | addr | hole =>
    intro v hv
    cases hv

theorem number_operands {x y : Expr Note} {note : Note} {a b v w : Int}
    (hv : signedBinary r a b op = some v) (hw : Expr.operate (Scalar.binary op (wrap a) (wrap b)) = .ok w)
    (hx : x.number slots locals = .ok (wrap a)) (hy : y.number slots locals = .ok (wrap b)) :
    (Expr.binary note op x y).number slots locals = .ok w := by
  obtain ⟨hand, hor⟩ := ne_circuit_of_signedBinary hv
  rw [Expr.number_binary hand hor, hx, hy]
  exact hw

/-- The value of an expression that agrees is the residue of its value over the integers. -/
theorem number_agrees (e : Expr Note) : ∀ {v : Int}, e.signed r vars = some v → e.Agrees r vars →
    (∀ x ∈ e.vars, ∃ k, slots.cell? x = some k ∧ locals[k]? = some (wrap (vars x))) →
    e.number slots locals = .ok (wrap v) := by
  induction e using Expr.induction with
  | lit note l =>
    intro v hv _ _
    cases l with
    | int n =>
      obtain ⟨rfl, hlow, hhigh⟩ := small_eq_some.1 hv
      rw [wrap_of_nonneg ⟨by omega, hhigh⟩ hlow]
      rfl
    | bool | str | none => cases hv
  | var note x =>
    intro v hv _ hcells
    obtain ⟨c, hc, hl⟩ := hcells x (by simp [Expr.vars])
    obtain rfl : vars x = v := by
      cases note with
      | none => cases hv
      | some t =>
        cases t with
        | int => exact (signedOnly_eq_some.1 hv).1
        | _ => cases hv
    simp [Expr.number, hc, hl]
  | unary note op e ih =>
    intro v hv hagrees hcells
    obtain ⟨a, ha, hop, -⟩ := Expr.signed_unary.1 hv
    rw [Expr.number, ih ha hagrees hcells]
    exact operate_signedUnary (Expr.isSigned_of_signed ha) hop
  | binary note op x y ihx ihy =>
    intro v hv hagrees hcells
    obtain ⟨a, b, ha, hb, hop, hsigned⟩ := Expr.signed_binary.1 hv
    obtain ⟨hx, hy, hlast⟩ := hagrees
    rw [Expr.vars, List.forall_mem_append] at hcells
    obtain ⟨w, hw, hiff, -⟩ := operate_signedBinary (Expr.isSigned_of_signed ha) (Expr.isSigned_of_signed hb) hsigned hop
    obtain rfl := hiff.2 (hlast a b ha hb)
    exact number_operands hop hw (ihx ha hx hcells.1) (ihy hb hy hcells.2)
  | call | index | addrVar | addrIndex | addr | hole =>
    intro v hv
    cases hv

/-- The value of an expression whose last operator is the first to disagree is something else. -/
theorem number_disagrees {table : Signatures} {scope : Scope} {t : Ty} {v : Int}
    (ht : HasType table scope e t) (hv : e.signed r vars = some v) (h : e.Disagrees r vars)
    (hcells : ∀ x ∈ e.vars, ∃ k, slots.cell? x = some k ∧ locals[k]? = some (wrap (vars x))) :
    ∃ w, e.number slots locals = .ok w ∧ w ≠ wrap v ∧ (t = .bool → w = 1 - v) := by
  cases e with
  | binary note op x y =>
    obtain ⟨hx, hy, a, b, ha, hb, hlast⟩ := h
    obtain ⟨a', b', ha', hb', hop', hsigned⟩ := Expr.signed_binary.1 hv
    obtain rfl : a = a' := some.inj (ha.symm.trans ha')
    obtain rfl : b = b' := some.inj (hb.symm.trans hb')
    rw [Expr.vars, List.forall_mem_append] at hcells
    obtain ⟨w, hw, hiff, hturned⟩ := operate_signedBinary (Expr.isSigned_of_signed ha) (Expr.isSigned_of_signed hb)
      hsigned hop'
    refine ⟨w, number_operands hop' hw (number_agrees x ha hx hcells.1) (number_agrees y hb hy hcells.2),
      fun heq => hlast (hiff.1 heq), fun htype => hturned ?_ hlast⟩
    rintro rfl
    subst htype
    cases ht with
    | binary _ _ hop =>
      simp only [Typing.binaryType] at hop
      split at hop <;> cases hop
  | _ => exact h.elim

end Number

/-- **Signed numbers are computed with as long as no sign matters.** If every quotient and ordering in an expression
agrees, the machine pushes the residue of its value, a truth as it is. If the last operator is the first that does not,
it pushes something else; and every expression that does not agree has such a part. -/
theorem signed_compiled {table : Signatures} {scope : Scope} {e : Expr Note} {t : Ty} (ht : HasType table scope e t)
    {r : Rounding} {vars : String → Int} {v : Int} (hv : e.signed r vars = some v) {env : Env} {place : Place}
    {img : Image} {locals : Array Int} (hcode : img.Has place.pc (exprCode env place e).code)
    (hcells : ∀ x ∈ e.vars, ∃ k, env.slots.cell? x = some k ∧ locals[k]? = some (wrap (vars x)))
    (stack : List Int) (calls : List Frame) :
    (e.Agrees r vars → ∃ n, Machine.Runs img calls.length n [] ⟨place.pc, stack, locals, calls⟩
        ⟨place.pc + (exprCode env place e).code.length, wrap v :: stack, locals, calls⟩) ∧
      (t = .bool → wrap v = v ∧ (v = 0 ∨ v = 1)) ∧
      (e.Disagrees r vars → ∃ n w, Machine.Runs img calls.length n [] ⟨place.pc, stack, locals, calls⟩
          ⟨place.pc + (exprCode env place e).code.length, w :: stack, locals, calls⟩ ∧
        w ≠ wrap v ∧ (t = .bool → w = 1 - v)) ∧
      (¬ e.Agrees r vars → ∃ d : Expr Note, d.Within e ∧ d.Disagrees r vars) := by
  have hlt : ∀ x ∈ e.vars, ∃ k, env.slots.cell? x = some k ∧ k < locals.size := fun x hx =>
    (hcells x hx).imp fun k h => ⟨h.1, (Array.getElem?_eq_some_iff.1 h.2).1⟩
  have hplain : e.plain = true := plain_of_signed e hv
  refine ⟨fun hagrees => ?_, fun htype => ?_, fun hdisagrees => ?_, e.exists_disagrees hv⟩
  · exact exprCode_number hplain ht hlt (number_agrees e hv hagrees hcells) hcode stack calls
  · subst htype
    rcases Expr.signed_truth ht hv with rfl | rfl <;> decide
  · obtain ⟨w, hw, hwrong⟩ := number_disagrees ht hv hdisagrees hcells
    obtain ⟨n, hruns⟩ := exprCode_number hplain ht hlt hw hcode stack calls
    exact ⟨n, w, hruns, hwrong⟩

/-- Whether a negative number is less than zero. -/
def belowZero : String := "fn main(): bool \x7b let b: int = -5; return b < 0; \x7d"

/-- The code of `belowZero`. -/
def belowZeroImage : Image where
  code := #[⟨.pushInt, some 5⟩, ⟨.neg, none⟩, ⟨.storeLocal, some 0⟩, ⟨.loadLocal, some 0⟩, ⟨.pushInt, some 0⟩,
    ⟨.cmpLt, none⟩, ⟨.ret, none⟩, ⟨.ret, none⟩]
  functions := #[⟨"main", 0, 1, 0⟩]
  strings := []

def isNegative : Expr Note := .binary (some .bool) .lt (.var (some .int) "b") (.lit (some .int) (.int 0))

def belowZeroEnv : Env := ⟨{ cells := [("b", 0)], size := 1 }, []⟩

/-- The comparison of `belowZero` is right about 5 and wrong about -5. -/
theorem isNegative_signed : (∃ n, Machine.Runs belowZeroImage 0 n [] ⟨3, [], #[5], []⟩ ⟨6, [0], #[5], []⟩) ∧
    isNegative.signed .towardZero (fun _ => -5) = some 1 ∧
    ∃ n w, Machine.Runs belowZeroImage 0 n [] ⟨3, [], #[65531], []⟩ ⟨6, [w], #[65531], []⟩ ∧ w ≠ 1 ∧ w = 0 := by
  have htype : HasType [] [[("b", .int)]] isNegative .bool := .binary (.var rfl) (.lit (.int 0)) rfl
  have hcode : belowZeroImage.Has 3 (exprCode belowZeroEnv ⟨3, 0⟩ isNegative).code := by
    unfold Image.Has
    decide
  have hcells n : ∀ x ∈ isNegative.vars, ∃ k, belowZeroEnv.slots.cell? x = some k ∧
      (#[wrap n])[k]? = some (wrap n) := by
    intro x hx
    obtain rfl : x = "b" := by simpa [isNegative, Expr.vars] using hx
    exact ⟨0, rfl, rfl⟩
  have hfive : isNegative.signed .towardZero (fun _ => 5) = some 0 := by decide
  have hminusFive : isNegative.signed .towardZero (fun _ => -5) = some 1 := by decide
  have hagrees : isNegative.Agrees .towardZero fun _ => 5 :=
    ⟨trivial, trivial, fun a b ha hb => by cases ha; cases hb; decide⟩
  have hdisagrees : isNegative.Disagrees .towardZero fun _ => -5 := ⟨trivial, trivial, -5, 0, rfl, rfl, by decide⟩
  obtain ⟨hright, -⟩ := signed_compiled htype hfive hcode (hcells 5) [] []
  obtain ⟨-, -, hwrong, -⟩ := signed_compiled htype hminusFive hcode (hcells (-5)) [] []
  obtain ⟨n, w, hruns, hne, hturned⟩ := hwrong hdisagrees
  exact ⟨hright hagrees, hminusFive, n, w, hruns, hne, hturned rfl⟩

/-- The machine says that -5 is not less than zero. -/
theorem belowZero_exits_zero : imageOf belowZero = .ok belowZeroImage ∧ belowZeroImage.Ends [] (.exit 0) ∧
    ∀ r, isNegative.signed r (fun _ => -5) = some 1 := by
  refine ⟨by decide +kernel, ⟨by simp, 10, by decide⟩, fun r => ?_⟩
  cases r <;> decide

end Bytecode

end Workbench
