/-!
# Cells by index

An index counts from the front if it is not negative and from the back if it is: `-1` is the last
cell. Of the indices that denote no cell, those that no 64-bit word holds are refused as too large.
-/

namespace Workbench.Machine

/-- Why an index denotes no cell. -/
inductive BadIndex where
  | outOfRange
  | tooLarge
  deriving DecidableEq, Repr

def cellAt (size : Nat) (i : Int) : Except BadIndex Nat :=
  if 0 ≤ i ∧ i < size then .ok i.toNat
  else if i < 0 ∧ 0 ≤ i + size then .ok (i + size).toNat
  else if i < -9223372036854775808 ∨ 9223372036854775807 < i then .error .tooLarge
  else .error .outOfRange

theorem cellAt_lt {size : Nat} {i : Int} {k : Nat} (h : cellAt size i = .ok k) : k < size := by
  unfold cellAt at h
  split at h
  · cases h; omega
  · split at h
    · cases h; omega
    · split at h <;> cases h

theorem cellAt_ofNat {size k : Nat} (h : k < size) : cellAt size k = .ok k := by
  rw [cellAt, if_pos ⟨by omega, by omega⟩]
  simp

end Workbench.Machine
