import Mathlib.Data.List.TakeWhile
import Workbench.Update.Download

/-!
# What a download accepts

An answer is written chunk by chunk until a read or a write fails or nothing more comes. A download is accepted if
nothing failed, and then the file holds what came in (`accepted_downloads`). The length that the server declared is read
and not looked at again, so an answer that ends early is accepted too; and a download that fails leaves its temporary
file behind.
-/

namespace Workbench.Update

variable {o : Outside} {reads : List Delivery} {url : String} {watched : Bool}

namespace Delivery

/-- What came in. -/
def bytes : Delivery → List UInt8
  | chunk b bs | unwritten b bs => b :: bs
  | timeout => []

/-- Something came in and was written. -/
def isWritten : Delivery → Bool
  | chunk .. => true
  | unwritten .. | timeout => false

end Delivery

theorem receive_complete (before : Nat) : (receive before reads).complete = reads.all Delivery.isWritten := by
  induction reads generalizing before with
  | nil => rfl
  | cons d reads ih =>
    cases d with
    | chunk b bs => exact ih _
    | unwritten | timeout => rfl

theorem receive_bytes (before : Nat) :
    (receive before reads).bytes = (reads.takeWhile Delivery.isWritten).flatMap Delivery.bytes := by
  induction reads generalizing before with
  | nil => rfl
  | cons d reads ih =>
    cases d with
    | chunk b bs => exact congrArg (b :: bs ++ ·) (ih _)
    | unwritten | timeout => rfl

/-- The outside makes a temporary file and answers with a length that can be read or with none, and the file can be
opened and closed. -/
structure Outside.Serves (o : Outside) : Prop where
  untroubled : o.trouble = none
  declared : ∃ n, declaredLength o = .ok n
  allows : ∀ kind ∈ [CallKind.makeTemp, .request, .openFile, .wrote], o.failing ≠ some kind

theorem Outside.refuses_iff {c : Call} : o.refuses c = true ↔ o.failing = some c.kind := beq_iff_eq

/-- A download comes to nothing because the outside does not serve it, or it writes the answer. -/
theorem downloadOf_cases (o : Outside) (reads : List Delivery) (url : String) (watched : Bool) :
    (¬ o.Serves ∧ (∀ path, (downloadOf o reads url watched).result ≠ .ok (some path)) ∧
      (downloadOf o reads url watched).kept = if o.failing = some .makeTemp then none else some []) ∨
    (o.failing ≠ some .makeTemp ∧ (downloadOf o reads url watched).kept = some (receive 0 reads).bytes ∧
      ∀ path, (downloadOf o reads url watched).result = .ok (some path) ↔
        path = tempPath o ∧ o.Serves ∧ (receive 0 reads).complete = true) := by
  unfold downloadOf writeAnswer
  by_cases hmade : o.failing = some .makeTemp
  · rw [if_pos (Outside.refuses_iff.2 hmade), if_pos hmade]
    exact .inl ⟨fun h => h.allows .makeTemp (by decide) hmade, by rintro path ⟨⟩, rfl⟩
  rw [if_neg (mt Outside.refuses_iff.1 hmade), if_neg hmade]
  cases htrouble : o.trouble with
  | some t =>
    refine .inl ⟨fun h => ?_, ?_⟩
    · cases htrouble.symm.trans h.untroubled
    · cases t <;> exact ⟨by rintro path ⟨⟩, rfl⟩
  | none =>
    by_cases hasked : o.failing = some .request
    · simp only [if_pos (Outside.refuses_iff.2 hasked : o.refuses (.request url none 60) = true)]
      exact .inl ⟨fun h => h.allows .request (by decide) hasked, by rintro path ⟨⟩, rfl⟩
    simp only [if_neg (mt Outside.refuses_iff.1 hasked : ¬ o.refuses (.request url none 60) = true)]
    cases hlength : declaredLength o with
    | error e =>
      refine .inl ⟨fun h => ?_, by rintro path ⟨⟩, rfl⟩
      obtain ⟨n, hn⟩ := h.declared
      cases hlength.symm.trans hn
    | ok total =>
      by_cases hopened : o.failing = some .openFile
      · simp only [if_pos (Outside.refuses_iff.2 hopened : o.refuses (.openFile (tempPath o) "wb") = true)]
        exact .inl ⟨fun h => h.allows .openFile (by decide) hopened, by rintro path ⟨⟩, rfl⟩
      simp only [if_neg (mt Outside.refuses_iff.1 hopened : ¬ o.refuses (.openFile (tempPath o) "wb") = true)]
      refine .inr ⟨hmade, trivial, fun path => ?_⟩
      have hserves : o.Serves ↔ o.failing ≠ some .wrote := by
        refine ⟨fun h => h.allows .wrote (by decide), fun hwrote => ⟨htrouble, ⟨total, hlength⟩, ?_⟩⟩
        simp only [List.mem_cons, List.not_mem_nil, or_false]
        rintro kind (rfl | rfl | rfl | rfl) <;> assumption
      simp only [hserves, Except.ok.injEq, Option.ite_none_right_eq_some, Bool.and_eq_true, Bool.not_eq_true',
        ← Bool.not_eq_true, Outside.refuses_iff, Option.some.injEq]
      exact ⟨fun h => ⟨h.2.symm, h.1.2, h.1.1⟩, fun h => ⟨⟨h.2.2, h.2.1⟩, h.1.symm⟩⟩

/-- A download is accepted exactly if the outside serves it and every read brought something that could be written, and
then the file holds all that came in; the length that was declared plays no part. A temporary file that was made stays,
with no more in it than came in. -/
theorem accepted_downloads (o : Outside) (reads : List Delivery) (url : String) (watched : Bool) :
    (∀ path, (downloadOf o reads url watched).result = .ok (some path) ↔
      path = tempPath o ∧ o.Serves ∧ ∀ d ∈ reads, d.isWritten = true) ∧
    (∀ path, (downloadOf o reads url watched).result = .ok (some path) →
      (downloadOf o reads url watched).kept = some (reads.flatMap Delivery.bytes)) ∧
    ((downloadOf o reads url watched).kept = none ↔ o.failing = some .makeTemp) ∧
    ∀ bytes, (downloadOf o reads url watched).kept = some bytes → bytes <+: reads.flatMap Delivery.bytes := by
  obtain ⟨hserves, hresult, hkept⟩ | ⟨hmade, hkept, hresult⟩ := downloadOf_cases o reads url watched
  · refine ⟨fun path => ⟨fun h => absurd h (hresult path), fun h => absurd h.2.1 hserves⟩,
      fun path h => absurd h (hresult path), ?_, fun bytes h => ?_⟩
    · rw [hkept]
      split <;> simp_all
    · rw [hkept] at h
      split at h <;> cases h
      exact List.nil_prefix
  · simp only [receive_complete, List.all_eq_true] at hresult
    refine ⟨hresult, fun path h => ?_, ?_, fun bytes h => ?_⟩
    · rw [hkept, receive_bytes, List.takeWhile_eq_self_iff.2 ((hresult path).1 h).2.2]
    · rw [hkept]
      exact ⟨fun h => absurd h (Option.some_ne_none _), fun h => absurd h hmade⟩
    · cases hkept.symm.trans h
      rw [receive_bytes]
      obtain ⟨rest, hrest⟩ := List.takeWhile_prefix (l := reads) Delivery.isWritten
      exact ⟨rest.flatMap Delivery.bytes, by rw [← List.flatMap_append, hrest]⟩

theorem chunks_kept : (downloadOf {} [.chunk 1 [2], .chunk 3 []] "x" false).result = .ok (some "/tmp/dl") ∧
    (downloadOf {} [.chunk 1 [2], .chunk 3 []] "x" false).kept = some [1, 2, 3] :=
  ⟨rfl, (accepted_downloads {} _ "x" false).2.1 "/tmp/dl" rfl⟩

/-- An answer of three bytes of the ten that were declared. -/
def shortAnswer : Outside := { body := .counting 3, length := some "10" }

/-- It is accepted; and what came in before a read fails stays behind. -/
theorem shortAnswer_accepted : (declaredLength shortAnswer).toOption = some 10 ∧
    (download shortAnswer "x" false).result.toOption = some (some "/tmp/dl") ∧
    (download shortAnswer "x" false).kept = some [0, 1, 2] ∧
    (download { shortAnswer with readsLeft := some 1 } "x" false).result.toOption = some none ∧
    (download { shortAnswer with readsLeft := some 1 } "x" false).kept = some [0, 1, 2] := by
  decide +kernel

end Workbench.Update
