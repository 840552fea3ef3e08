import Workbench.Proofs.Orderly
import Workbench.Proofs.Sealed

/-!
# Where statements stand in the code

`sites` lists statements and the ones inside them in the order of the code, each with the place for which its code is
generated. `Stands` says where in the image of a program the code of a function is, and `exists_stands` that the code of
every function is there, from its entry to the entry of the next one.
-/

namespace Workbench.Bytecode

open Machine (Instr Image)
open Typing (Note)

/-- The code of a statement; none if it cannot be generated. -/
def codeOf (env : Env) (p : Place) (s : Stmt Note) : Piece := (stmtCode env p s).toOption.getD (.ofCode [])

/-- The code of statements; none if it cannot be generated. -/
def codeOfAll (env : Env) (p : Place) (ss : List (Stmt Note)) : Piece :=
  (stmtsCode env p ss).toOption.getD (.ofCode [])

mutual

/-- A statement and the statements inside it, each with the place of its code. -/
def sitesOf (env : Env) (p : Place) : Stmt Note → List (Place × Stmt Note)
  | .cond test yes none => (p, .cond test yes none) :: sites env ((p.after (exprCode env p test)).skip 1) yes
  | .cond test yes (some no) =>
    let p₁ := (p.after (exprCode env p test)).skip 1
    let p₂ := (p₁.after (codeOfAll env p₁ yes)).skip 1
    (p, .cond test yes (some no)) :: (sites env p₁ yes ++ sites env p₂ no)
  | .loop test body => (p, .loop test body) :: sites env ((p.after (exprCode env p test)).skip 1) body
  | s => [(p, s)]
termination_by structural s => s

/-- The statements and the ones inside them, in the order of the code, each with the place of its code. -/
def sites (env : Env) (p : Place) : List (Stmt Note) → List (Place × Stmt Note)
  | [] => []
  | s :: ss => sitesOf env p s ++ sites env (p.after (codeOf env p s)) ss
termination_by structural ss => ss

end

section Sites

variable {env : Env} {p : Place} {c : Piece} {s : Stmt Note} {ss : List (Stmt Note)}

theorem codeOf_eq (h : stmtCode env p s = .ok c) : codeOf env p s = c := by
  rw [codeOf, h]
  rfl

theorem codeOfAll_eq (h : stmtsCode env p ss = .ok c) : codeOfAll env p ss = c := by
  rw [codeOfAll, h]
  rfl

theorem stmtCode_eq {number : String → Nat} (hn : env.Numbered number) (h : stmtCode env p s = .ok c) :
    c = (env.view.stmt s).code number p := by
  have hone : stmtsCode env p [s] = .ok (c ++ .ofCode []) := by simp only [stmtsCode, h, bind, Except.bind, pure]; rfl
  simpa [Piece.ext_iff, View.stmts, Shape.code] using stmtsCode_eq hn [s] p _ hone

theorem site_mem_sitesOf (s : Stmt Note) : (p, s) ∈ sitesOf env p s := by
  unfold sitesOf
  split <;> exact List.mem_cons_self

end Sites

/-! ### The code of a function -/

/-- In the image, the code of the function `f` with the number `k` stands at `p`: first `body`, then what ends it. -/
structure Stands (img : Image) (k : Nat) (f : Function Note) (env : Env) (p : Place) (body : Piece) : Prop where
  slots : env.slots = Slots.ofFunction f
  code : stmtsCode env p f.body = .ok body
  entry : img.entryOf k = p.pc
  has : img.Has p.pc (body ++ closingCode f.returnType).code
  next : img.entryOf (k + 1) = (p.after (body ++ closingCode f.returnType)).pc

theorem exists_stands {prog : Program Note} {obj : Object} (hnodup : (names prog).Nodup) (h : emit prog = .ok obj)
    {k : Nat} {f : Function Note} (hf : prog.functions[k]? = some f) :
    ∃ p body, Stands obj.image k f ⟨Slots.ofFunction f, numbering ((names prog).take (k + 1))⟩ p body ∧
      obj.functions[k]? = some ⟨f.name, p.pc, Slots.ofFunction f, f.params.length⟩ ∧
      (routines [] 0 prog.functions)[k]? = some (routineOf ((names prog).take (k + 1)) p.string f) := by
  obtain ⟨q, r, body, rfl, rfl, hget, hinfo, hbody, hplaced, hnext⟩ := exists_placed hnodup h hf
  refine ⟨q, _, ⟨rfl, hbody, ?_, ?_, ?_⟩, hinfo, hget⟩
  · simp [entryOf_image, entryAt, hinfo]
  · simpa [Shape.codeAt, code_closingCode ((names prog).take (k + 1)) q.string] using hplaced.code
  · rw [entryOf_image, hnext]

end Workbench.Bytecode
