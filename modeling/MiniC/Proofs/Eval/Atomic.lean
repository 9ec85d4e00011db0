import MiniC.Proofs.Eval.Coupling
import MiniC.Proofs.Eval.Pure
import MiniC.Proofs.Scope.Flat
import MiniC.Proofs.Value.Path

/-!
# Stores are atomic

An assignment or a declaration first evaluates all that it needs, which can change the machine
through calls.  What it does then is all or nothing: it fails and leaves the machine alone, or it
changes exactly one slot or binds exactly one name.  Main statement: `stores_atomic`.
-/

namespace MiniC

/-- The second machine is the first one but for the scalar that a path selects in the innermost
visible binding of a name. -/
structure Machine.StoredAt (name : String) (path : List Int64) (m n : Machine) : Prop where
  console : n.console = m.console
  scope : ∃ before f after v w, (∀ g ∈ before, g.find? name = none) ∧ f.find? name = some v ∧
    m.scope.Rebinds n.scope before f after name w ∧ v.DiffersAt path w

/-- The second machine is the first one with a new name in the innermost frame. -/
structure Machine.DeclaredIn (name : String) (m n : Machine) : Prop where
  console : n.console = m.console
  scope : ∃ f outer v, f.find? name = none ∧ m.scope.Rebinds n.scope [] f outer name v

/-- All or nothing: a failure that leaves a machine alone, or the change of it that `P` says. -/
inductive Outcome.Atomic (P : Machine → Machine → Prop) (m : Machine) : Outcome Unit → Prop
  | failed (f : Failure) : Atomic P m (.failed f m)
  | done {n : Machine} (h : P m n) : Atomic P m (.done () n)

variable {m k s : Machine}

theorem Outcome.Atomic.locate {P : Machine → Machine → Prop} {r : Run Unit}
    (h : (r m).Atomic P s) (l : Lexeme) : (Run.locate l r m).Atomic P s := by
  unfold Run.locate
  generalize r m = o at h
  cases h with
  | failed f => exact .failed _
  | done h => exact .done h

/-- Once the operands are evaluated, an assignment stores one scalar or fails without a change. -/
theorem Run.assign_atomic (l : Lexeme) (name : String) (path : List Int64) (op : AssignOp)
    (new : Value) (m : Machine) :
    (Run.assign l name path op new m).Atomic (Machine.StoredAt name path) m := by
  rw [Run.assign_eq]
  cases hv : m.scope.find? name with
  | none => exact .failed _
  | some v =>
    dsimp only
    cases hcurrent : v.atPath path with
    | error fault => exact .failed _
    | ok current =>
      dsimp only
      cases hupdated : current.assigned op new with
      | error fault => exact .failed _
      | ok updated =>
        obtain ⟨type, hscalar, hnew⟩ := Value.assigned_ok hupdated
        have hlookup : m.scope.lookup name = .ok v := by
          unfold Scope.lookup
          rw [hv]
        obtain ⟨before, f, after, hbefore, hf, hrebinds⟩ :=
          Scope.rebinds_modify hlookup (·.setAt path updated)
        have hdiffers := Value.differsAt_setAt hcurrent hscalar hnew
        exact .done ⟨rfl, before, f, after, v, _, hbefore, hf, hrebinds, hdiffers⟩

/-- Once there is a value for it, a name is bound or the declaration fails without a change. -/
theorem Run.declare_atomic (name : String) (v : Value) (m : Machine) :
    (Run.changeScope (·.declare name v) m).Atomic (Machine.DeclaredIn name) m := by
  obtain ⟨f, outer, -, hdeclare⟩ := m.scope.declare_visible name v
  unfold Run.changeScope
  dsimp only
  split at hdeclare
  · rw [hdeclare]
    exact .failed _
  · next hunbound =>
    obtain ⟨t, ht, hrebinds⟩ := hdeclare
    have hnone : f.find? name = none := by simpa [Frame.binds] using hunbound
    rw [ht]
    exact .done ⟨rfl, f, outer, v, hnone, hrebinds⟩

section Statements

variable {eval : Expr → Run Value}

theorem execAssignment_atomic {target : Place} {value : Expr} {new : Value} {path : List Int64}
    (hnew : eval value m = .done new k)
    (hpath : Run.each (evalIndex eval) target.indices k = .done path s) (op : AssignOp) :
    (execAssignment eval target op value m).Atomic (Machine.StoredAt target.name path) s := by
  rw [execAssignment_eq, Run.bind_of_done hnew, Run.bind_of_done hpath]
  exact Run.assign_atomic target.lexeme target.name path op new s

theorem execDeclaration_atomic {d : Declaration} {dims : List (Option Nat)}
    {initial : Option Value}
    (hdims : Run.each (evalDimension eval) d.target.indices m = .done dims k)
    (hinitial : evalOption eval d.initial k = .done initial s) :
    (execDeclaration eval d m).Atomic (Machine.DeclaredIn d.target.name) s := by
  unfold execDeclaration
  apply Outcome.Atomic.locate
  rw [Run.bind_of_done hdims, Run.bind_of_done hinitial]
  cases hv : initialValue d dims initial with
  | error fault => exact .failed _
  | ok v => exact Run.declare_atomic d.target.name v s

end Statements

/-- Expressions without calls are pure, and stores are atomic.  An expression that contains no call
leaves the machine as it was, whether it succeeds or fails.  Let `s` be the machine after the new
value of an assignment and then the indices were evaluated: the assignment fails and leaves `s`, or
it leaves `s` but for the one scalar that the indices select in the innermost visible binding of the
target.  Let `s` be the machine after the dimensions of a declaration and then its initial value
were evaluated: the declaration fails and leaves `s`, or it leaves `s` with one new binding, in the
innermost frame. -/
theorem stores_atomic (steps : Nat) (m : Machine) :
    (∀ e : Expr, e.CallFree → ∀ n, (eval steps e m).machine? = some n → n = m) ∧
    (∀ target op value new k path s, eval steps value m = .done new k →
      Run.each (evalIndex (eval steps)) target.indices k = .done path s →
      (execAssignment (eval steps) target op value m).Atomic
        (Machine.StoredAt target.name path) s) ∧
    ∀ d dims k initial s, Run.each (evalDimension (eval steps)) d.target.indices m = .done dims k →
      evalOption (eval steps) d.initial k = .done initial s →
      (execDeclaration (eval steps) d m).Atomic (Machine.DeclaredIn d.target.name) s := by
  refine ⟨fun e he n hn => ?_, fun target op value new k path s hnew hpath => ?_,
    fun d dims k initial s hdims hinitial => ?_⟩
  · exact eval_pure steps he m n hn
  · exact execAssignment_atomic hnew hpath op
  · exact execDeclaration_atomic hdims hinitial

/-- An element of an array that hides another one is stored, and a variable is declared in a frame
that has its name already. -/
theorem hiding_store_atomic :
    let l := Lexeme.absent
    let index : Expr := .variable "i" [] l
    let target : Place := ⟨"a", [some index], l⟩
    let array (x y : Int64) : Value := .array #[.int x, .int y]
    let m : Machine :=
      ⟨⟨⟨[("i", .int 1), ("a", array 1 2)]⟩, [⟨[("a", array 3 4)]⟩], []⟩, ⟨⟨[]⟩, .unlimited⟩⟩
    let again : Declaration := ⟨.int, ⟨"a", [some index], l⟩, none⟩
    target.read.CallFree ∧ eval 2 target.read m = .done (.int 4) m ∧
      (execAssignment (eval 2) target .plain target.read m).value? = some () ∧
      (execAssignment (eval 2) target .plain target.read m).Atomic
        (Machine.StoredAt "a" [1]) m ∧
      (execDeclaration (eval 2) again m).value? = none ∧
      (execDeclaration (eval 2) again m).Atomic (Machine.DeclaredIn "a") m := by
  intro l index target array m again
  obtain ⟨hpure, hassign, hdeclare⟩ := stores_atomic 2 m
  have hfree : target.read.CallFree := by decide
  obtain ⟨n, hn⟩ : ∃ n, eval 2 target.read m = .done (.int 4) n := ⟨_, rfl⟩
  have hsame : n = m := hpure target.read hfree n (by rw [hn]; rfl)
  rw [hsame] at hn
  exact ⟨hfree, hn, rfl, hassign target .plain target.read (.int 4) m [1] m hn rfl, rfl,
    hdeclare again [some 1] m none m rfl rfl⟩

end MiniC
