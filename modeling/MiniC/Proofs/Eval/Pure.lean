import MiniC.Proofs.Run.Done
import MiniC.Proofs.Syntax.Scoped

/-!
# Expressions without calls

Only a call can change the machine while an expression is evaluated.  A run is `Pure` if it leaves
the machine as it was, whether it succeeds or fails; an expression that is `CallFree` is evaluated by
pure runs (`eval_pure`), and so are places and indices without calls.
-/

namespace MiniC

/-! ## Pure runs -/

/-- However the run ends, it leaves the machine as it was. -/
def Run.Pure (r : Run α) : Prop := ∀ m n, (r m).machine? = some n → n = m

namespace Run

variable {α β : Type} {r : Run α} {m n : Machine} {v : α}

theorem Pure.of_done (h : r.Pure) (hr : r m = .done v n) : n = m :=
  h m n (by rw [hr]; rfl)

theorem pure_unfinished : (unfinished : Run α).Pure := by
  intro m n hn
  cases hn

theorem pure_pure (value : α) : (pure value : Run α).Pure := by
  intro m n hn
  cases hn
  rfl

theorem pure_fail (fault : Fault) : (fail fault : Run α).Pure := by
  intro m n hn
  cases hn
  rfl

theorem pure_lift (e : Except Fault α) : (lift e).Pure := by
  intro m n hn
  cases e with
  | ok value =>
    cases hn
    rfl
  | error fault =>
    cases hn
    rfl

theorem pure_lookup (name : String) : (lookup name).Pure := by
  intro m n hn
  exact pure_lift (m.scope.lookup name) m n hn

theorem Pure.bind {next : α → Run β} (hr : r.Pure) (hnext : ∀ value, (next value).Pure) :
    (r >>= next).Pure := by
  intro m n hn
  rcases bind_machine? hn with hn | ⟨value, k, hk, hn⟩
  · exact hr m n hn
  · rw [hnext value k n hn, hr.of_done hk]

theorem Pure.locate (hr : r.Pure) (l : Lexeme) : (locate l r).Pure := by
  intro m n hn
  rw [locate_machine?] at hn
  exact hr m n hn

theorem pure_each {f : α → Run β} {xs : List α} (hf : ∀ x ∈ xs, (f x).Pure) :
    (each f xs).Pure := by
  induction xs with
  | nil => exact pure_pure []
  | cons x xs ih =>
    obtain ⟨hx, hxs⟩ := List.forall_mem_cons.1 hf
    exact hx.bind fun y => (ih hxs).bind fun ys => pure_pure (y :: ys)

end Run

/-! ## Expressions without calls -/

/-- Nothing is called in an expression. -/
def Expr.CallFree (e : Expr) : Prop := ∀ u ∈ e.uses, u.callee? = none

instance (e : Expr) : Decidable e.CallFree :=
  inferInstanceAs (Decidable (∀ u ∈ e.uses, u.callee? = none))

namespace Expr.CallFree

theorem of_mem {elements : List Expr} {l : Lexeme} (h : (Expr.list elements l).CallFree) {e : Expr}
    (he : e ∈ elements) : e.CallFree :=
  fun u hu => h u (mem_usesAll he hu)

theorem index {name : String} {indices : List (Option Expr)} {l : Lexeme}
    (h : (Expr.variable name indices l).CallFree) {e : Expr} (he : some e ∈ indices) : e.CallFree :=
  fun u hu => h u (List.mem_cons_of_mem _ (mem_usesIndices he hu))

theorem left {op : BinaryOp} {left right : Expr} {l : Lexeme}
    (h : (Expr.binary op left right l).CallFree) : left.CallFree :=
  fun u hu => h u (List.mem_append_left _ hu)

theorem right {op : BinaryOp} {left right : Expr} {l : Lexeme}
    (h : (Expr.binary op left right l).CallFree) : right.CallFree :=
  fun u hu => h u (List.mem_append_right _ hu)

theorem binary {op : BinaryOp} {left right : Expr} {l : Lexeme} (hleft : left.CallFree)
    (hright : right.CallFree) : (Expr.binary op left right l).CallFree :=
  fun u hu => (List.mem_append.1 hu).elim (hleft u) (hright u)

theorem not_call {name : String} {arguments : List Expr} {l : Lexeme} :
    ¬ (Expr.call name arguments l).CallFree := by
  intro h
  have hcallee := h (.call name) List.mem_cons_self
  cases hcallee

end Expr.CallFree

section Parts

variable {eval : Expr → Run Value} {indices : List (Option Expr)}
  (heval : ∀ e, some e ∈ indices → (eval e).Pure)

include heval

theorem each_index_pure : (Run.each (evalIndex eval) indices).Pure := by
  refine Run.pure_each fun i hi => ?_
  cases i with
  | none => exact Run.pure_fail _
  | some e => exact (heval e hi).bind fun v => (Run.pure_lift _).locate e.lexeme

theorem evalPlace_pure (name : String) : (evalPlace eval name indices).Pure :=
  (each_index_pure heval).bind fun path =>
    (Run.pure_lookup name).bind fun v => Run.pure_lift (v.atPath path)

end Parts

/-- Expressions without calls are pure. -/
theorem eval_pure (steps : Nat) {e : Expr} (he : e.CallFree) : (eval steps e).Pure := by
  induction steps generalizing e with
  | zero =>
    unfold eval
    exact Run.pure_unfinished
  | succ steps ih =>
    unfold eval
    refine Run.Pure.locate ?_ e.lexeme
    cases e with
    | literal v l => exact Run.pure_pure v.toValue
    | list elements l =>
      refine (Run.pure_each fun e hmem => ih (he.of_mem hmem)).bind fun vs => ?_
      exact Run.pure_lift (Value.ofElements vs)
    | «variable» name indices l => exact evalPlace_pure (fun e hmem => ih (he.index hmem)) name
    | unary op operand l =>
      have hoperand : operand.CallFree := he
      exact (ih hoperand).bind fun v => Run.pure_lift (Value.unary op v)
    | binary op left right l =>
      refine (ih he.left).bind fun v => (ih he.right).bind fun w => ?_
      exact Run.pure_lift (Value.binary op v w)
    | cast target operand l =>
      have hoperand : operand.CallFree := he
      exact (ih hoperand).bind fun v => Run.pure_lift (v.cast target)
    | call name arguments l => exact absurd he Expr.CallFree.not_call

end MiniC
