import MiniC.Proofs.Run.Composed

/-!
# Runs that agree

`r.Agrees I F V r'` says that `r` is composed of primitive activities, and that `r'` does the same
as `r` from every scope with the invariant `I`.  Two runs that are put together in the same way
agree if their parts do, so what is shown of the evaluator for one run is shown for the evaluator
that is watched as well.  There is one lemma for each combinator of the evaluator.
-/

namespace MiniC

/-- A jump that a flow makes is one of some statements. -/
def Flow.Jumps (jumps : Statement → Prop) : Flow → Prop
  | .broke l => jumps (.breakLoop l)
  | .continued l => jumps (.continueLoop l)
  | .normal | .returned _ _ => True

section Flow

variable {jumps jumps' : Statement → Prop} {flow left : Flow}

theorem Flow.Jumps.mono (h : flow.Jumps jumps) (hmono : ∀ s, jumps s → jumps' s) :
    flow.Jumps jumps' := by
  cases flow with
  | broke l | continued l => exact hmono _ h
  | normal | returned _ _ => exact trivial

/-- A loop is left normally or by returning, so no jump is out of a loop. -/
theorem Flow.jumps_of_leavesLoop (h : flow.leavesLoop = some left) : left.Jumps jumps := by
  cases flow with
  | normal | continued _ => cases h
  | broke _ | returned _ _ =>
    cases h
    exact trivial

end Flow

namespace Run

variable {α β : Type} {I : Scope → Prop} {F G : Failure → Prop} {V W : α → Prop} {r r' : Run α}

/-- The first run is composed, and the second one does the same from scopes with the invariant. -/
structure Agrees (I : Scope → Prop) (F : Failure → Prop) (V : α → Prop) (r r' : Run α) : Prop where
  composed : r.Composed I F V
  same : ∀ m : Machine, I m.scope → r' m = r m

theorem Composed.agrees (h : r.Composed I F V) : r.Agrees I F V r := ⟨h, fun _ _ => rfl⟩

theorem agrees_pure {value : α} (h : V value) : (pure value : Run α).Agrees I F V (pure value) :=
  Composed.agrees (.pure h)

theorem agrees_unfinished : (unfinished : Run α).Agrees I F V unfinished :=
  Composed.agrees .unfinished

namespace Agrees

theorem mono (h : r.Agrees I F V r') (hF : ∀ f, F f → G f) (hV : ∀ value, V value → W value) :
    r.Agrees I G W r' :=
  ⟨h.composed.mono hF hV, h.same⟩

theorem keeps {m n : Machine} (h : r.Agrees I F V r') (hm : I m.scope)
    (hn : (r m).machine? = some n) : I n.scope :=
  h.composed.keeps hm hn

theorem ignore (h : r.Agrees I F V r') : r.Agrees I F anything r' :=
  h.mono (fun _ => id) fun _ _ => trivial

theorem bind {W : β → Prop} {next next' : α → Run β} (hr : r.Agrees I F V r')
    (hnext : ∀ value, V value → (next value).Agrees I F W (next' value)) :
    (r >>= next).Agrees I F W (r' >>= next') := by
  refine ⟨hr.composed.bind fun value hV => (hnext value hV).composed, fun m hm => ?_⟩
  have hmeets := hr.composed.meets hm
  show Run.bind r' next' m = Run.bind r next m
  unfold Run.bind
  rw [hr.same m hm]
  generalize r m = o at hmeets
  cases o with
  | done value n => exact (hnext value hmeets.1).same n hmeets.2
  | failed f n => rfl
  | unfinished => rfl

theorem afterwards {change : Scope → Scope} (hr : r.Agrees I F V r')
    (hI : ∀ s, I s → I (change s)) :
    (afterwards r change).Agrees I F V (afterwards r' change) := by
  refine ⟨.afterwards hr.composed hI, fun m hm => ?_⟩
  unfold Run.afterwards
  rw [hr.same m hm]

/-- A lexeme is attached on the way out. -/
theorem locate {l : Lexeme} (hF : ∀ f, F f → F (f.locate l)) (hr : r.Agrees I F V r') :
    (locate l r).Agrees I (Failure.Located F) V (locate l r') := by
  refine ⟨.locate hr.composed fun f hf => ⟨hF f hf, f.lexeme_locate l⟩, fun m hm => ?_⟩
  unfold Run.locate
  rw [hr.same m hm]

theorem unlocated (hr : r.Agrees I (Failure.Located F) V r') : r.Agrees I F V r' :=
  hr.mono (fun _ => And.left) fun _ => id

end Agrees

/-! ## Combinators -/

theorem agrees_each {f f' : α → Run β} {xs : List α}
    (hf : ∀ x ∈ xs, (f x).Agrees I F anything (f' x)) :
    (each f xs).Agrees I F anything (each f' xs) := by
  induction xs with
  | nil => exact agrees_pure trivial
  | cons x xs ih =>
    obtain ⟨hx, hxs⟩ := List.forall_mem_cons.1 hf
    exact hx.bind fun y _ => (ih hxs).bind fun ys _ => agrees_pure trivial

theorem agrees_inSequence {jumps : Statement → Prop} {exec exec' : Statement → Run Flow}
    {body : List Statement} (hexec : ∀ s ∈ body, (exec s).Agrees I F (Flow.Jumps jumps) (exec' s)) :
    (inSequence exec body).Agrees I F (Flow.Jumps jumps) (inSequence exec' body) := by
  induction body with
  | nil => exact agrees_pure trivial
  | cons s rest ih =>
    obtain ⟨hs, hrest⟩ := List.forall_mem_cons.1 hexec
    refine hs.bind fun flow hflow => ?_
    cases flow with
    | normal => exact ih hrest
    | broke l | continued l => exact agrees_pure hflow
    | returned v l => exact agrees_pure trivial

theorem agrees_selectBranch {test test' : Expr → Run Bool} {otherwise : Option Statement}
    {branches : List (Expr × Statement)}
    (htest : ∀ b ∈ branches, (test b.1).Agrees I F anything (test' b.1)) :
    (selectBranch test otherwise branches).Agrees I F
      (fun selected => ∀ t ∈ selected, (∃ c, (c, t) ∈ branches) ∨ otherwise = some t)
      (selectBranch test' otherwise branches) := by
  induction branches with
  | nil => exact agrees_pure fun t ht => Or.inr ht
  | cons branch rest ih =>
    obtain ⟨hb, hrest⟩ := List.forall_mem_cons.1 htest
    refine hb.bind fun holds _ => ?_
    cases holds with
    | true =>
      refine agrees_pure fun t ht => Or.inl ⟨branch.1, ?_⟩
      cases ht
      exact List.mem_cons_self
    | false =>
      refine (ih hrest).mono (fun _ => id) fun selected h t ht => (h t ht).imp_left ?_
      exact fun ⟨c, hc⟩ => ⟨c, List.mem_cons_of_mem _ hc⟩

section Loops

variable {jumps : Statement → Prop} {test test' : Run Bool} {body body' : Run Flow}
  {step step' : Run Unit} {V : Flow → Prop}
  (htest : test.Agrees I F anything test') (hbody : body.Agrees I F V body')

include htest hbody

theorem agrees_whileLoop (hstep : step.Agrees I F anything step') (rounds : Nat) :
    (whileLoop test body step rounds).Agrees I F (Flow.Jumps jumps)
      (whileLoop test' body' step' rounds) := by
  induction rounds with
  | zero => exact agrees_unfinished
  | succ rounds ih =>
    refine htest.bind fun holds _ => ?_
    cases holds with
    | false => exact agrees_pure trivial
    | true =>
      refine hbody.bind fun flow _ => ?_
      cases hleft : flow.leavesLoop with
      | some left => exact agrees_pure (Flow.jumps_of_leavesLoop hleft)
      | none => exact hstep.bind fun _ _ => ih

theorem agrees_doWhile (rounds : Nat) :
    (doWhile body test rounds).Agrees I F (Flow.Jumps jumps) (doWhile body' test' rounds) := by
  induction rounds with
  | zero => exact agrees_unfinished
  | succ rounds ih =>
    refine hbody.bind fun flow _ => ?_
    cases hleft : flow.leavesLoop with
    | some left => exact agrees_pure (Flow.jumps_of_leavesLoop hleft)
    | none =>
      refine htest.bind fun holds _ => ?_
      cases holds with
      | false => exact agrees_pure trivial
      | true => exact ih

end Loops

end Run

end MiniC
