import MiniC.Eval.Statement

/-!
# Runs side by side

`Run.Simulated R r r'` says that `r'` does what `r` does: from machines that `R` relates, whenever
`r` ends, `r'` ends with the same value or the same failure, and `R` relates the machines that they
leave.  A run that is out of steps is simulated by every run, so that a run can be compared with
the same run under more steps.  The combinators of runs, up to the loops, keep the relation; what a
relation has to satisfy for the primitive activities is left to `Coupling`.
-/

namespace MiniC

/-- The machine that a run leaves, if it ends. -/
def Outcome.machine? : Outcome α → Option Machine
  | .done _ m | .failed _ m => some m
  | .unfinished => none

/-- The second outcome is the first one up to `R`, unless the first is out of steps. -/
inductive Outcome.Simulated (R : Machine → Machine → Prop) : Outcome α → Outcome α → Prop
  | done (value : α) {m m' : Machine} (h : R m m') : Simulated R (.done value m) (.done value m')
  | failed (f : Failure) {m m' : Machine} (h : R m m') : Simulated R (.failed f m) (.failed f m')
  | unfinished (o : Outcome α) : Simulated R .unfinished o

/-- The second outcome is the first one up to `R`; both are out of steps or neither is. -/
inductive Outcome.Alike (R : Machine → Machine → Prop) : Outcome α → Outcome α → Prop
  | done (value : α) {m m' : Machine} (h : R m m') : Alike R (.done value m) (.done value m')
  | failed (f : Failure) {m m' : Machine} (h : R m m') : Alike R (.failed f m) (.failed f m')
  | unfinished : Alike R .unfinished .unfinished

/-- From machines that `R` relates the second run does what the first one does. -/
def Run.Simulated (R : Machine → Machine → Prop) (r r' : Run α) : Prop :=
  ∀ ⦃m m'⦄, R m m' → Outcome.Simulated R (r m) (r' m')

/-- Fewer pairs are related by `S` than by `R`. -/
theorem Outcome.Simulated.mono {R S : Machine → Machine → Prop} {o o' : Outcome α}
    (hRS : ∀ m m', R m m' → S m m') (h : Outcome.Simulated R o o') :
    Outcome.Simulated S o o' := by
  cases h with
  | done value h => exact .done value (hRS _ _ h)
  | failed f h => exact .failed f (hRS _ _ h)
  | unfinished _ => exact .unfinished _

/-- What simulates an outcome that is not out of steps is not out of steps either. -/
theorem Outcome.Simulated.ends {R : Machine → Machine → Prop} {o o' : Outcome α}
    (h : Outcome.Simulated R o o') (hends : o ≠ .unfinished) : o' ≠ .unfinished := by
  cases h with
  | done value h => simp
  | failed f h => simp
  | unfinished o => exact absurd rfl hends

/-- Outcomes that simulate each other are alike. -/
theorem Outcome.Simulated.alike {R S : Machine → Machine → Prop} {o o' : Outcome α}
    (h : Outcome.Simulated R o o') (h' : Outcome.Simulated S o' o) : Outcome.Alike R o o' := by
  cases h with
  | done value h => exact .done value h
  | failed f h => exact .failed f h
  | unfinished _ =>
    cases h'
    exact .unfinished

namespace Run

variable {α β : Type} {R : Machine → Machine → Prop}

/-! ## Activities that leave the machine alone -/

theorem simulated_pure (value : α) : Simulated R (pure value) (pure value) :=
  fun _ _ h => .done value h

theorem simulated_unfinished (r : Run α) : Simulated R unfinished r :=
  fun _ m' _ => .unfinished (r m')

theorem simulated_fail (fault : Fault) : Simulated R (fail fault : Run α) (fail fault) :=
  fun _ _ h => .failed _ h

theorem simulated_failAt (fault : Fault) (l : Lexeme) :
    Simulated R (failAt fault l : Run α) (failAt fault l) :=
  fun _ _ h => .failed _ h

theorem simulated_lift (e : Except Fault α) : Simulated R (lift e) (lift e) := by
  intro m m' h
  cases e with
  | ok value => exact .done value h
  | error fault => exact .failed _ h

theorem simulated_resultOf (flow : Flow) : Simulated R (resultOf flow) (resultOf flow) := by
  cases flow with
  | normal => exact simulated_pure Value.void
  | broke l | continued l => exact simulated_failAt _ _
  | returned v l => exact simulated_pure v

/-! ## Changes of the scope -/

/-- A change of the scope that both runs refuse, or that leads to related machines. -/
theorem simulated_changeScope {change : Scope → Except Fault Scope}
    (h : ∀ ⦃m m'⦄, R m m' →
      (∃ fault, change m.scope = .error fault ∧ change m'.scope = .error fault) ∨
      ∃ s t, change m.scope = .ok s ∧ change m'.scope = .ok t ∧
        R { m with scope := s } { m' with scope := t }) :
    Simulated R (changeScope change) (changeScope change) := by
  intro m m' hm
  unfold changeScope
  rcases h hm with ⟨fault, hs, ht⟩ | ⟨s, t, hs, ht, hst⟩
  · rw [hs, ht]
    exact .failed _ hm
  · rw [hs, ht]
    exact .done () hst

/-- Changes of the scopes at the end lead from one relation to another. -/
theorem simulated_afterwards {S : Machine → Machine → Prop}
    {change change' : Scope → Scope} {r r' : Run α} (h : Simulated R r r') {m m' : Machine}
    (hm : R m m')
    (hchange : ∀ {n n'}, R n n' →
      S { n with scope := change n.scope } { n' with scope := change' n'.scope }) :
    Outcome.Simulated S (r.afterwards change m) (r'.afterwards change' m') := by
  have hr := h hm
  unfold Run.afterwards
  generalize r m = o at hr
  generalize r' m' = o' at hr
  cases hr with
  | done value h => exact .done value (hchange h)
  | failed f h => exact .failed f (hchange h)
  | unfinished o => exact .unfinished _

/-! ## Sequences -/

/-- From two outcomes on, the rest of two runs. -/
theorem simulated_bind {r r' : Run α} {next next' : α → Run β} {m m' : Machine}
    (h : Outcome.Simulated R (r m) (r' m'))
    (hnext : ∀ value, Simulated R (next value) (next' value)) :
    Outcome.Simulated R ((r >>= next) m) ((r' >>= next') m') := by
  show Outcome.Simulated R (Run.bind r next m) (Run.bind r' next' m')
  unfold Run.bind
  generalize r m = o at h
  generalize r' m' = o' at h
  cases h with
  | done value h => exact hnext value h
  | failed f h => exact .failed f h
  | unfinished o => exact .unfinished _

theorem Simulated.bind {r r' : Run α} {next next' : α → Run β} (h : Simulated R r r')
    (hnext : ∀ value, Simulated R (next value) (next' value)) :
    Simulated R (r >>= next) (r' >>= next') :=
  fun _ _ hm => simulated_bind (h hm) hnext

theorem Simulated.locate {r r' : Run α} (h : Simulated R r r') (l : Lexeme) :
    Simulated R (locate l r) (locate l r') := by
  intro m m' hm
  have hr := h hm
  unfold Run.locate
  generalize r m = o at hr
  generalize r' m' = o' at hr
  cases hr with
  | done value h => exact .done value h
  | failed f h => exact .failed _ h
  | unfinished o => exact .unfinished _

theorem Simulated.each {f f' : α → Run β} (h : ∀ x, Simulated R (f x) (f' x)) (xs : List α) :
    Simulated R (each f xs) (each f' xs) := by
  induction xs with
  | nil => exact simulated_pure []
  | cons x xs ih =>
    exact (h x).bind fun y => ih.bind fun ys => simulated_pure (y :: ys)

theorem Simulated.inSequence {exec exec' : Statement → Run Flow}
    (h : ∀ s, Simulated R (exec s) (exec' s)) (body : List Statement) :
    Simulated R (inSequence exec body) (inSequence exec' body) := by
  induction body with
  | nil => exact simulated_pure Flow.normal
  | cons s rest ih =>
    refine (h s).bind fun flow => ?_
    cases flow with
    | normal => exact ih
    | broke l => exact simulated_pure (Flow.broke l)
    | continued l => exact simulated_pure (Flow.continued l)
    | returned value l => exact simulated_pure (Flow.returned value l)

theorem Simulated.selectBranch {test test' : Expr → Run Bool}
    (h : ∀ e, Simulated R (test e) (test' e)) (otherwise : Option Statement)
    (branches : List (Expr × Statement)) :
    Simulated R (selectBranch test otherwise branches) (selectBranch test' otherwise branches) := by
  induction branches with
  | nil => exact simulated_pure otherwise
  | cons branch rest ih =>
    obtain ⟨c, s⟩ := branch
    refine (h c).bind fun holds => ?_
    cases holds with
    | true => exact simulated_pure (some s)
    | false => exact ih

/-! ## Loops

The second loop is granted at least as many rounds as the first. -/

theorem Simulated.whileLoop {test test' : Run Bool} {body body' : Run Flow} {step step' : Run Unit}
    (htest : Simulated R test test') (hbody : Simulated R body body')
    (hstep : Simulated R step step') {rounds rounds' : Nat} (hle : rounds ≤ rounds') :
    Simulated R (whileLoop test body step rounds) (whileLoop test' body' step' rounds') := by
  induction rounds generalizing rounds' with
  | zero => exact simulated_unfinished _
  | succ rounds ih =>
    obtain ⟨rounds', rfl⟩ := Nat.exists_eq_add_one_of_ne_zero (Nat.ne_zero_of_lt hle)
    have hrest := ih (Nat.le_of_succ_le_succ hle)
    refine htest.bind fun holds => ?_
    cases holds with
    | false => exact simulated_pure Flow.normal
    | true =>
      refine hbody.bind fun flow => ?_
      cases flow.leavesLoop with
      | some left => exact simulated_pure left
      | none => exact hstep.bind fun _ => hrest

theorem Simulated.doWhile {test test' : Run Bool} {body body' : Run Flow}
    (hbody : Simulated R body body') (htest : Simulated R test test') {rounds rounds' : Nat}
    (hle : rounds ≤ rounds') :
    Simulated R (doWhile body test rounds) (doWhile body' test' rounds') := by
  induction rounds generalizing rounds' with
  | zero => exact simulated_unfinished _
  | succ rounds ih =>
    obtain ⟨rounds', rfl⟩ := Nat.exists_eq_add_one_of_ne_zero (Nat.ne_zero_of_lt hle)
    have hrest := ih (Nat.le_of_succ_le_succ hle)
    refine hbody.bind fun flow => ?_
    cases flow.leavesLoop with
    | some left => exact simulated_pure left
    | none =>
      refine htest.bind fun holds => ?_
      cases holds with
      | false => exact simulated_pure Flow.normal
      | true => exact hrest

end Run

end MiniC
