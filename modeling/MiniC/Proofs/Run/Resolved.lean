import MiniC.Eval.Statement
import MiniC.Proofs.Value.Resolved

/-!
# Runs that find their names

`r.Resolves P Q` is a triple: from a scope that `P` holds of, `r` does not fail for a name, and if
it ends with a value, `Q` holds of that and of the scope that is left.  A run that fails for another
reason leaves the scope unspecified.  There is a rule for each combinator of runs; the rules for
frames and calls are left to the assertions about scopes.
-/

namespace MiniC

/-- What holds of an outcome that does not fail for a name. -/
inductive Outcome.Resolved {α : Type} (Q : α → Scope → Prop) : Outcome α → Prop
  | done {value : α} {m : Machine} (h : Q value m.scope) : Resolved Q (.done value m)
  | failed {f : Failure} {m : Machine} (h : f.fault.kind.isNaming = false) :
      Resolved Q (.failed f m)
  | unfinished : Resolved Q .unfinished

/-- From a scope with the first property a run resolves its names, and it ends with the second
one. -/
def Run.Resolves {α : Type} (P : Scope → Prop) (r : Run α) (Q : α → Scope → Prop) : Prop :=
  ∀ m : Machine, P m.scope → (r m).Resolved Q

theorem Outcome.Resolved.mono {α : Type} {Q R : α → Scope → Prop} {o : Outcome α}
    (h : o.Resolved Q) (hR : ∀ value m, o = .done value m → Q value m.scope → R value m.scope) :
    o.Resolved R := by
  cases h with
  | done h => exact .done (hR _ _ rfl h)
  | failed h => exact .failed h
  | unfinished => exact .unfinished

namespace Run

variable {α β : Type} {P P' : Scope → Prop} {Q R : α → Scope → Prop}

/-! ## Consequences -/

theorem Resolves.pre {r : Run α} (h : r.Resolves P Q) (hP : ∀ s, P' s → P s) :
    r.Resolves P' Q :=
  fun m hm => h m (hP m.scope hm)

/-- What is known of the runs that end with a value besides. -/
theorem Resolves.post {r : Run α} (h : r.Resolves P Q)
    (hR : ∀ value m n, P m.scope → r m = .done value n → Q value n.scope → R value n.scope) :
    r.Resolves P R :=
  fun m hm => (h m hm).mono fun value n => hR value m n hm

theorem Resolves.mono {r : Run α} (h : r.Resolves P Q) (hR : ∀ value s, Q value s → R value s) :
    r.Resolves P R :=
  h.post fun value _ n _ _ => hR value n.scope

/-- The precondition can be used to choose the proof. -/
theorem resolves_of_pre {r : Run α} (h : ∀ s, P s → r.Resolves P Q) : r.Resolves P Q :=
  fun m hm => h m.scope hm m hm

/-! ## Single activities -/

theorem resolves_pure {value : α} (h : ∀ s, P s → Q value s) : (pure value : Run α).Resolves P Q :=
  fun m hm => .done (h m.scope hm)

theorem resolves_unfinished : (unfinished : Run α).Resolves P Q := fun _ _ => .unfinished

theorem resolves_fail {fault : Fault} (h : fault.kind.isNaming = false) :
    (fail fault : Run α).Resolves P Q :=
  fun _ _ => .failed h

theorem resolves_failAt {fault : Fault} (h : fault.kind.isNaming = false) (l : Lexeme) :
    (failAt fault l : Run α).Resolves P Q :=
  fun _ _ => .failed h

theorem resolves_lift_ok {e : Except Fault α} (h : Resolved e) :
    (lift e).Resolves P fun value s => P s ∧ e = .ok value := by
  intro m hm
  cases h with
  | ok value => exact .done ⟨hm, rfl⟩
  | error h => exact .failed (FaultKind.not_isNaming h)

theorem resolves_lift {e : Except Fault α} (h : Resolved e) : (lift e).Resolves P fun _ => P :=
  (resolves_lift_ok h).mono fun _ _ => And.left

theorem resolves_lookup {name : String} (h : ∀ s, P s → ∃ v, s.find? name = some v) :
    (lookup name).Resolves P fun v s => P s ∧ s.find? name = some v := by
  intro m hm
  obtain ⟨v, hv⟩ := h m.scope hm
  unfold lookup Scope.lookup
  rw [hv]
  exact .done ⟨hm, hv⟩

theorem resolves_changeScope {change : Scope → Except Fault Scope} {Q : Unit → Scope → Prop}
    (h : ∀ s, P s → ∃ t, change s = .ok t ∧ Q () t) : (changeScope change).Resolves P Q := by
  intro m hm
  obtain ⟨t, ht, hQ⟩ := h m.scope hm
  unfold changeScope
  rw [ht]
  exact .done hQ

theorem resolves_read {reader : Source → Except Fault α × Source}
    (h : ∀ input, Resolved (reader input).1) : (read reader).Resolves P fun _ => P :=
  fun m hm => resolves_lift (h m.console.input) _ hm

theorem resolves_writeLine (text : String) : (writeLine text).Resolves P fun _ => P :=
  fun m hm => resolves_lift (m.console.output.resolved_writeLine text) _ hm

theorem resolves_resultOf (flow : Flow) : (resultOf flow).Resolves P fun _ => P := by
  cases flow with
  | normal => exact resolves_pure fun _ => id
  | broke l | continued l => exact resolves_failAt rfl l
  | returned v l => exact resolves_pure fun _ => id

/-! ## Sequences -/

theorem Resolves.bind {r : Run α} {next : α → Run β} {R : β → Scope → Prop}
    (h : r.Resolves P Q) (hnext : ∀ value, (next value).Resolves (Q value) R) :
    (r >>= next).Resolves P R := by
  intro m hm
  have hr := h m hm
  show (Run.bind r next m).Resolved R
  unfold Run.bind
  generalize r m = o at hr
  cases hr with
  | done h => exact hnext _ _ h
  | failed h => exact .failed h
  | unfinished => exact .unfinished

theorem Resolves.locate {r : Run α} (h : r.Resolves P Q) (l : Lexeme) :
    (locate l r).Resolves P Q := by
  intro m hm
  have hr := h m hm
  unfold Run.locate
  generalize r m = o at hr
  cases hr with
  | done h => exact .done h
  | failed h => exact .failed h
  | unfinished => exact .unfinished

/-- A change of the scope at the end, which says nothing about what the scope is then. -/
theorem Resolves.afterwards {r : Run α} (h : r.Resolves P Q) (change : Scope → Scope) :
    (afterwards r change).Resolves P fun _ _ => True := by
  intro m hm
  have hr := h m hm
  unfold Run.afterwards
  generalize r m = o at hr
  cases hr with
  | done h => exact .done trivial
  | failed h => exact .failed h
  | unfinished => exact .unfinished

theorem resolves_each {f : α → Run β} {xs : List α}
    (h : ∀ x ∈ xs, (f x).Resolves P fun _ => P) : (each f xs).Resolves P fun _ => P := by
  induction xs with
  | nil => exact resolves_pure fun _ => id
  | cons x xs ih =>
    obtain ⟨hx, hxs⟩ := List.forall_mem_cons.1 h
    exact hx.bind fun _ => (ih hxs).bind fun _ => resolves_pure fun _ => id

theorem resolves_selectBranch {test : Expr → Run Bool} {otherwise : Option Statement}
    {branches : List (Expr × Statement)}
    (h : ∀ b ∈ branches, (test b.1).Resolves P fun _ => P) :
    (selectBranch test otherwise branches).Resolves P fun selected s =>
      P s ∧ ∀ t ∈ selected, (∃ b ∈ branches, b.2 = t) ∨ t ∈ otherwise := by
  induction branches with
  | nil => exact resolves_pure fun s hs => ⟨hs, fun t ht => Or.inr ht⟩
  | cons branch rest ih =>
    obtain ⟨c, s⟩ := branch
    obtain ⟨hc, hrest⟩ := List.forall_mem_cons.1 h
    refine Resolves.bind hc fun holds => ?_
    cases holds with
    | true =>
      refine resolves_pure fun _ hs => ⟨hs, fun t ht => Or.inl ?_⟩
      exact ⟨(c, s), List.mem_cons_self, Option.some.inj ht⟩
    | false =>
      refine (ih hrest).mono fun selected _ hs => ⟨hs.1, fun t ht => (hs.2 t ht).imp_left ?_⟩
      exact fun ⟨b, hb, hbt⟩ => ⟨b, List.mem_cons_of_mem _ hb, hbt⟩

/-! ## Loops

`P` is the invariant. -/

theorem Resolves.whileLoop {test : Run Bool} {body : Run Flow} {step : Run Unit}
    (htest : test.Resolves P fun _ => P) (hbody : body.Resolves P fun _ => P)
    (hstep : step.Resolves P fun _ => P) (rounds : Nat) :
    (whileLoop test body step rounds).Resolves P fun _ => P := by
  induction rounds with
  | zero => exact resolves_unfinished
  | succ rounds ih =>
    refine htest.bind fun holds => ?_
    cases holds with
    | false => exact resolves_pure fun _ => id
    | true =>
      refine hbody.bind fun flow => ?_
      cases flow.leavesLoop with
      | some left => exact resolves_pure fun _ => id
      | none => exact hstep.bind fun _ => ih

theorem Resolves.doWhile {test : Run Bool} {body : Run Flow}
    (hbody : body.Resolves P fun _ => P) (htest : test.Resolves P fun _ => P) (rounds : Nat) :
    (doWhile body test rounds).Resolves P fun _ => P := by
  induction rounds with
  | zero => exact resolves_unfinished
  | succ rounds ih =>
    refine hbody.bind fun flow => ?_
    cases flow.leavesLoop with
    | some left => exact resolves_pure fun _ => id
    | none =>
      refine htest.bind fun holds => ?_
      cases holds with
      | false => exact resolves_pure fun _ => id
      | true => exact ih

end Run

end MiniC
