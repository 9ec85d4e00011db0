import MiniC.Proofs.Parse.Unplaced
import MiniC.Proofs.Scope.Unplaced

/-!
# Runs without positions

`Run.Unplaces f r r'` says that no decision of a run depends on positions: from a machine without
positions `r'` does what `r` does from the machine, and the outcome is that of `r` without
positions.  `f` forgets the positions of a value.  There is a rule for each combinator of runs.
-/

namespace MiniC

/-- A jump without positions. -/
def Flow.unplaced : Flow → Flow
  | .normal => .normal
  | .broke l => .broke l.unplaced
  | .continued l => .continued l.unplaced
  | .returned v l => .returned v.unplaced (l.map Lexeme.unplaced)

theorem Flow.leavesLoop_unplaced (flow : Flow) :
    flow.unplaced.leavesLoop = flow.leavesLoop.map Flow.unplaced := by
  cases flow <;> rfl

/-- A failure without the place of its lexeme. -/
def Failure.unplaced (f : Failure) : Failure := ⟨f.fault, f.lexeme.map Lexeme.unplaced⟩

theorem Failure.locate_unplaced (f : Failure) (l : Lexeme) :
    (f.locate l).unplaced = f.unplaced.locate l.unplaced := by
  obtain ⟨fault, lexeme⟩ := f
  cases lexeme <;> rfl

/-- A machine without positions.  The console stays as it is. -/
def Machine.unplaced (m : Machine) : Machine := ⟨m.scope.unplaced, m.console⟩

/-- An outcome without positions; `f` forgets those of a value. -/
def Outcome.unplaced {α β : Type} (f : α → β) : Outcome α → Outcome β
  | .done value m => .done (f value) m.unplaced
  | .failed failure m => .failed failure.unplaced m.unplaced
  | .unfinished => .unfinished

namespace Run

variable {α β γ δ : Type} {f : α → β} {g : γ → δ}

/-- Without positions the second run does what the first one does. -/
def Unplaces (f : α → β) (r : Run α) (r' : Run β) : Prop :=
  ∀ m, r' m.unplaced = (r m).unplaced f

/-! ## Single activities -/

theorem unplaces_pure {x : α} {x' : β} (h : x' = f x) : Unplaces f (pure x) (pure x') := by
  subst h
  exact fun _ => rfl

theorem unplaces_unfinished : Unplaces f unfinished unfinished := fun _ => rfl

theorem unplaces_fail (fault : Fault) : Unplaces f (fail fault) (fail fault) := fun _ => rfl

theorem unplaces_failAt (fault : Fault) (l : Lexeme) :
    Unplaces f (failAt fault l) (failAt fault l.unplaced) := fun _ => rfl

theorem unplaces_lift {e : Except Fault α} {e' : Except Fault β} (h : e' = e.map f) :
    Unplaces f (lift e) (lift e') := by
  subst h
  cases e <;> exact fun _ => rfl

theorem unplaces_lift_same {e e' : Except Fault α} (h : e' = e) :
    Unplaces id (lift e) (lift e') := by
  subst h
  cases e' <;> exact fun _ => rfl

theorem unplaces_lookup (name : String) :
    Unplaces Value.unplaced (lookup name) (lookup name) :=
  fun m => unplaces_lift (m.scope.lookup_unplaced name) m

theorem unplaces_changeScope {change change' : Scope → Except Fault Scope}
    (h : ∀ s : Scope, change' s.unplaced = (change s).map Scope.unplaced) :
    Unplaces id (changeScope change) (changeScope change') := by
  intro m
  unfold changeScope
  rw [show m.unplaced.scope = m.scope.unplaced from rfl, h]
  cases change m.scope <;> rfl

theorem unplaces_modifyScope {change change' : Scope → Scope}
    (h : ∀ s : Scope, (change s).unplaced = change' s.unplaced) :
    Unplaces id (modifyScope change) (modifyScope change') := by
  intro m
  unfold modifyScope
  rw [show m.unplaced.scope = m.scope.unplaced from rfl, ← h]
  rfl

theorem unplaces_read (reader : Source → Except Fault α × Source) :
    Unplaces id (read reader) (read reader) := by
  intro m
  show lift (reader m.console.input).1 _ = (lift (reader m.console.input).1 _).unplaced id
  cases (reader m.console.input).1 <;> rfl

theorem unplaces_writeLine (text : String) : Unplaces id (writeLine text) (writeLine text) := by
  intro m
  show lift (m.console.output.writeLine text).1 _ =
    (lift (m.console.output.writeLine text).1 _).unplaced id
  cases (m.console.output.writeLine text).1 <;> rfl

/-! ## Sequences -/

theorem Unplaces.bind {r : Run α} {r' : Run β} {next : α → Run γ} {next' : β → Run δ}
    (hr : Unplaces f r r') (hnext : ∀ x, Unplaces g (next x) (next' (f x))) :
    Unplaces g (r >>= next) (r' >>= next') := by
  intro m
  show Run.bind r' next' m.unplaced = (Run.bind r next m).unplaced g
  unfold Run.bind
  rw [hr m]
  cases r m with
  | done value n => exact hnext value n
  | failed failure n => rfl
  | unfinished => rfl

theorem Unplaces.locate {r : Run α} {r' : Run β} (hr : Unplaces f r r') (l : Lexeme) :
    Unplaces f (locate l r) (locate l.unplaced r') := by
  intro m
  unfold Run.locate
  rw [hr m]
  cases r m with
  | done value n => rfl
  | failed failure n =>
    exact congrArg (Outcome.failed · n.unplaced) (failure.locate_unplaced l).symm
  | unfinished => rfl

theorem Unplaces.afterwards {r : Run α} {r' : Run β} (hr : Unplaces f r r')
    {change : Scope → Scope} (h : ∀ s : Scope, (change s).unplaced = change s.unplaced) :
    Unplaces f (afterwards r change) (afterwards r' change) := by
  intro m
  unfold Run.afterwards
  rw [hr m]
  cases r m with
  | done value n =>
    exact congrArg (fun s => Outcome.done (f value) ⟨s, n.console⟩) (h n.scope).symm
  | failed failure n =>
    exact congrArg (fun s => Outcome.failed failure.unplaced ⟨s, n.console⟩) (h n.scope).symm
  | unfinished => rfl

theorem Unplaces.inFrame {r : Run α} {r' : Run β} (hr : Unplaces f r r') :
    Unplaces f (inFrame r) (inFrame r') :=
  fun m => hr.afterwards Scope.pop_unplaced { m with scope := m.scope.push }

theorem Unplaces.inCall {r : Run α} {r' : Run β} (hr : Unplaces f r r') :
    Unplaces f (inCall r) (inCall r') :=
  fun m => hr.afterwards Scope.exitCall_unplaced { m with scope := m.scope.enterCall }

theorem unplaces_each {h : α → β} {r : α → Run γ} {r' : β → Run δ}
    (hr : ∀ x, Unplaces g (r x) (r' (h x))) (xs : List α) :
    Unplaces (List.map g) (each r xs) (each r' (xs.map h)) := by
  induction xs with
  | nil => exact unplaces_pure rfl
  | cons x xs ih => exact (hr x).bind fun y => ih.bind fun ys => unplaces_pure rfl

section Statements

variable {exec exec' : Statement → Run Flow} {test test' : Expr → Run Bool}

theorem unplaces_inSequence
    (hexec : ∀ s : Statement, Unplaces Flow.unplaced (exec s) (exec' s.unplaced))
    (body : List Statement) :
    Unplaces Flow.unplaced (inSequence exec body)
      (inSequence exec' (Statement.unplacedAll body)) := by
  induction body with
  | nil => exact unplaces_pure rfl
  | cons s rest ih =>
    refine (hexec s).bind fun flow => ?_
    cases flow with
    | normal => exact ih
    | broke l | continued l | returned v l => exact unplaces_pure rfl

theorem unplaces_selectBranch
    (htest : ∀ e : Expr, Unplaces id (test e) (test' e.unplaced)) (otherwise : Option Statement)
    (branches : List (Expr × Statement)) :
    Unplaces (Option.map Statement.unplaced) (selectBranch test otherwise branches)
      (selectBranch test' (Statement.unplacedOtherwise otherwise)
        (Statement.unplacedBranches branches)) := by
  induction branches with
  | nil => exact unplaces_pure (by cases otherwise <;> rfl)
  | cons branch rest ih =>
    obtain ⟨c, s⟩ := branch
    refine (htest c).bind fun holds => ?_
    cases holds with
    | true => exact unplaces_pure rfl
    | false => exact ih

end Statements

section Loops

variable {test test' : Run Bool} {body body' : Run Flow} {step step' : Run Unit}
  (htest : Unplaces id test test') (hbody : Unplaces Flow.unplaced body body')

include htest hbody

theorem unplaces_whileLoop (hstep : Unplaces id step step') (rounds : Nat) :
    Unplaces Flow.unplaced (whileLoop test body step rounds)
      (whileLoop test' body' step' rounds) := by
  induction rounds with
  | zero => exact unplaces_unfinished
  | succ rounds ih =>
    refine htest.bind fun holds => ?_
    cases holds with
    | false => exact unplaces_pure rfl
    | true =>
      refine hbody.bind fun flow => ?_
      rw [flow.leavesLoop_unplaced]
      cases flow.leavesLoop with
      | some left => exact unplaces_pure rfl
      | none => exact hstep.bind fun _ => ih

theorem unplaces_doWhile (rounds : Nat) :
    Unplaces Flow.unplaced (doWhile body test rounds) (doWhile body' test' rounds) := by
  induction rounds with
  | zero => exact unplaces_unfinished
  | succ rounds ih =>
    refine hbody.bind fun flow => ?_
    rw [flow.leavesLoop_unplaced]
    cases flow.leavesLoop with
    | some left => exact unplaces_pure rfl
    | none =>
      refine htest.bind fun holds => ?_
      cases holds with
      | false => exact unplaces_pure rfl
      | true => exact ih

end Loops

theorem unplaces_resultOf (flow : Flow) :
    Unplaces Value.unplaced (resultOf flow) (resultOf flow.unplaced) := by
  cases flow with
  | normal => exact unplaces_pure rfl
  | broke l | continued l => exact unplaces_failAt _ l
  | returned v l => exact unplaces_pure rfl

theorem Unplaces.flushed {r : Run α} {r' : Run β} (hr : Unplaces f r r') :
    Unplaces f r.flushed r'.flushed := by
  intro m
  unfold Run.flushed
  rw [hr m]
  cases r m with
  | done value n =>
    dsimp only [Outcome.unplaced, Machine.unplaced]
    cases n.console.output.flush <;> rfl
  | failed failure n => rfl
  | unfinished => rfl

end Run

end MiniC
