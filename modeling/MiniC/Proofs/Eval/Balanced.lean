import MiniC.Proofs.Eval.WellFormed
import MiniC.Proofs.Scope.Balance
import MiniC.Proofs.Syntax.Scoped

/-!
# Running programs keep scopes balanced

Whatever is opened is closed again, and nothing else: however an expression, a call, a declaration
or a statement ends, all frames are there that were there before and no other, the same calls are
active, and only the innermost frame has a new name, that of a declaration that succeeded.  Main
statement: `evaluation_balanced`.
-/

namespace MiniC

/-- Whether a run ended with a value. -/
def Outcome.isDone : Outcome α → Bool
  | .done _ _ => true
  | .failed _ _ | .unfinished => false

/-- A name that is bound if a run succeeds. -/
def Outcome.added (o : Outcome α) (name : Option String) : Option String :=
  if o.isDone then name else none

@[simp] theorem Outcome.added_none (o : Outcome α) : o.added none = none := by
  unfold added
  split <;> rfl

variable {steps : Nat} {m n : Machine}

theorem Run.Keeps.balanced {r : Run α} (h : r.Keeps True) (hvalid : m.scope.Valid)
    (hn : (r m).machine? = some n) : m.scope.Balanced none n.scope :=
  (h m n hvalid hn).balanced

theorem evalCall_keeps (steps : Nat) (c : Call) :
    (evalCall (eval steps) (invoke steps) c).Keeps True :=
  Run.keeps_of_simulated fun _ =>
    Coupling.evalCall (evaluates_keptSince steps).eval (evaluates_keptSince steps).invoke
      coupling_keptSince c

/-- A statement that is no declaration declares nothing. -/
theorem exec_keeps_of_declared? {s : Statement} (hs : s.declared? = none) :
    (exec steps s).Keeps True := by
  refine Run.keeps_of_simulated fun _ => (evaluates_keptSince steps).exec s fun d hd => ?_
  rw [hd] at hs
  cases hs

theorem locate_isDone (r : Run α) (l : Lexeme) (m : Machine) :
    (Run.locate l r m).isDone = (r m).isDone := by
  unfold Run.locate
  cases r m <;> rfl

/-- Binding a name at the end of a run that declares nothing. -/
theorem declare_afterwards_balanced {r : Run Value} (hr : r.Keeps True) (name : String)
    (hvalid : m.scope.Valid) {o : Outcome Unit}
    (ho : (r >>= fun v => Run.changeScope (·.declare name v)) m = o)
    (hn : o.machine? = some n) : m.scope.Balanced (o.added (some name)) n.scope := by
  change Run.bind r _ m = o at ho
  unfold Run.bind at ho
  cases hv : r m with
  | unfinished =>
    rw [hv] at ho
    cases ho
    cases hn
  | failed f k =>
    rw [hv] at ho
    cases ho
    exact hr.balanced hvalid (by rw [hv]; exact hn)
  | done v k =>
    rw [hv] at ho
    have hk := hr m k hvalid (by rw [hv]; rfl)
    dsimp only [Run.changeScope] at ho
    split at ho
    · next scope hscope =>
      cases ho
      cases hn
      exact hk.balanced.after (Scope.declare_balanced (hk.valid hvalid) hscope)
    · cases ho
      cases hn
      exact hk.balanced

theorem execDeclaration_balanced (d : Declaration) (hvalid : m.scope.Valid)
    (hn : (execDeclaration (eval steps) d m).machine? = some n) :
    m.scope.Balanced ((execDeclaration (eval steps) d m).added (some d.target.name)) n.scope := by
  rw [execDeclaration_eq, Run.locate_machine?] at hn
  unfold Outcome.added
  rw [execDeclaration_eq, locate_isDone]
  exact declare_afterwards_balanced (declaredValue_keeps steps d) d.target.name hvalid rfl hn

theorem andPure_isDone (r : Run α) (b : β) (m : Machine) :
    ((r >>= fun _ => pure b) m).isDone = (r m).isDone := by
  show (Run.bind r _ m).isDone = _
  unfold Run.bind
  cases r m <;> rfl

theorem exec_balanced (s : Statement) (hvalid : m.scope.Valid)
    (hn : (exec steps s m).machine? = some n) :
    m.scope.Balanced ((exec steps s m).added s.declared?) n.scope := by
  cases hs : s.declared? with
  | none =>
    rw [Outcome.added_none]
    exact (exec_keeps_of_declared? hs).balanced hvalid hn
  | some name =>
    obtain ⟨d, rfl⟩ : ∃ d, s = .simple (.declaration d) := by
      unfold Statement.declared? at hs
      split at hs
      · exact ⟨_, rfl⟩
      · cases hs
    cases hs
    cases steps with
    | zero =>
      unfold exec at hn
      cases hn
    | succ steps =>
      rw [exec_declaration, Run.andPure_machine?] at hn
      unfold Outcome.added
      rw [exec_declaration, andPure_isDone]
      exact execDeclaration_balanced d hvalid hn

/-- Scopes are balanced on every exit path.  However an expression, a call, a declaration or a
statement ends, the depth and the bases of the calls are what they were and each frame binds the
names that it bound.  Only the innermost frame can have a new name, after a declaration that
succeeded, and then exactly the declared one. -/
theorem evaluation_balanced (hvalid : m.scope.Valid) (steps : Nat) :
    (∀ e n, (eval steps e m).machine? = some n → m.scope.Balanced none n.scope) ∧
    (∀ c n, (evalCall (eval steps) (invoke steps) c m).machine? = some n →
      m.scope.Balanced none n.scope) ∧
    (∀ d n, (execDeclaration (eval steps) d m).machine? = some n →
      m.scope.Balanced ((execDeclaration (eval steps) d m).added (some d.target.name)) n.scope) ∧
    ∀ s n, (exec steps s m).machine? = some n →
      m.scope.Balanced ((exec steps s m).added s.declared?) n.scope := by
  refine ⟨fun e n hn => ?_, fun c n hn => ?_, fun d n hn => ?_, fun s n hn => ?_⟩
  · exact (eval_keeps steps e).balanced hvalid hn
  · exact (evalCall_keeps steps c).balanced hvalid hn
  · exact execDeclaration_balanced d hvalid hn
  · exact exec_balanced s hvalid hn

/-- Within a call and a block of it: a loop that is left by `break` out of a nested block that has
declared a name, and a declaration that fails because its name is bound. -/
theorem block_balanced :
    let l := Lexeme.absent
    let console : Console := ⟨⟨[]⟩, .unlimited⟩
    let m : Machine := ⟨⟨.empty, [⟨[("x", .int 1)]⟩, .empty], [[]]⟩, console⟩
    let declare : Statement := .simple (.declaration ⟨.int, ⟨"x", [], l⟩, none⟩)
    let loop : Statement :=
      .whileLoop (.literal (.int 1) l) (.block [declare, .block [.breakLoop l] l] l) l
    m.scope.Valid ∧
      (∃ n, exec 5 loop m = .done .normal n ∧ m.scope.Balanced none n.scope) ∧
      ∃ f n, exec 5 declare m = .failed f n ∧ m.scope.Balanced none n.scope := by
  intro l console m declare loop
  have hvalid : m.scope.Valid := ⟨List.cons_ne_nil _ _, trivial⟩
  obtain ⟨-, -, -, hexec⟩ := evaluation_balanced hvalid 5
  exact ⟨hvalid, ⟨_, rfl, hexec loop _ rfl⟩, _, _, rfl, hexec declare _ rfl⟩

end MiniC
