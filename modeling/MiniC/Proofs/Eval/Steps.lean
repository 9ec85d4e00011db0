import MiniC.Eval.Program
import MiniC.Proofs.Eval.Coupling
import MiniC.Proofs.Run.Done

/-!
# More steps

A run that ends under some number of steps ends in the same way under every larger number
(`eval_of_le`, `exec_of_le`, `invoke_of_le`, `grows_declareItems`): the steps granted bound a run
and decide nothing.  `Run.Ends` is what a run comes to with steps enough; there is at most one such
outcome.  `Run.Gives` is how it succeeds with steps enough; a sequence succeeds if its parts do, each
with steps enough of its own (`gives_bind`).
-/

namespace MiniC

/-- Equality is a coupling. -/
theorem coupling_eq : Coupling (fun _ : Unit => True) (fun _ m m' => m = m') where
  find h name := by rw [h]
  console h := by rw [h]
  withConsole h console := by rw [h]
  store h := by intros; rw [h]
  declare _ name v := by
    rintro m _ rfl
    unfold Run.changeScope
    dsimp only
    split
    · exact .done () rfl
    · exact .failed _ rfl
  frame h := ⟨(), trivial, by rw [h], fun h => by rw [h]⟩
  call h := ⟨(), trivial, by rw [h], fun h => by rw [h]⟩

namespace Run

variable {α β : Type} {r : Nat → Run α} {m n : Machine}

/-- More steps do not change how a run ends. -/
def Grows (r : Nat → Run α) : Prop :=
  ∀ steps steps', steps ≤ steps' → Simulated Eq (r steps) (r steps')

/-- What a run comes to when it is granted steps enough. -/
def Ends (r : Nat → Run α) (m : Machine) (o : Outcome α) : Prop :=
  o ≠ .unfinished ∧ ∃ steps, r steps m = o

theorem simulated_refl (r : Run α) : Simulated Eq r r := by
  rintro m _ rfl
  cases r m with
  | done value n => exact .done value rfl
  | failed f n => exact .failed f rfl
  | unfinished => exact .unfinished _

/-- An outcome that is simulated up to equality is the same outcome. -/
theorem eq_of_simulated {o o' : Outcome α} (h : Outcome.Simulated Eq o o')
    (hends : o ≠ .unfinished) : o' = o := by
  cases h with
  | done value h => rw [h]
  | failed f h => rw [h]
  | unfinished o => exact absurd rfl hends

theorem grows_const (r : Run α) : Grows fun _ => r := fun _ _ _ => simulated_refl r

theorem Grows.bind (hr : Grows r) {next : α → Nat → Run β} (hnext : ∀ value, Grows (next value)) :
    Grows fun steps => r steps >>= fun value => next value steps := by
  intro steps steps' hle
  exact (hr steps steps' hle).bind fun value => hnext value steps steps' hle

theorem Grows.eq_of_le (hr : Grows r) {steps steps' : Nat} (hle : steps ≤ steps')
    (hends : r steps m ≠ .unfinished) : r steps' m = r steps m :=
  eq_of_simulated (hr steps steps' hle rfl) hends

/-- A run that more steps do not change comes to one outcome at most. -/
theorem Ends.unique (hr : Grows r) {o o' : Outcome α} (h : Ends r m o) (h' : Ends r m o') :
    o = o' := by
  obtain ⟨hends, steps, rfl⟩ := h
  obtain ⟨hends', steps', rfl⟩ := h'
  rcases Nat.le_total steps steps' with hle | hle
  · exact (hr.eq_of_le hle hends).symm
  · exact hr.eq_of_le hle hends'

end Run

/-! ## The evaluator -/

theorem grows_eval (e : Expr) : Run.Grows (eval · e) :=
  fun _ _ hle => (coupling_eq.evaluates hle).eval (w := ()) e

theorem grows_exec (s : Statement) : Run.Grows (exec · s) :=
  fun _ _ hle => (coupling_eq.evaluates hle).exec (w := ()) s fun _ _ => trivial

theorem grows_invoke (f : FunctionDecl) (arguments : List Value) :
    Run.Grows (invoke · f arguments) :=
  fun _ _ hle => (coupling_eq.evaluates hle).invoke (w := ()) f arguments

theorem grows_each_index (indices : List (Option Expr)) :
    Run.Grows fun steps => Run.each (evalIndex (eval steps)) indices := by
  intro steps steps' hle
  have heval := (coupling_eq.evaluates hle).eval (w := ())
  exact Run.Simulated.each (Coupling.index (R := fun _ : Unit => Eq) (w := ()) heval) indices

theorem grows_declareItems (items : List Item) : Run.Grows (declareItems · items) := by
  intro steps steps' hle
  have heval := (coupling_eq.evaluates hle).eval (w := ())
  induction items with
  | nil => exact Run.simulated_pure ()
  | cons i rest ih =>
    refine Run.Simulated.bind ?_ fun _ => ih
    cases i with
    | function f => exact Run.simulated_refl (declareFunction f)
    | global d => exact Coupling.declaration (w := ()) heval coupling_eq trivial d

variable {steps steps' : Nat}

theorem eval_of_le (hle : steps ≤ steps') (e : Expr) (m : Machine)
    (hends : eval steps e m ≠ .unfinished) : eval steps' e m = eval steps e m :=
  (grows_eval e).eq_of_le hle hends

theorem exec_of_le (hle : steps ≤ steps') (s : Statement) (m : Machine)
    (hends : exec steps s m ≠ .unfinished) : exec steps' s m = exec steps s m :=
  (grows_exec s).eq_of_le hle hends

theorem invoke_of_le (hle : steps ≤ steps') (f : FunctionDecl) (arguments : List Value)
    (m : Machine) (hends : invoke steps f arguments m ≠ .unfinished) :
    invoke steps' f arguments m = invoke steps f arguments m :=
  (grows_invoke f arguments).eq_of_le hle hends

/-- Items are declared with at most one outcome. -/
theorem declareItems_unique {items : List Item} {m : Machine}
    (h : declareItems steps items m ≠ .unfinished)
    (h' : declareItems steps' items m ≠ .unfinished) :
    declareItems steps items m = declareItems steps' items m :=
  Run.Ends.unique (grows_declareItems items) ⟨h, steps, rfl⟩ ⟨h', steps', rfl⟩

/-! ## Success with steps enough -/

namespace Run

variable {α β : Type} {r : Nat → Run α} {m n : Machine}

/-- With steps enough a run succeeds. -/
def Gives (r : Nat → Run α) (m : Machine) (value : α) (n : Machine) : Prop :=
  ∃ steps, r steps m = .done value n

theorem Grows.done (hr : Grows r) {steps steps' : Nat} (hle : steps ≤ steps') {value : α}
    (h : r steps m = .done value n) : r steps' m = .done value n := by
  have hends : r steps m ≠ .unfinished := by simp [h]
  rw [hr.eq_of_le hle hends, h]

theorem Gives.ends {value : α} (h : Gives r m value n) : Ends r m (.done value n) := by
  obtain ⟨steps, hsteps⟩ := h
  exact ⟨by simp, steps, hsteps⟩

/-- There is one way to succeed at most. -/
theorem Gives.unique (hr : Grows r) {n' : Machine} {value value' : α} (h : Gives r m value n)
    (h' : Gives r m value' n') : value = value' ∧ n = n' := by
  have hsame := Ends.unique hr h.ends h'.ends
  cases hsame
  exact ⟨rfl, rfl⟩

theorem gives_locate {l : Lexeme} {value : α} :
    Gives (fun steps => locate l (r steps)) m value n ↔ Gives r m value n := by
  constructor
  · rintro ⟨steps, h⟩
    exact ⟨steps, locate_done h⟩
  · rintro ⟨steps, h⟩
    exact ⟨steps, locate_of_done h l⟩

/-- What comes behind needs no steps. -/
theorem gives_bind_const {next : α → Run β} {b : β} :
    Gives (fun steps => r steps >>= next) m b n ↔
      ∃ value k, Gives r m value k ∧ next value k = .done b n := by
  constructor
  · rintro ⟨steps, h⟩
    obtain ⟨value, k, hvalue, hnext⟩ := bind_done h
    exact ⟨value, k, ⟨steps, hvalue⟩, hnext⟩
  · rintro ⟨value, k, ⟨steps, hvalue⟩, hnext⟩
    exact ⟨steps, (bind_of_done hvalue next).trans hnext⟩

/-- The parts of a sequence can be granted the same steps: the larger number of both. -/
theorem gives_bind (hr : Grows r) {next : α → Nat → Run β} (hnext : ∀ value, Grows (next value))
    {b : β} :
    Gives (fun steps => r steps >>= fun value => next value steps) m b n ↔
      ∃ value k, Gives r m value k ∧ Gives (next value) k b n := by
  constructor
  · rintro ⟨steps, h⟩
    obtain ⟨value, k, hvalue, h⟩ := bind_done h
    exact ⟨value, k, ⟨steps, hvalue⟩, steps, h⟩
  · rintro ⟨value, k, ⟨steps, hvalue⟩, steps', h⟩
    have hfirst := hr.done (Nat.le_max_left steps steps') hvalue
    have hsecond := (hnext value).done (Nat.le_max_right steps steps') h
    exact ⟨max steps steps', (bind_of_done hfirst _).trans hsecond⟩

/-- A run without steps does not end, so it succeeds under a next number of steps. -/
theorem gives_succ {r' : Nat → Run α} (hzero : r 0 = unfinished)
    (hsucc : ∀ steps, r (steps + 1) = r' steps) {value : α} :
    Gives r m value n ↔ Gives r' m value n := by
  constructor
  · rintro ⟨steps, h⟩
    cases steps with
    | zero =>
      rw [hzero] at h
      cases h
    | succ steps =>
      rw [hsucc] at h
      exact ⟨steps, h⟩
  · rintro ⟨steps, h⟩
    refine ⟨steps + 1, ?_⟩
    rw [hsucc]
    exact h

end Run

end MiniC
