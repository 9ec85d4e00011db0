import Mathlib.Data.List.Forall2
import MiniC.Proofs.Run.Simulated

/-!
# Parts of runs

What the parts of a run did, read off from the result of the whole (`bind_done` and others), and
which machine a run leaves, whether it succeeds or fails (`bind_machine?` and others).
-/

namespace MiniC.Run

variable {α β : Type} {m n : Machine}

theorem bind_done {r : Run α} {next : α → Run β} {b : β} (h : (r >>= next) m = .done b n) :
    ∃ a k, r m = .done a k ∧ next a k = .done b n := by
  change Run.bind r next m = .done b n at h
  unfold Run.bind at h
  cases hr : r m with
  | done a k => rw [hr] at h; exact ⟨a, k, rfl, h⟩
  | failed f k => rw [hr] at h; cases h
  | unfinished => rw [hr] at h; cases h

theorem bind_failed {r : Run α} {next : α → Run β} {f : Failure}
    (h : (r >>= next) m = .failed f n) :
    r m = .failed f n ∨ ∃ a k, r m = .done a k ∧ next a k = .failed f n := by
  change Run.bind r next m = .failed f n at h
  unfold Run.bind at h
  cases hr : r m with
  | done a k => rw [hr] at h; exact Or.inr ⟨a, k, rfl, h⟩
  | failed g k => rw [hr] at h; cases h; exact Or.inl rfl
  | unfinished => rw [hr] at h; cases h

theorem bind_of_done {r : Run α} {a : α} {k : Machine} (h : r m = .done a k)
    (next : α → Run β) : (r >>= next) m = next a k := by
  show Run.bind r next m = next a k
  unfold Run.bind
  rw [h]

theorem bind_of_failed {r : Run α} {f : Failure} {k : Machine} (h : r m = .failed f k)
    (next : α → Run β) : (r >>= next) m = .failed f k := by
  show Run.bind r next m = .failed f k
  unfold Run.bind
  rw [h]

theorem locate_of_done {r : Run α} {a : α} {k : Machine} (h : r m = .done a k) (l : Lexeme) :
    Run.locate l r m = .done a k := by
  unfold Run.locate
  rw [h]

theorem locate_of_failed {r : Run α} {f : Failure} {k : Machine} (h : r m = .failed f k)
    (l : Lexeme) : Run.locate l r m = .failed (f.locate l) k := by
  unfold Run.locate
  rw [h]

theorem pure_done {a b : α} (h : (pure a : Run α) m = .done b n) : a = b ∧ m = n := by
  cases h
  exact ⟨rfl, rfl⟩

theorem lift_done {e : Except Fault α} {a : α} (h : Run.lift e m = .done a n) :
    e = .ok a ∧ m = n := by
  cases e with
  | ok b => cases h; exact ⟨rfl, rfl⟩
  | error fault => cases h

theorem locate_done {r : Run α} {l : Lexeme} {a : α} (h : Run.locate l r m = .done a n) :
    r m = .done a n := by
  unfold Run.locate at h
  cases hr : r m with
  | done b k => rw [hr] at h; exact h
  | failed f k => rw [hr] at h; cases h
  | unfinished => rw [hr] at h; cases h

theorem lookup_done {name : String} {v : Value} (h : Run.lookup name m = .done v n) :
    m.scope.find? name = some v ∧ m = n := by
  obtain ⟨hv, rfl⟩ := lift_done h
  unfold Scope.lookup at hv
  cases hfind : m.scope.find? name with
  | none => rw [hfind] at hv; cases hv
  | some w => rw [hfind] at hv; cases hv; exact ⟨rfl, rfl⟩

theorem lookup_of_find? {name : String} {v : Value} (h : m.scope.find? name = some v) :
    Run.lookup name m = .done v m := by
  unfold Run.lookup Scope.lookup
  rw [h]
  rfl

/-- Elements that are evaluated one after the other, each after a run that `P` holds of. -/
theorem each_done {f : α → Run β} {P : Machine → Prop} {Q : α → β → Prop} {xs : List α}
    {ys : List β} (hf : ∀ x y m n, P m → f x m = .done y n → Q x y ∧ P n) (hm : P m)
    (h : Run.each f xs m = .done ys n) : List.Forall₂ Q xs ys ∧ P n := by
  induction xs generalizing m ys with
  | nil =>
    obtain ⟨rfl, rfl⟩ := pure_done h
    exact ⟨.nil, hm⟩
  | cons x xs ih =>
    obtain ⟨y, k, hy, h⟩ := bind_done h
    obtain ⟨ys', k', hys, h⟩ := bind_done h
    obtain ⟨rfl, rfl⟩ := pure_done h
    obtain ⟨hQ, hk⟩ := hf x y m k hm hy
    obtain ⟨hall, hn⟩ := ih hk hys
    exact ⟨.cons hQ hall, hn⟩

theorem each_cons_of_done {f : α → Run β} {x : α} {xs : List α} {y : β} {ys : List β} {k : Machine}
    (hx : f x m = .done y k) (hxs : Run.each f xs k = .done ys n) :
    Run.each f (x :: xs) m = .done (y :: ys) n := by
  show (f x >>= fun y => Run.each f xs >>= fun ys => pure (y :: ys)) m = .done (y :: ys) n
  rw [bind_of_done hx, bind_of_done hxs]
  rfl

/-! ## Machines that runs leave -/

theorem locate_machine? (r : Run α) (l : Lexeme) (m : Machine) :
    (Run.locate l r m).machine? = (r m).machine? := by
  unfold Run.locate
  cases r m <;> rfl

theorem afterwards_machine? (r : Run α) (change : Scope → Scope) (m : Machine) :
    (Run.afterwards r change m).machine? =
      (r m).machine?.map fun k => { k with scope := change k.scope } := by
  unfold Run.afterwards
  cases r m <;> rfl

/-- A sequence ends where its first part ends, or where the second one does. -/
theorem bind_machine? {r : Run α} {next : α → Run β} (h : ((r >>= next) m).machine? = some n) :
    (r m).machine? = some n ∨ ∃ a k, r m = .done a k ∧ (next a k).machine? = some n := by
  change (Run.bind r next m).machine? = some n at h
  unfold Run.bind at h
  cases hr : r m with
  | done a k => rw [hr] at h; exact Or.inr ⟨a, k, rfl, h⟩
  | failed f k => rw [hr] at h; exact Or.inl h
  | unfinished => rw [hr] at h; cases h

theorem andPure_machine? (r : Run α) (b : β) (m : Machine) :
    ((r >>= fun _ => pure b) m).machine? = (r m).machine? := by
  show (Run.bind r _ m).machine? = _
  unfold Run.bind
  cases r m <;> rfl

theorem changeScope_machine? {change : Scope → Except Fault Scope}
    (h : (Run.changeScope change m).machine? = some n) :
    n = m ∨ ∃ scope, change m.scope = .ok scope ∧ n = { m with scope } := by
  unfold Run.changeScope at h
  split at h
  · next scope hscope =>
    cases h
    exact Or.inr ⟨scope, hscope, rfl⟩
  · cases h
    exact Or.inl rfl

end MiniC.Run

namespace MiniC.Outcome

variable {α : Type} {o : Outcome α}

/-- The value of a run that is done. -/
def value? : Outcome α → Option α
  | .done value _ => some value
  | .failed _ _ | .unfinished => none

/-- The failure of a run that failed. -/
def failure? : Outcome α → Option Failure
  | .failed f _ => some f
  | .done _ _ | .unfinished => none

theorem value?_eq_some {value : α} (h : o.value? = some value) : ∃ n, o = .done value n := by
  cases o with
  | done value n =>
    cases h
    exact ⟨n, rfl⟩
  | failed f n => cases h
  | unfinished => cases h

theorem failure?_eq_some {f : Failure} (h : o.failure? = some f) : ∃ n, o = .failed f n := by
  cases o with
  | done value n => cases h
  | failed f n =>
    cases h
    exact ⟨n, rfl⟩
  | unfinished => cases h

end MiniC.Outcome

/-- What is related to a list has its members related to members of the list. -/
theorem MiniC.exists_of_forall₂ {α β : Type} {Q : α → β → Prop} {xs : List α} {ys : List β}
    (h : List.Forall₂ Q xs ys) {y : β} (hy : y ∈ ys) : ∃ x ∈ xs, Q x y := by
  induction h with
  | nil => exact absurd hy List.not_mem_nil
  | @cons x _ _ _ hQ _ ih =>
    rcases List.mem_cons.1 hy with rfl | hy
    · exact ⟨x, List.mem_cons_self, hQ⟩
    · obtain ⟨x', hx', hQ'⟩ := ih hy
      exact ⟨x', List.mem_cons_of_mem x hx', hQ'⟩

/-- A computation that a check accepts succeeds. -/
theorem MiniC.exists_of_any {ε α : Type} {e : Except ε α} {check : α → Bool}
    (h : e.toOption.any check = true) : ∃ a, e = .ok a ∧ check a = true := by
  cases e with
  | error _ => cases h
  | ok a => exact ⟨a, rfl, h⟩
