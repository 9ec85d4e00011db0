import MiniC.Proofs.Run.Simulated

/-!
# Runs with steps enough side by side

Two runs that do the same can need different numbers of steps for it.  `Run.Refines R r r'` says
that what `r` does under some steps, `r'` does up to `R` under any number of steps that is larger by
some delay; the delay is the same for all numbers, so sequences, branches and loops keep the
relation.
-/

namespace MiniC.Run

variable {α β : Type} {R : Machine → Machine → Prop} {r r' s s' : Nat → Run α}

/-- With more steps by a delay, the second run does what the first one does. -/
def Refines (R : Machine → Machine → Prop) (r r' : Nat → Run α) : Prop :=
  ∃ delay, ∀ steps steps', steps + delay ≤ steps' → Simulated R (r steps) (r' steps')

theorem refines_of_le
    (h : ∀ steps steps', steps ≤ steps' → Simulated R (r steps) (r' steps')) : Refines R r r' :=
  ⟨0, h⟩

/-- A run without steps does not end, so the run can be replaced by what it does next. -/
theorem refines_succ_left (hzero : r 0 = unfinished) (hsucc : ∀ steps, r (steps + 1) = s steps) :
    Refines R r r' ↔ Refines R s r' := by
  constructor
  · rintro ⟨delay, h⟩
    refine ⟨delay + 1, fun steps steps' hle => ?_⟩
    rw [← hsucc]
    apply h
    omega
  · rintro ⟨delay, h⟩
    refine ⟨delay, fun steps steps' hle => ?_⟩
    cases steps with
    | zero =>
      rw [hzero]
      exact simulated_unfinished _
    | succ steps =>
      rw [hsucc]
      apply h
      omega

theorem refines_succ_right (hsucc : ∀ steps, r' (steps + 1) = s' steps) :
    Refines R r r' ↔ Refines R r s' := by
  constructor
  · rintro ⟨delay, h⟩
    refine ⟨delay, fun steps steps' hle => ?_⟩
    rw [← hsucc]
    apply h
    omega
  · rintro ⟨delay, h⟩
    refine ⟨delay + 1, fun steps steps' hle => ?_⟩
    obtain ⟨steps', rfl⟩ := Nat.exists_eq_add_one_of_ne_zero (n := steps') (by omega)
    rw [hsucc]
    apply h
    omega

/-- What follows a run has one delay for all values of the run. -/
theorem Refines.bind {first first' : Nat → Run β} {next next' : β → Nat → Run α}
    (hfirst : Refines R first first')
    (hnext : ∃ delay, ∀ value steps steps', steps + delay ≤ steps' →
      Simulated R (next value steps) (next' value steps')) :
    Refines R (fun steps => first steps >>= fun value => next value steps)
      fun steps => first' steps >>= fun value => next' value steps := by
  obtain ⟨delay, hfirst⟩ := hfirst
  obtain ⟨delay', hnext⟩ := hnext
  refine ⟨delay + delay', fun steps steps' hle => ?_⟩
  refine Simulated.bind (hfirst steps steps' ?_) fun value => hnext value steps steps' ?_
  · omega
  · omega

theorem Refines.andThen {first first' : Nat → Run Unit} (hfirst : Refines R first first')
    (hrest : Refines R r r') :
    Refines R (fun steps => first steps >>= fun _ => r steps)
      fun steps => first' steps >>= fun _ => r' steps := by
  obtain ⟨delay, hrest⟩ := hrest
  exact hfirst.bind ⟨delay, fun _ => hrest⟩

theorem Refines.branch {test test' : Nat → Run Bool} (htest : Refines R test test')
    (hr : Refines R r r') (hs : Refines R s s') :
    Refines R (fun steps => test steps >>= fun holds => if holds then r steps else s steps)
      fun steps => test' steps >>= fun holds => if holds then r' steps else s' steps := by
  obtain ⟨delay, hr⟩ := hr
  obtain ⟨delay', hs⟩ := hs
  refine htest.bind ⟨delay + delay', fun holds steps steps' hle => ?_⟩
  cases holds with
  | true =>
    apply hr
    omega
  | false =>
    apply hs
    omega

/-- A loop is granted as many rounds as it has steps. -/
theorem Refines.whileLoop {test test' : Nat → Run Bool} {body body' : Nat → Run Flow}
    {step step' : Nat → Run Unit} (htest : Refines R test test') (hbody : Refines R body body')
    (hstep : Refines R step step') :
    Refines R (fun steps => Run.whileLoop (test steps) (body steps) (step steps) steps)
      fun steps => Run.whileLoop (test' steps) (body' steps) (step' steps) steps := by
  obtain ⟨delay, htest⟩ := htest
  obtain ⟨delay', hbody⟩ := hbody
  obtain ⟨delay'', hstep⟩ := hstep
  refine ⟨delay + delay' + delay'', fun steps steps' hle => ?_⟩
  apply Simulated.whileLoop
  · apply htest
    omega
  · apply hbody
    omega
  · apply hstep
    omega
  · omega

end MiniC.Run
