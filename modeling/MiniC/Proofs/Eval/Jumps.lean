import MiniC.Proofs.Eval.Attributed

/-!
# Jumps are caught by loops

A `break` or a `continue` that comes out of a statement is exposed in it: loops leave none, and a
call lets none through to the loops of its caller.  So a jump without a loop is one outside of all
loops of the function that it stands in.  Main statement: `jumps_caught`.
-/

namespace MiniC

variable {p : Program}

/-- If a jump failed, then it is outside of all loops of a function of the program. -/
def Failure.StraysIn (p : Program) (f : Failure) : Prop :=
  f.fault.kind = .jumpWithoutLoop →
    ∃ l g, f.lexeme = some l ∧ .function g ∈ p.items ∧ g.StraysAt l

theorem Failure.StraysIn.locate {f : Failure} (h : f.StraysIn p) (l : Lexeme) :
    (f.locate l).StraysIn p := by
  obtain ⟨fault, lexeme⟩ := f
  intro hkind
  obtain ⟨l', g, hl', hg⟩ := h hkind
  cases hl'
  exact ⟨l', g, rfl, hg⟩

theorem Program.setting_straysIn (p : Program) :
    Run.Setting .silent p.KnowsAll p.Knows (fun _ => True) (Failure.StraysIn p) where
  toInvariant := p.invariant fun _ _ => trivial
  unlocated hjump _ hkind := absurd hkind hjump
  locate hf _ := hf.locate _
  stray hf hl _ := ⟨_, _, rfl, hf.declared hl, hl⟩
  call _ _ := rfl
  builtin _ _ _ := Run.inCall_silent

/-- The jump of a flow comes from a statement that is exposed. -/
theorem exec_jumps {steps : Nat} {s : Statement} {m n : Machine} {flow : Flow}
    (h : exec steps s m = .done flow n) : flow.Jumps (·.Exposed s) := by
  have hexec := (Run.setting_trivial.evaluates steps).exec s fun _ _ => trivial
  have hmeets := hexec.composed.meets (m := m) trivial
  rw [h] at hmeets
  exact hmeets.1

theorem Program.run_straysIn {console : Console} {steps : Nat} {f : Failure} {n : Machine}
    (h : p.run steps (.initial console) = .failed f n) : f.StraysIn p := by
  intro hkind
  rcases p.setting_straysIn.run_failed (fun _ => Or.inr) (fun _ _ => trivial)
    p.knowsAll_initial h with hstrays | ⟨s, hs⟩
  · exact hstrays hkind
  · rcases entryPoint_error hs with hfault | hfault | hfault | hfault
    all_goals
      rw [hfault] at hkind
      cases hkind

/-- Jumps are caught by the loops of their own call, and by nothing else.  A statement that ends
with a `break` or a `continue` has that exposed, so outside of the bodies of its loops.  A program
in which all of them are in loops of their functions never fails for one, and wherever one fails, it
is outside of all loops of the function that it stands in. -/
theorem jumps_caught :
    (∀ steps s m n l,
      (exec steps s m = .done (.broke l) n → (Statement.breakLoop l).Exposed s) ∧
      (exec steps s m = .done (.continued l) n → (Statement.continueLoop l).Exposed s)) ∧
    ∀ (p : Program) console,
      ((∀ g, .function g ∈ p.items → ∀ l, ¬ g.StraysAt l) → ∀ steps f n,
        p.run steps (.initial console) = .failed f n → f.fault.kind ≠ .jumpWithoutLoop) ∧
      ∀ steps f n, p.run steps (.initial console) = .failed f n →
        f.fault.kind = .jumpWithoutLoop →
          ∃ l g, f.lexeme = some l ∧ .function g ∈ p.items ∧ g.StraysAt l := by
  refine ⟨fun steps s m n l => ⟨fun h => exec_jumps h, fun h => exec_jumps h⟩,
    fun p console => ⟨fun hcaught steps f n h hkind => ?_, fun steps f n h hkind => ?_⟩⟩
  · obtain ⟨l, g, -, hg, hl⟩ := p.run_straysIn h hkind
    exact hcaught g hg l hl
  · exact p.run_straysIn h hkind

/-- A `continue` behind a loop that catches a `break`.  The loop around the call does not catch
it. -/
theorem continue_behind_loop :
    let callee := "void f() \x7b while (1) \x7b break; \x7d if (1) continue; \x7d "
    let source := callee ++ "int main() \x7b while (1) f(); return 0; \x7d"
    ∃ p f n, Program.ofSource source = .ok p ∧
      p.run 9 (.initial ⟨⟨[]⟩, .unlimited⟩) = .failed f n ∧ f.fault.kind = .jumpWithoutLoop ∧
      ∃ l g, f.lexeme = some l ∧ .function g ∈ p.items ∧ g.StraysAt l := by
  intro callee source
  have hends : ((Program.ofSource source).toOption.any fun p =>
      (p.run 9 (.initial ⟨⟨[]⟩, .unlimited⟩)).failure?.any
        (·.fault.kind = .jumpWithoutLoop)) = true := by decide +kernel
  obtain ⟨p, hp, hcheck⟩ := exists_of_any hends
  obtain ⟨f, hf, hkind⟩ := (Option.any_eq_true _ _).mp hcheck
  obtain ⟨n, hrun⟩ := Outcome.failure?_eq_some hf
  have hkind := of_decide_eq_true hkind
  exact ⟨p, f, n, hp, hrun, hkind, (jumps_caught.2 p ⟨⟨[]⟩, .unlimited⟩).2 9 f n hrun hkind⟩

end MiniC
