import MiniC.Proofs.Eval.Attributed
import MiniC.Proofs.Eval.Steps
import MiniC.Proofs.Parse.Accepted

/-!
# Failures behind the entry point

Once the items of a program are declared and its entry point is found, a failure is attributed to a
lexeme of the program, with one exception: the result of `main` is checked where no call attributes
it, so a `main` that does not end with an int fails without a lexeme.  Main statement:
`failure_behind_entryPoint`.
-/

namespace MiniC

variable {p : Program} {console : Console} {steps : Nat} {k m n : Machine}

/-- What a call returns whose body ended with a flow, unless a jump strays. -/
def Flow.result? : Flow → Option Value
  | .normal => some .void
  | .returned v _ => some v
  | .broke _ | .continued _ => none

/-- What is called as `main` is a function of the program. -/
theorem Program.Reaches.entryPoint (h : p.Reaches console k)
    (hp : ∀ d, p.Declares d → d.Valued) {main : FunctionDecl}
    (hmain : entryPoint k.scope = .ok main) : main.name = "main" ∧ .function main ∈ p.items := by
  obtain ⟨hfind, -⟩ := entryPoint_ok hmain
  have hname : main.name = "main" := by
    rcases (h.wellFormed hp).find hfind with ⟨leaf, dims, hshaped⟩ | ⟨-, g, hg, hname⟩
    · exact absurd rfl (hshaped.ne_function main)
    · cases hg
      exact hname
  refine ⟨hname, ?_⟩
  rcases (h.knowsAll hp).find hfind with ⟨b, rfl⟩ | hitem
  · exact absurd hname (by cases b <;> decide)
  · exact hitem

/-- A result that a function must not return is what its call fails for. -/
theorem checkResult_failed {g : FunctionDecl} {v : Value} {f : Failure}
    (h : Run.lift (g.checkResult v) m = .failed f n) :
    m = n ∧ g.canReturn v = false ∧ f = .unlocated (.wrongResult g.name g.returns v.describe) := by
  unfold FunctionDecl.checkResult at h
  split at h
  · cases h
  · next hreturn =>
    cases h
    exact ⟨rfl, Bool.eq_false_iff.2 hreturn, rfl⟩

section Calls

variable {w : Monitor} {I : Scope → Prop} {known : FunctionDecl → Prop} {src : Lexeme → Prop}
  {F : Failure → Prop}

/-- A call of a function of the program fails at a lexeme, or for what its body ended with. -/
theorem Run.Setting.invoke_failed (hset : Setting w I known src F) {g : FunctionDecl}
    (hg : known g) (hlexemes : ∀ l ∈ g.lexemes, src l) {body : List Statement} {brace : Lexeme}
    (hbody : g.body = .block body brace) {arguments : List Value}
    (hcheck : g.checkArguments arguments = .ok ()) (hk : I k.scope) {f : Failure}
    (hrun : invoke steps g arguments k = .failed f n) :
    Failure.Located F f ∨
      ∃ steps' flow v, Run.inCall (Run.callBody steps' g arguments) k = .done flow n ∧
        flow.result? = some v ∧ g.canReturn v = false ∧
        f = .unlocated (.wrongResult g.name g.returns v.describe) := by
  cases steps with
  | zero =>
    unfold invoke at hrun
    cases hrun
  | succ steps =>
    have hplain := FunctionDecl.isPlain_of_checkArguments hcheck
    have hexec := (hset.evaluates steps).exec
    have hagrees := hset.inCall_block hexec hlexemes hbody hplain Builtin.run Builtin.run
    have hmeets := hagrees.composed.meets hk
    change (Run.inCall (Run.callBody steps g arguments) k).Meets _ _ _ at hmeets
    rw [MiniC.invoke_succ] at hrun
    rcases Run.bind_failed hrun with hfails | ⟨flow, n', hend, hrun⟩
    · rw [hfails] at hmeets
      exact Or.inl hmeets.1
    · rw [hend] at hmeets
      cases flow with
      | normal =>
        obtain ⟨rfl, hresult⟩ := checkResult_failed hrun
        exact Or.inr ⟨steps, .normal, .void, hend, rfl, hresult⟩
      | returned v l =>
        obtain ⟨rfl, hresult⟩ := checkResult_failed hrun
        exact Or.inr ⟨steps, .returned v l, v, hend, rfl, hresult⟩
      | broke l =>
        cases hrun
        exact Or.inl ⟨hset.stray hg (Or.inl hmeets.1), l, rfl⟩
      | continued l =>
        cases hrun
        exact Or.inl ⟨hset.stray hg (Or.inr hmeets.1), l, rfl⟩

end Calls

/-- Whatever ends a run after the items were declared ends the call of the entry point. -/
theorem Program.callMain_failed {steps₀ : Nat}
    (hdeclared : declareItems steps₀ p.items (.initial console) = .done () k) {f : Failure}
    (hrun : p.run steps (.initial console) = .failed f n)
    (hflush : n.console.output.flush = .ok ()) : callMain steps k = .failed f n := by
  have hsame : ∀ o, declareItems steps p.items (.initial console) = o → o ≠ .unfinished →
      o = .done () k := by
    rintro o rfl hends
    rw [declareItems_unique hends (by rw [hdeclared]; exact nofun), hdeclared]
  rcases Run.flushed_failed hrun with hrun | ⟨_, _, -, hrefused, -⟩
  · rcases Run.bind_failed hrun with hfails | ⟨_, k', hdone, hcall⟩
    · cases hsame _ hfails nofun
    · cases hsame _ hdone nofun
      exact hcall
  · rw [hflush] at hrefused
    cases hrefused

/-- Let the items of a parsed program be declared without a failure, and let there be an entry
point.  If a run fails although its output can be flushed, then at a lexeme of the program, unless
the body of `main` ended with something else than an int.  Then that is the failure, and it has no
lexeme. -/
theorem failure_behind_entryPoint {source : String} (hp : Program.ofSource source = .ok p)
    {steps₀ : Nat} (hdeclared : declareItems steps₀ p.items (.initial console) = .done () k)
    {main : FunctionDecl} (hmain : entryPoint k.scope = .ok main) {f : Failure}
    (hrun : p.run steps (.initial console) = .failed f n)
    (hflush : n.console.output.flush = .ok ()) :
    (∃ l ∈ p.lexemes, f.lexeme = some l) ∨
      ∃ steps' flow v, Run.inCall (Run.callBody steps' main []) k = .done flow n ∧
        flow.result? = some v ∧ (∀ i, v ≠ .int i) ∧
        f = .unlocated (.wrongResult "main" .int v.describe) := by
  have hvalued : ∀ d, p.Declares d → d.Valued := fun d hd => Program.declares_valueType hp hd
  have hk : p.Reaches console k :=
    declareItems_reaches (fun _ hi => hi) .start Scope.wellFormed_initial.valid rfl
      (by rw [hdeclared]; rfl)
  obtain ⟨hname, hitem⟩ := hk.entryPoint hvalued hmain
  obtain ⟨body, brace, hbody⟩ := Program.body_of_ofSource hp hitem
  have hcall := Program.callMain_failed hdeclared hrun hflush
  unfold callMain at hcall
  rw [hmain] at hcall
  dsimp only at hcall
  cases hinvoke : invoke steps main [] k with
  | unfinished =>
    rw [hinvoke] at hcall
    cases hcall
  | done v n' =>
    obtain ⟨i, rfl⟩ := eq_int_of_entryPoint hmain (invoke_hasType hinvoke)
    rw [hinvoke] at hcall
    cases hcall
  | failed f' n' =>
    rw [hinvoke] at hcall
    cases hcall
    have hset : Run.Setting .silent p.KnowsAll p.Knows (· ∈ p.lexemes) _ := p.setting fun _ => id
    rcases hset.invoke_failed (Or.inr hitem) (fun l => Program.mem_lexemes hitem) hbody
      (checkArguments_entryPoint hmain) (hk.knowsAll hvalued) hinvoke with
      ⟨hwithin, l, hl⟩ | ⟨steps', flow, v, hend, hresult, hreturn, hfault⟩
    · exact Or.inl ⟨l, hwithin l hl, hl⟩
    · rw [hname, entryPoint_returns hmain] at hfault
      refine Or.inr ⟨steps', flow, v, hend, hresult, ?_, hfault⟩
      rintro i rfl
      unfold FunctionDecl.canReturn at hreturn
      rw [entryPoint_returns hmain] at hreturn
      cases hreturn

/-- A program is declared and has an entry point, and its run fails in a way that a check accepts,
with an output that can be flushed. -/
def Program.failsBehind (p : Program) (steps : Nat) (m : Machine) (check : Failure → Bool) : Bool :=
  match declareItems steps p.items m, p.run steps m with
  | .done () k, .failed f n =>
    (entryPoint k.scope).isOk && n.console.output.flush.isOk && check f
  | _, _ => false

theorem Program.exists_of_failsBehind {check : Failure → Bool}
    (h : p.failsBehind steps m check = true) :
    ∃ k main f n, declareItems steps p.items m = .done () k ∧
      MiniC.entryPoint k.scope = .ok main ∧ p.run steps m = .failed f n ∧
      n.console.output.flush = .ok () ∧ check f = true := by
  have hok : ∀ {α ε : Type} {e : Except ε α}, e.isOk = true → ∃ a, e = .ok a := by
    intro α ε e he
    cases e with
    | error _ => cases he
    | ok a => exact ⟨a, rfl⟩
  unfold failsBehind at h
  split at h
  · next k f n hdeclared hrun =>
    obtain ⟨hends, hcheck⟩ := Bool.and_eq_true_iff.1 h
    obtain ⟨hmain, hflush⟩ := Bool.and_eq_true_iff.1 hends
    obtain ⟨main, hmain⟩ := hok hmain
    obtain ⟨_, hflush⟩ := hok hflush
    exact ⟨k, main, f, n, hdeclared, hmain, hrun, hflush, hcheck⟩
  · cases h

/-- A division by zero in `main` is located. -/
theorem division_located :
    let source := "int main() \x7b return 1 / 0; \x7d"
    let start := Machine.initial ⟨⟨[]⟩, .unlimited⟩
    ∃ p k main f n, Program.ofSource source = .ok p ∧ declareItems 9 p.items start = .done () k ∧
      entryPoint k.scope = .ok main ∧ p.run 9 start = .failed f n ∧
      n.console.output.flush = .ok () ∧ ∃ l ∈ p.lexemes, f.lexeme = some l := by
  intro source start
  have hends : ((Program.ofSource source).toOption.any
      (·.failsBehind 9 start (·.lexeme.isSome))) = true := by decide +kernel
  obtain ⟨p, hp, hfails⟩ := exists_of_any hends
  obtain ⟨k, main, f, n, hdeclared, hmain, hrun, hflush, hcheck⟩ :=
    Program.exists_of_failsBehind hfails
  refine ⟨p, k, main, f, n, hp, hdeclared, hmain, hrun, hflush, ?_⟩
  rcases failure_behind_entryPoint hp hdeclared hmain hrun hflush with
    hlocated | ⟨_, _, v, _, _, _, rfl⟩
  · exact hlocated
  · cases hcheck

/-- A `main` without a result is not located. -/
theorem main_without_result :
    let source := "int main() \x7b \x7d"
    let start := Machine.initial ⟨⟨[]⟩, .unlimited⟩
    ∃ p k main f n, Program.ofSource source = .ok p ∧ declareItems 9 p.items start = .done () k ∧
      entryPoint k.scope = .ok main ∧ p.run 9 start = .failed f n ∧
      n.console.output.flush = .ok () ∧ f.lexeme = none := by
  intro source start
  have hends : ((Program.ofSource source).toOption.any
      (·.failsBehind 9 start (·.lexeme.isNone))) = true := by decide +kernel
  obtain ⟨p, hp, hfails⟩ := exists_of_any hends
  obtain ⟨k, main, f, n, hdeclared, hmain, hrun, hflush, hcheck⟩ :=
    Program.exists_of_failsBehind hfails
  exact ⟨p, k, main, f, n, hp, hdeclared, hmain, hrun, hflush, Option.isNone_iff_eq_none.1 hcheck⟩

end MiniC
