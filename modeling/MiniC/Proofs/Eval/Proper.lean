import MiniC.Proofs.Eval.Attributed
import MiniC.Proofs.Eval.Resolved
import MiniC.Proofs.Parse.Accepted

/-!
# Proper calls

While a parsed program runs, every call is proper: the arguments fit the parameters, and a built-in
function finds its argument in the innermost frame, of the type that it is declared with.  A monitor
that lets proper calls pass, whatever it does about others, changes no run.  Main statement:
`calls_proper`.
-/

namespace MiniC

/-- The parameter of a built-in function, if it has one, is bound in the innermost frame to a value
of its type. -/
def Builtin.Fed (b : Builtin) (s : Scope) : Prop :=
  ∀ type, b.signature.2 = some type →
    ∃ v, s.innermost.find? Builtin.parameterName = some v ∧ v.typeName? = some type

instance (b : Builtin) (s : Scope) : Decidable (b.Fed s) :=
  decidable_of_iff (∀ type ∈ b.signature.2.toList,
    (s.innermost.find? Builtin.parameterName).any (·.typeName? = some type) = true)
    (by simp [Builtin.Fed, Option.any_eq_true])

/-- The monitor lets proper calls pass: calls with as many arguments as there are parameters, all of
which are accepted, and built-in functions that are fed. -/
structure Monitor.PassesProper (w : Monitor) : Prop where
  call : ∀ (f : FunctionDecl) (arguments : List Value),
    arguments.length = f.parameters.length → f.checkArguments arguments = .ok () →
      ∀ r, w.call f arguments r = r
  builtin : ∀ (b : Builtin) (m : Machine), b.Fed m.scope → ∀ r, w.builtin b.name r m = r m

/-! ## Calls of built-in functions -/

/-- Only built-in functions have a built-in body. -/
theorem Program.Knows.eq_declaration {source : String} {p : Program}
    (hp : Program.ofSource source = .ok p) {f : FunctionDecl} {b : Builtin} (hf : p.Knows f)
    (hb : f.body = .builtin b) : f = b.declaration := by
  rcases hf with ⟨b', rfl⟩ | hitem
  · cases hb
    rfl
  · obtain ⟨body, l, hbody⟩ := Program.body_of_ofSource hp hitem
    rw [hbody] at hb
    cases hb

namespace Builtin

variable {b : Builtin}

theorem Fed.find (h : b.Fed s) {type : TypeName} (htype : b.signature.2 = some type) :
    ∃ v, s.find? parameterName = some v ∧ v.typeName? = some type := by
  obtain ⟨v, hv, hvtype⟩ := h type htype
  refine ⟨v, ?_, hvtype⟩
  obtain ⟨root, current, callers⟩ := s
  cases current with
  | nil => exact hv
  | cons frame outer =>
    have hframe : frame.find? parameterName = some v := hv
    unfold Scope.find? Context.find?
    rw [List.findSome?_cons, hframe]
    rfl

/-- What a parameter of a built-in function accepts has its type. -/
theorem typeName?_of_accepts {type : TypeName} {name : String} {l : Lexeme} {v : Value}
    (h : Parameter.accepts ⟨type, name, 0, l⟩ v = true) : v.typeName? = some type := by
  unfold Parameter.accepts at h
  cases type with
  | array =>
    cases v with
    | array _ => rfl
    | int _ | float _ | string _ | void | function _ => cases h
  | int | float | string | void =>
    dsimp only at h
    split at h
    · simp at h
    · simp only [Bool.and_eq_true, decide_eq_true_eq] at h
      exact h.2

/-- Arguments that fit feed a built-in function. -/
theorem bindParameters_fed {arguments : List Value}
    (hcheck : b.declaration.checkArguments arguments = .ok ()) (m : Machine) :
    ∃ n, bindParameters (b.declaration.parameters.zip arguments) m.inCall = .done () n ∧
      b.Fed n.scope := by
  have haccepts := FunctionDecl.checkArguments_ok_iff.1 hcheck
  have hparameters : b.declaration.parameters =
      b.signature.2.toList.map fun type => ⟨type, parameterName, 0, .absent⟩ := rfl
  rw [hparameters] at haccepts ⊢
  cases hsignature : b.signature.2 with
  | none => exact ⟨m.inCall, rfl, fun type htype => by rw [hsignature] at htype; cases htype⟩
  | some type =>
    rw [hsignature] at haccepts
    cases haccepts with
    | cons haccepts hrest =>
      cases hrest
      refine ⟨_, rfl, fun type' htype => ⟨_, rfl, ?_⟩⟩
      rw [hsignature] at htype
      cases htype
      exact typeName?_of_accepts haccepts

/-- A built-in function that is fed finds its parameter, and `prints` finds a string. -/
theorem Fed.resolves (b : Builtin) : b.run.Resolves b.Fed fun _ _ => True := by
  refine b.run_resolves fun s hs name hname => ?_
  obtain ⟨parameter, hparameter, rfl⟩ := List.mem_map.1 hname
  obtain ⟨type, htype, rfl⟩ := List.mem_map.1 hparameter
  obtain ⟨v, hv, -⟩ := hs.find (Option.mem_toList.1 htype)
  exact ⟨v, hv⟩

end Builtin

/-! ## Programs -/

variable {p : Program} {source : String}

/-- Monitors that let proper calls pass do so while a parsed program runs. -/
theorem Monitor.PassesProper.inCall {w : Monitor} (hw : w.PassesProper) {b : Builtin}
    {arguments : List Value} (hcheck : b.declaration.checkArguments arguments = .ok ())
    (exec : Statement → Run Flow) :
    Run.inCall (bodyWith exec w.runBuiltin b.declaration arguments) =
      Run.inCall (bodyWith exec Builtin.run b.declaration arguments) := by
  funext m
  obtain ⟨n, hbind, hfed⟩ := Builtin.bindParameters_fed hcheck m
  have hbody : ∀ builtin : Builtin → Run Flow,
      bodyWith exec builtin b.declaration arguments m.inCall = builtin b n :=
    fun builtin => Run.bind_of_done hbind fun _ => builtin b
  have hsame : w.runBuiltin b n = b.run n := by
    unfold Monitor.runBuiltin
    rw [hw.builtin b n hfed, b.runNamed_name]
  show Run.afterwards _ _ m.inCall = Run.afterwards _ _ m.inCall
  unfold Run.afterwards
  rw [hbody, hbody, hsame]

theorem Program.setting_proper {w : Monitor} (hw : w.PassesProper)
    (hp : Program.ofSource source = .ok p) :
    Run.Setting w p.KnowsAll p.Knows (fun _ => True) (fun f => f.fault.kind ≠ .invalidMain) where
  toInvariant := p.invariant fun _ _ => trivial
  unlocated _ hmain := hmain
  locate hf _ := hf
  stray _ _ := nofun
  call hcheck r := hw.call _ _ (FunctionDecl.checkArguments_ok_iff.1 hcheck).length_eq.symm hcheck r
  builtin hf hb hcheck exec := by
    cases hf.eq_declaration hp hb
    exact hw.inCall hcheck exec

/-- Every call is proper, in every run of a parsed program.  A monitor that lets proper calls pass
changes no run, whatever it does about calls that are not: with another number of arguments, with
arguments that do not fit, or of a built-in function that is not fed.  A built-in function that is
fed does not fail for a name, and `prints` has a string to expand.  What is called as `main` returns
an int, so no run fails for what `main` returned. -/
theorem calls_proper (hp : Program.ofSource source = .ok p) (console : Console) :
    (∀ w : Monitor, w.PassesProper → ∀ steps,
      w.run steps p (.initial console) = p.run steps (.initial console)) ∧
    (∀ (b : Builtin) m f n, b.Fed m.scope → b.run m = .failed f n →
      f.fault.kind ≠ .identifierNotFound) ∧
    (∀ s, Builtin.prints.Fed s →
      ∃ text, s.lookup Builtin.parameterName = .ok (.string text)) ∧
    (∀ steps main m v n, entryPoint m.scope = .ok main → invoke steps main [] m = .done v n →
      ∃ i, v = .int i) ∧
    ∀ steps f n found, p.run steps (.initial console) = .failed f n →
      f.fault ≠ .mainReturned found := by
  refine ⟨fun w hw steps => ?_, fun b m f n hfed hrun => ?_, fun s hfed => ?_,
    fun steps main m v n hmain hrun => ?_, fun steps f n found hrun => ?_⟩
  · exact (p.setting_proper hw hp).run_same (fun _ => Or.inr) (fun _ _ => trivial)
      p.knowsAll_initial steps
  · have hresolved := Builtin.Fed.resolves b m hfed
    rw [hrun] at hresolved
    cases hresolved with
    | failed h => exact (FaultKind.ne_of_isNaming h).1
  · obtain ⟨v, hv, htype⟩ := hfed.find rfl
    cases v with
    | string text =>
      refine ⟨text, ?_⟩
      unfold Scope.lookup
      rw [hv]
    | int _ | float _ | array _ | void | function _ => cases htype
  · exact eq_int_of_entryPoint hmain (invoke_hasType hrun)
  · have hsilent : Monitor.silent.PassesProper := ⟨fun _ _ _ _ _ => rfl, fun _ _ _ _ => rfl⟩
    rcases (p.setting_proper hsilent hp).run_failed (fun _ => Or.inr) (fun _ _ => trivial)
      p.knowsAll_initial hrun with hkind | ⟨s, hs⟩
    · intro hfault
      rw [hfault] at hkind
      exact hkind rfl
    · rcases entryPoint_error hs with hfault | hfault | hfault | hfault
      all_goals
        rw [hfault]
        exact nofun

/-- The monitor that stops calls that are not proper. -/
def Monitor.strict : Monitor where
  call f arguments r :=
    if arguments.length = f.parameters.length ∧ (f.checkArguments arguments).isOk then r
    else Run.unfinished
  builtin name r m :=
    match Builtin.ofName? name with
    | some b => if b.Fed m.scope then r m else .unfinished
    | none => .unfinished

theorem Monitor.strict_passesProper : Monitor.strict.PassesProper where
  call f arguments hlength hcheck r := by
    unfold Monitor.strict
    dsimp only
    rw [if_pos ⟨hlength, by rw [hcheck]; rfl⟩]
  builtin b m hfed r := by
    have hname : Builtin.ofName? b.name = some b := by cases b <;> rfl
    unfold Monitor.strict
    dsimp only
    rw [hname]
    exact if_pos hfed

/-- Calls of a function with an array, and of built-in functions with a string and an array, whose
parameters hide a global `p`. -/
theorem hidden_global_proper :
    let callee := "int p; int first(int a[]) \x7b printl(a); return a[p]; \x7d "
    let source := callee ++ "int main() \x7b prints(\"x\\n\"); return first(\x7b7\x7d); \x7d"
    let console : Console := ⟨⟨[]⟩, .unlimited⟩
    ∃ p n, Program.ofSource source = .ok p ∧ p.run 9 (.initial console) = .done 7 n ∧
      Monitor.strict.run 9 p (.initial console) = .done 7 n := by
  intro callee source console
  have hends : ((Program.ofSource source).toOption.any fun p =>
      (p.run 9 (.initial console)).value? == some 7) = true := by decide +kernel
  obtain ⟨p, hp, hvalue⟩ := exists_of_any hends
  obtain ⟨n, hrun⟩ := Outcome.value?_eq_some (beq_iff_eq.1 hvalue)
  have hsame := (calls_proper hp console).1 .strict Monitor.strict_passesProper 9
  exact ⟨p, n, hp, hrun, hsame.trans hrun⟩

end MiniC
