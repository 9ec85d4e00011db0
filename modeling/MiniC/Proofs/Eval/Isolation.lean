import MiniC.Proofs.Eval.Steps

/-!
# Isolation of calls

A call sees the root frame and its own context, and nothing else of the scope.  `Isolated` relates
two machines within a call that agree on all of that, whatever their callers are; it is a coupling,
so a call does the same in both.  Main statement: `invoke_isolated`.  A call leaves its caller's
context and the contexts below as they were, and what it does, in every respect, depends on the
root frame and the console alone.
-/

namespace MiniC

/-- Within a call: machines with the same root frame, current context and console.  The contexts of
the callers are the given ones. -/
def Isolated (callers : List Context × List Context) (m m' : Machine) : Prop :=
  callers.1 ≠ [] ∧ callers.2 ≠ [] ∧
    ∃ root current console, m = ⟨⟨root, current, callers.1⟩, console⟩ ∧
      m' = ⟨⟨root, current, callers.2⟩, console⟩

/-- A change of the innermost binding of a name does not read the callers. -/
theorem Scope.modify_callers (root : Frame) (current : Context) (callers : List Context)
    (name : String) (change : Value → Value) :
    (Scope.mk root current callers).modify name change =
      { (Scope.mk root current []).modify name change with callers } := by
  unfold Scope.modify
  dsimp only
  split <;> rfl

/-- Inside a call `pop` keeps the callers, and what it does to the context does not depend on
them. -/
theorem Scope.pop_callers (root : Frame) (current : Context) {callers callers' : List Context}
    (h : callers ≠ []) (h' : callers' ≠ []) :
    ∃ outer, (Scope.mk root current callers).pop = ⟨root, outer, callers⟩ ∧
      (Scope.mk root current callers').pop = ⟨root, outer, callers'⟩ := by
  obtain ⟨c, rest, rfl⟩ := List.exists_cons_of_ne_nil h
  obtain ⟨c', rest', rfl⟩ := List.exists_cons_of_ne_nil h'
  match current with
  | [] => exact ⟨[], rfl, rfl⟩
  | [f] => exact ⟨[f], rfl, rfl⟩
  | _ :: f :: outer => exact ⟨f :: outer, rfl, rfl⟩

theorem coupling_isolated : Coupling (fun _ => True) Isolated where
  find := by
    rintro w m m' ⟨-, -, root, current, console, rfl, rfl⟩ name
    rfl
  console := by
    rintro w m m' ⟨-, -, root, current, console, rfl, rfl⟩
    rfl
  withConsole := by
    rintro w m m' ⟨h, h', root, current, console, rfl, rfl⟩ console'
    exact ⟨h, h', root, current, console', rfl, rfl⟩
  store := by
    rintro w m m' ⟨h, h', root, current, console, rfl, rfl⟩ name v path old op new updated - - -
    let changed := (Scope.mk root current []).modify name (·.setAt path updated)
    refine ⟨h, h', changed.root, changed.current, console, ?_, ?_⟩
    · exact congrArg (Machine.mk · console) (Scope.modify_callers root current w.1 name _)
    · exact congrArg (Machine.mk · console) (Scope.modify_callers root current w.2 name _)
  declare := by
    rintro w - name v m m' ⟨h, h', root, current, console, rfl, rfl⟩
    unfold Run.changeScope
    cases current with
    | nil =>
      by_cases hbound : root.binds name = true <;> simp only [Scope.declare, hbound, if_true]
      · exact .failed _ ⟨h, h', root, [], console, rfl, rfl⟩
      · exact .done () ⟨h, h', _, [], console, rfl, rfl⟩
    | cons f outer =>
      by_cases hbound : f.binds name = true <;> simp only [Scope.declare, hbound, if_true]
      · exact .failed _ ⟨h, h', root, f :: outer, console, rfl, rfl⟩
      · exact .done () ⟨h, h', root, _, console, rfl, rfl⟩
  frame := by
    rintro w m m' ⟨h, h', root, current, console, rfl, rfl⟩
    refine ⟨w, trivial, ⟨h, h', root, .empty :: current, console, rfl, rfl⟩, ?_⟩
    rintro n n' ⟨-, -, root', current', console', rfl, rfl⟩
    obtain ⟨outer, hpop, hpop'⟩ := Scope.pop_callers root' current' h h'
    refine ⟨h, h', root', outer, console', ?_, ?_⟩
    · exact congrArg (Machine.mk · console') hpop
    · exact congrArg (Machine.mk · console') hpop'
  call := by
    rintro w m m' ⟨h, h', root, current, console, rfl, rfl⟩
    refine ⟨(current :: w.1, current :: w.2), trivial,
      ⟨List.cons_ne_nil _ _, List.cons_ne_nil _ _, root, [.empty], console, rfl, rfl⟩, ?_⟩
    rintro n n' ⟨-, -, root', current', console', rfl, rfl⟩
    exact ⟨h, h', root', current, console', rfl, rfl⟩

/-- The machines after one call from two contexts: each has its own context back, and all that the
call could reach is the same. -/
structure AfterCall (before before' m m' : Machine) : Prop where
  root : m.scope.root = m'.scope.root
  console : m.console = m'.console
  current : m.scope.current = before.scope.current
  callers : m.scope.callers = before.scope.callers
  current' : m'.scope.current = before'.scope.current
  callers' : m'.scope.callers = before'.scope.callers

/-- A call does the same from all machines with the same root frame and console. -/
theorem invoke_simulated {steps steps' : Nat} (hle : steps ≤ steps') (f : FunctionDecl)
    (arguments : List Value) {m m' : Machine} (hroot : m.scope.root = m'.scope.root)
    (hconsole : m.console = m'.console) :
    Outcome.Simulated (AfterCall m m') (invoke steps f arguments m)
      (invoke steps' f arguments m') := by
  cases steps with
  | zero =>
    unfold invoke
    exact .unfinished _
  | succ steps =>
    obtain ⟨steps', rfl⟩ := Nat.exists_eq_add_one_of_ne_zero (Nat.ne_zero_of_lt hle)
    have hevaluates := coupling_isolated.evaluates (Nat.le_of_succ_le_succ hle)
    -- the call begins in related machines and ends with what was kept of the two callers
    have hbegin :
        Isolated (m.scope.current :: m.scope.callers, m'.scope.current :: m'.scope.callers)
          m.inCall m'.inCall :=
      ⟨List.cons_ne_nil _ _, List.cons_ne_nil _ _, m.scope.root, [.empty], m.console, rfl, by
        rw [hroot, hconsole]
        rfl⟩
    have hcall : Outcome.Simulated (AfterCall m m')
        (Run.inCall (Run.callBody steps f arguments) m)
        (Run.inCall (Run.callBody steps' f arguments) m') := by
      refine Run.simulated_afterwards
        (hevaluates.callBody coupling_isolated trivial f arguments) hbegin ?_
      rintro n n' ⟨-, -, root, current, console, rfl, rfl⟩
      exact ⟨rfl, rfl, rfl, rfl, rfl, rfl⟩
    rw [invoke_succ, invoke_succ]
    exact Run.simulated_bind hcall fun flow =>
      (Run.simulated_resultOf flow).bind fun v => Run.simulated_lift (f.checkResult v)

/-- Calls are isolated from their callers, in both directions.  However a call ends, it leaves all
frames but the root, and the contexts that they form, exactly as they were.  And of two machines
with the same root frame and console, whatever their other frames are, a call ends in both or in
neither, and then with the same value or failure, the same console and the same root frame. -/
theorem invoke_isolated (f : FunctionDecl) (arguments : List Value) :
    (∀ steps m n, (invoke steps f arguments m).machine? = some n →
      n.scope.current = m.scope.current ∧ n.scope.callers = m.scope.callers) ∧
    ∀ m m' : Machine, m.scope.root = m'.scope.root → m.console = m'.console →
      ((∃ o, Run.Ends (invoke · f arguments) m o) ↔
        ∃ o, Run.Ends (invoke · f arguments) m' o) ∧
      ∀ o o', Run.Ends (invoke · f arguments) m o → Run.Ends (invoke · f arguments) m' o' →
        o.Simulated (fun n n' => n.console = n'.console ∧ n.scope.root = n'.scope.root) o' := by
  refine ⟨fun steps m n hn => ?_, fun m m' hroot hconsole => ⟨⟨?_, ?_⟩, ?_⟩⟩
  · have h := invoke_simulated (Nat.le_refl steps) f arguments (m := m) rfl rfl
    generalize invoke steps f arguments m = o at h hn
    cases h with
    | done value h => cases hn; exact ⟨h.current, h.callers⟩
    | failed failure h => cases hn; exact ⟨h.current, h.callers⟩
    | unfinished o => cases hn
  · rintro ⟨o, hends, steps, rfl⟩
    exact ⟨_, (invoke_simulated (Nat.le_refl steps) f arguments hroot hconsole).ends hends, steps,
      rfl⟩
  · rintro ⟨o, hends, steps, rfl⟩
    exact ⟨_, (invoke_simulated (Nat.le_refl steps) f arguments hroot.symm hconsole.symm).ends
      hends, steps, rfl⟩
  · rintro o o' ⟨hends, steps, rfl⟩ ⟨hends', steps', rfl⟩
    rcases Nat.le_total steps steps' with hle | hle
    · exact (invoke_simulated hle f arguments hroot hconsole).mono fun n n' h => ⟨h.console, h.root⟩
    · have hsame := invoke_of_le hle f arguments m' hends'
      have h := invoke_simulated (Nat.le_refl steps) f arguments hroot hconsole
      rw [hsame] at h
      exact h.mono fun n n' h => ⟨h.console, h.root⟩

/-- A print function writes its own parameter, also if a variable of that name is in the frame that
it is called from, and that variable is still there afterwards. -/
theorem printi_isolated :
    let f := Builtin.printi.declaration
    let console : Console := ⟨⟨[]⟩, .unlimited⟩
    let outside : Machine := ⟨⟨.empty, [], []⟩, console⟩
    let inside : Machine := ⟨⟨.empty, [⟨[("p", .string "hidden")]⟩], [[]]⟩, console⟩
    (∃ n, (invoke 1 f [.int 7] inside).machine? = some n ∧
      n.scope.current = inside.scope.current ∧ n.scope.callers = inside.scope.callers) ∧
    ∃ o o', Run.Ends (invoke · f [.int 7]) outside o ∧ Run.Ends (invoke · f [.int 7]) inside o' ∧
      o.Simulated (fun n n' => n.console = n'.console ∧ n.scope.root = n'.scope.root) o' := by
  intro f console outside inside
  obtain ⟨hkept, hisolated⟩ := invoke_isolated f [.int 7]
  obtain ⟨hiff, hsame⟩ := hisolated outside inside rfl rfl
  have hout : Run.Ends (invoke · f [.int 7]) outside (invoke 1 f [.int 7] outside) :=
    ⟨by rintro ⟨⟩, 1, rfl⟩
  obtain ⟨o', hin⟩ := hiff.1 ⟨_, hout⟩
  exact ⟨⟨_, rfl, hkept 1 inside _ rfl⟩, _, o', hout, hin, hsame _ o' hout hin⟩

end MiniC
