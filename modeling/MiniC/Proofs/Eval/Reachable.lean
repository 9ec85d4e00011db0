import MiniC.Proofs.Eval.WellFormed

/-!
# Reachable machines

`p.Reaches console` collects the machines that the program `p` can be found in: it begins with the
machine in which nothing has run yet, and is closed under everything that happens while a program
runs, in any order, whether it succeeds or fails, and with any number of steps granted.  Frames and
calls are opened and closed separately, so the machines inside of blocks and calls are among them.
Main statement: `run_store_wellFormed`.
-/

namespace MiniC

/-- The machines that a program can be found in. -/
inductive Program.Reaches (p : Program) (console : Console) : Machine → Prop
  | start : Reaches p console (.initial console)
  /-- A function of the program is declared outside all calls and blocks. -/
  | function {f : FunctionDecl} {m n : Machine} (hm : Reaches p console m)
      (hf : .function f ∈ p.items) (htop : m.scope.current = [])
      (hn : (declareFunction f m).machine? = some n) : Reaches p console n
  | declaration {d : Declaration} {steps : Nat} {m n : Machine} (hm : Reaches p console m)
      (hd : p.Declares d) (hn : (execDeclaration (eval steps) d m).machine? = some n) :
      Reaches p console n
  | statement {s : Statement} {steps : Nat} {m n : Machine} (hm : Reaches p console m)
      (hs : p.Contains s) (hn : (exec steps s m).machine? = some n) : Reaches p console n
  | expression {e : Expr} {steps : Nat} {m n : Machine} (hm : Reaches p console m)
      (hn : (eval steps e m).machine? = some n) : Reaches p console n
  | call {f : FunctionDecl} {arguments : List Value} {steps : Nat} {m n : Machine}
      (hm : Reaches p console m) (hn : (invoke steps f arguments m).machine? = some n) :
      Reaches p console n
  | openFrame {m : Machine} (hm : Reaches p console m) : Reaches p console m.inFrame
  | closeFrame {m : Machine} (hm : Reaches p console m) : Reaches p console m.leaveFrame
  /-- The arguments of a call are evaluated and fit, and the parameters are bound to them. -/
  | beginCall {f : FunctionDecl} {es : List Expr} {arguments : List Value} {steps : Nat}
      {m k n : Machine} (hm : Reaches p console m)
      (harguments : Run.each (eval steps) es m = .done arguments k)
      (hcheck : f.checkArguments arguments = .ok ())
      (hn : (bindParameters (f.parameters.zip arguments) k.inCall).machine? = some n) :
      Reaches p console n
  | endCall {m : Machine} (hm : Reaches p console m) : Reaches p console m.leaveCall

variable {p : Program} {console : Console} {steps : Nat} {m n : Machine}

/-- The invariant of every run. -/
theorem Program.Reaches.wellFormed (hp : ∀ d, p.Declares d → d.Valued)
    (h : p.Reaches console m) : m.scope.WellFormed := by
  induction h with
  | start => exact Scope.wellFormed_initial
  | function _ _ htop hn ih => exact declareFunction_wellFormed htop ih hn
  | declaration _ hd hn ih => exact execDeclaration_wellFormed (hp _ hd) ih hn
  | statement _ hs hn ih =>
    refine exec_wellFormed (fun d hd => hp d (Or.inr ?_)) ih hn
    rwa [← hd]
  | expression _ hn ih => exact wellFormed_of_keeps (eval_keeps _ _) ih hn
  | call _ hn ih => exact wellFormed_of_keeps (invoke_keeps _ _ _) ih hn
  | openFrame _ ih => exact ih.push
  | closeFrame _ ih => exact ih.pop
  | beginCall _ harguments hcheck hn ih =>
    have hdata := isData_of_checkArguments ih harguments hcheck
    have hk := wellFormed_of_keeps (each_eval_keeps _ _) ih (by rw [harguments]; rfl)
    exact bindParameters_wellFormed hdata hk.enterCall hn
  | endCall _ ih => exact ih.exitCall

/-! ## Running a program -/

theorem declareItem_keeps (steps : Nat) (i : Item) : (declareItem steps i).Keeps False := by
  cases i with
  | global d => exact execDeclaration_keeps steps d
  | function f =>
    refine Run.keeps_of_simulated fun s => Run.Simulated.locate ?_ f.lexeme
    split
    · exact Run.simulated_fail _
    · split
      · exact Run.simulated_fail _
      · exact coupling_keptSince.declare id _ _

theorem declareItem_reaches {i : Item} (hi : i ∈ p.items) (hm : p.Reaches console m)
    (htop : m.scope.current = []) (hn : (declareItem steps i m).machine? = some n) :
    p.Reaches console n := by
  cases i with
  | function f => exact .function hm hi htop hn
  | global d => exact .declaration hm (Or.inl hi) hn

theorem declareItems_reaches {is : List Item} (his : ∀ i ∈ is, i ∈ p.items)
    (hm : p.Reaches console m) (hvalid : m.scope.Valid) (htop : m.scope.current = [])
    (hn : (declareItems steps is m).machine? = some n) : p.Reaches console n := by
  induction is generalizing m with
  | nil =>
    cases hn
    exact hm
  | cons i rest ih =>
    obtain ⟨hi, hrest⟩ := List.forall_mem_cons.1 his
    rcases Run.bind_machine? hn with hn | ⟨_, k, hk, hn⟩
    · exact declareItem_reaches hi hm htop hn
    · have hk : (declareItem steps i m).machine? = some k := by rw [hk]; rfl
      have hkept := declareItem_keeps steps i m k hvalid hk
      -- an item leaves the innermost frame as it was, so the next one is declared outside as well
      have htop' : k.scope.current = [] := hkept.current.eq_nil htop
      exact ih hrest (declareItem_reaches hi hm htop hk) (hkept.valid hvalid) htop' hn

theorem callMain_reaches (hm : p.Reaches console m)
    (hn : (callMain steps m).machine? = some n) : p.Reaches console n := by
  unfold callMain at hn
  split at hn
  · cases hn
    exact hm
  · next f _ =>
    have hcall : ∀ o, invoke steps f [] m = o → o.machine? = some n → p.Reaches console n := by
      rintro o rfl ho
      exact .call hm ho
    cases hinvoke : invoke steps f [] m with
    | done v k =>
      refine hcall _ hinvoke ?_
      rw [hinvoke] at hn
      cases v <;> exact hn
    | failed failure k =>
      rw [hinvoke] at hn
      exact hcall _ hinvoke hn
    | unfinished =>
      rw [hinvoke] at hn
      cases hn

theorem flushed_machine? {r : Run α} (hn : (r.flushed m).machine? = some n) :
    (r m).machine? = some n := by
  unfold Run.flushed at hn
  cases hr : r m with
  | done value k =>
    rw [hr] at hn
    dsimp only at hn
    split at hn <;> exact hn
  | failed failure k =>
    rw [hr] at hn
    exact hn
  | unfinished =>
    rw [hr] at hn
    cases hn

/-- A run of a program ends in a reachable machine. -/
theorem Program.run_reaches (hn : (p.run steps (.initial console)).machine? = some n) :
    p.Reaches console n := by
  have hdeclared : ∀ {k}, (declareItems steps p.items (.initial console)).machine? = some k →
      p.Reaches console k :=
    declareItems_reaches (fun _ hi => hi) .start Scope.wellFormed_initial.valid rfl
  rcases Run.bind_machine? (flushed_machine? hn) with hn | ⟨_, k, hk, hn⟩
  · exact hdeclared hn
  · exact callMain_reaches (hdeclared (by rw [hk]; rfl)) hn

/-- The store is well-formed at all times while a parsed program runs, and when it ends: the root
frame binds each built-in name to its own declaration, functions are bound in the root frame only
and under their own names, and everything else that is bound in any frame is a scalar, or an array
that is non-empty at each level, rectangular and of one scalar leaf type.  `void` is bound nowhere.
-/
theorem run_store_wellFormed {source : String} (hp : Program.ofSource source = .ok p)
    (console : Console) :
    (∀ m, p.Reaches console m →
      m.scope.WellFormed ∧ ∀ f ∈ m.scope.frames, ∀ name, f.find? name ≠ some .void) ∧
    ∀ steps n, (p.run steps (.initial console)).machine? = some n → p.Reaches console n := by
  refine ⟨fun m hm => ?_, fun steps n hn => p.run_reaches hn⟩
  have hwf := hm.wellFormed fun d hd => Program.declares_valueType hp hd
  exact ⟨hwf, fun f hf name => hwf.ne_void hf name⟩

/-- A program with a global array that a function stores into. -/
theorem global_store_wellFormed :
    let source := "int a[2]; int main() \x7b a[1] = 7; return a[1]; \x7d"
    let console : Console := ⟨⟨[]⟩, .unlimited⟩
    ∃ p n, Program.ofSource source = .ok p ∧
      (p.run 8 (.initial console)).machine? = some n ∧ p.Reaches console n ∧
      n.scope.WellFormed ∧ ∀ f ∈ n.scope.frames, ∀ name, f.find? name ≠ some .void := by
  intro source console
  have hends : ((Program.ofSource source).toOption.bind
      fun p => (p.run 8 (.initial console)).machine?).isSome = true := by decide +kernel
  cases hp : Program.ofSource source with
  | error e =>
    rw [hp] at hends
    cases hends
  | ok p =>
    rw [hp] at hends
    obtain ⟨n, hn⟩ := Option.isSome_iff_exists.1 hends
    obtain ⟨hwf, hreaches⟩ := run_store_wellFormed hp console
    exact ⟨p, n, rfl, hn, hreaches 8 n hn, hwf n (hreaches 8 n hn)⟩

end MiniC
