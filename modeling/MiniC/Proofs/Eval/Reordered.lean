import MiniC.Proofs.Eval.Scoped
import MiniC.Proofs.Scope.SameBindings

/-!
# Reordering functions

Functions that stand next to each other among the items of a program can be permuted.  The root
frames of the two runs then list their bindings in different orders, which is all the difference
there is between them: `Machine.SameBindings` is a coupling.  Main statement: `run_reordered`.
-/

namespace MiniC

/-! ## Reordered items -/

/-- Items in another order: functions that stand next to each other are permuted, and everything
else is where it was. -/
inductive Item.Reordered : List Item → List Item → Prop
  | nil : Reordered [] []
  | global (d : Declaration) {is js : List Item} (rest : Reordered is js) :
      Reordered (.global d :: is) (.global d :: js)
  | functions {fs gs : List FunctionDecl} (perm : fs.Perm gs) {is js : List Item}
      (rest : Reordered is js) : Reordered (fs.map .function ++ is) (gs.map .function ++ js)

/-- The functions of a program can be told apart: they have distinct names, none of them built-in or
that of a variable, and none of them returns an array. -/
structure Program.FunctionsApart (p : Program) : Prop where
  distinct : p.functionNames.Nodup
  global : ∀ {d}, .global d ∈ p.items → d.target.name ∉ p.functionNames
  function : ∀ {f}, .function f ∈ p.items → f.returnDims = 0 ∧ f.name ∉ Builtin.names

namespace Item.Reordered

variable {is js : List Item}

theorem symm (h : Reordered is js) : Reordered js is := by
  induction h with
  | nil => exact .nil
  | global d _ ih => exact .global d ih
  | functions hperm _ ih => exact .functions hperm.symm ih

theorem perm (h : Reordered is js) : is.Perm js := by
  induction h with
  | nil => exact .nil
  | global d _ ih => exact ih.cons _
  | functions hperm _ ih => exact (hperm.map _).append ih

end Item.Reordered

theorem Program.functionNames_append (fs : List FunctionDecl) (is : List Item) :
    functionNames ⟨fs.map .function ++ is⟩ = fs.map FunctionDecl.name ++ functionNames ⟨is⟩ := by
  unfold functionNames
  rw [List.filterMap_append, List.map_append, List.filterMap_map]
  congr 2
  exact List.filterMap_some

theorem Program.name_mem_functionNames {p : Program} {f : FunctionDecl}
    (hf : .function f ∈ p.items) : f.name ∈ p.functionNames :=
  List.mem_map_of_mem (List.mem_filterMap.2 ⟨.function f, hf, rfl⟩)

namespace Program.FunctionsApart

variable {is js : List Item}

theorem of_perm (h : FunctionsApart ⟨is⟩) (hperm : is.Perm js) : FunctionsApart ⟨js⟩ := by
  have hnames : (functionNames ⟨is⟩).Perm (functionNames ⟨js⟩) :=
    (hperm.filterMap Item.function?).map FunctionDecl.name
  refine ⟨hnames.nodup_iff.1 h.distinct, ?_, ?_⟩
  · intro d hd hmem
    exact h.global (hperm.mem_iff.2 hd) (hnames.mem_iff.2 hmem)
  · intro f hf
    exact h.function (hperm.mem_iff.2 hf)

theorem sublist (h : FunctionsApart ⟨js⟩) (hsub : is.Sublist js) : FunctionsApart ⟨is⟩ := by
  have hnames : (functionNames ⟨is⟩).Sublist (functionNames ⟨js⟩) :=
    (hsub.filterMap Item.function?).map FunctionDecl.name
  refine ⟨h.distinct.sublist hnames, ?_, ?_⟩
  · intro d hd hmem
    exact h.global (hsub.subset hd) (hnames.subset hmem)
  · intro f hf
    exact h.function (hsub.subset hf)

/-- Functions in front of some items are told apart from one another and from those behind. -/
theorem functions {fs : List FunctionDecl} (h : FunctionsApart ⟨fs.map .function ++ is⟩) :
    (fs.map FunctionDecl.name).Nodup ∧
      ∀ {g}, .function g ∈ is → g.name ∉ fs.map FunctionDecl.name := by
  have hdistinct := h.distinct
  rw [functionNames_append, List.nodup_append] at hdistinct
  obtain ⟨hfs, -, hne⟩ := hdistinct
  exact ⟨hfs, fun {g} hg hmem => hne _ hmem _ (name_mem_functionNames (p := ⟨is⟩) hg) rfl⟩

end Program.FunctionsApart

/-! ## The coupling -/

theorem coupling_sameBindings :
    Coupling (fun _ : Unit => True) fun _ => Machine.SameBindings where
  find h name := h.scope.find?_eq name
  console h := h.console
  withConsole h console := ⟨h.scope, rfl⟩
  store h _ _ path _ _ _ updated _ _ _ := ⟨h.scope.modify _ (·.setAt path updated), h.console⟩
  declare _ name v := by
    apply Run.simulated_changeScope
    intro m m' h
    rcases h.scope.declare name v with hfault | ⟨s, t, hs, ht, hst⟩
    · exact Or.inl hfault
    · exact Or.inr ⟨s, t, hs, ht, hst, h.console⟩
  frame h := ⟨(), trivial, ⟨h.scope.push, h.console⟩, fun h => ⟨h.scope.pop, h.console⟩⟩
  call h := ⟨(), trivial, ⟨h.scope.enterCall, h.console⟩, fun h => ⟨h.scope.exitCall, h.console⟩⟩

variable {m m' : Machine}

theorem execDeclaration_sameBindings (steps : Nat) (d : Declaration) :
    Run.Simulated Machine.SameBindings (execDeclaration (eval steps) d)
      (execDeclaration (eval steps) d) := by
  have heval := (coupling_sameBindings.evaluates (Nat.le_refl steps)).eval (w := ())
  exact Coupling.declaration (w := ()) heval coupling_sameBindings trivial d

/-- The entry point depends on what is bound to its name. -/
theorem Coupling.callMain {W : Type} {opened : W → Prop} {R : W → Machine → Machine → Prop} {w : W}
    (hc : Coupling opened R) (steps : Nat) :
    Run.Simulated (R w) (callMain steps) (callMain steps) := by
  intro m m' h
  have hentry : entryPoint m.scope = entryPoint m'.scope := by
    unfold entryPoint
    rw [hc.find h "main"]
  unfold MiniC.callMain
  rw [← hentry]
  cases entryPoint m.scope with
  | error f => exact .failed f h
  | ok main =>
    have hinvoke := (hc.evaluates (Nat.le_refl steps)).invoke main [] h
    dsimp only
    generalize invoke steps main [] m = o at hinvoke
    generalize invoke steps main [] m' = o' at hinvoke
    cases hinvoke with
    | unfinished _ => exact .unfinished _
    | failed f h => exact .failed f h
    | done v h =>
      cases v with
      | int n => exact .done n h
      | float _ | string _ | array _ | void | function _ => exact .failed _ h

/-- Flushing depends on the console. -/
theorem Run.simulated_flushed {α : Type} {R : Machine → Machine → Prop} {r r' : Run α}
    (hR : ∀ {n n'}, R n n' → n.console = n'.console) (h : Outcome.Simulated R (r m) (r' m')) :
    Outcome.Simulated R (r.flushed m) (r'.flushed m') := by
  unfold Run.flushed
  generalize r m = o at h
  generalize r' m' = o' at h
  cases h with
  | unfinished _ => exact .unfinished _
  | failed f h => exact .failed f h
  | @done value n n' h =>
    dsimp only
    rw [← hR h]
    cases n.console.output.flush with
    | ok _ => exact .done value h
    | error fault => exact .failed _ h

/-! ## Declaring functions -/

/-- A machine with functions declared in the root frame besides. -/
def Machine.withFunctions (m : Machine) (fs : List FunctionDecl) : Machine :=
  { m with scope := { m.scope with root := m.scope.root.withFunctions fs } }

theorem Machine.SameBindings.withFunctions (h : m.SameBindings m') {fs gs : List FunctionDecl}
    (hperm : fs.Perm gs) (hdistinct : (fs.map FunctionDecl.name).Nodup) :
    (m.withFunctions fs).SameBindings (m'.withFunctions gs) where
  scope := ⟨h.scope.root.withFunctions_perm hperm hdistinct, h.scope.current, h.scope.callers⟩
  console := h.console

/-- A machine in which functions can be declared outside all calls and blocks: they return no
arrays, and their names are distinct, not built-in and not bound yet. -/
structure Machine.Accepts (m : Machine) (fs : List FunctionDecl) : Prop where
  top : m.scope.current = []
  declarable : ∀ f ∈ fs, f.returnDims = 0 ∧ f.name ∉ Builtin.names
  distinct : (fs.map FunctionDecl.name).Nodup
  new : ∀ f ∈ fs, m.scope.root.binds f.name = false

/-- Whether functions can be declared does not depend on their order or on that of bindings. -/
theorem Machine.Accepts.perm {fs gs : List FunctionDecl} (h : m.Accepts fs)
    (hm : m.SameBindings m') (hperm : fs.Perm gs) : m'.Accepts gs where
  top := hm.scope.current ▸ h.top
  declarable f hf := h.declarable f (hperm.mem_iff.2 hf)
  distinct := (hperm.map FunctionDecl.name).nodup_iff.1 h.distinct
  new f hf := by
    rw [← hm.scope.root.binds_eq f.name]
    exact h.new f (hperm.mem_iff.2 hf)

/-- After the first of some functions the others can be declared. -/
theorem Machine.Accepts.tail {f : FunctionDecl} {rest : List FunctionDecl}
    (h : m.Accepts (f :: rest)) : (m.withFunctions [f]).Accepts rest := by
  have hdistinct := h.distinct
  rw [List.map_cons, List.nodup_cons] at hdistinct
  refine ⟨h.top, (List.forall_mem_cons.1 h.declarable).2, hdistinct.2, fun g hg => ?_⟩
  have hne : f.name ≠ g.name := by
    intro hname
    exact hdistinct.1 (hname ▸ List.mem_map_of_mem hg)
  refine (Frame.binds_insert m.scope.root f.name (.function f) g.name).trans ?_
  simp [h.new g (List.mem_cons_of_mem f hg), hne]

theorem declareFunction_accepted {f : FunctionDecl} {rest : List FunctionDecl}
    (h : m.Accepts (f :: rest)) : declareFunction f m = .done () (m.withFunctions [f]) := by
  obtain ⟨hreturns, hbuiltin⟩ := h.declarable f List.mem_cons_self
  have hdeclare : m.scope.declare f.name (.function f) = .ok (m.withFunctions [f]).scope := by
    have hnew := h.new f List.mem_cons_self
    have htop := h.top
    obtain ⟨⟨root, current, callers⟩, console⟩ := m
    cases htop
    exact if_neg (Bool.eq_false_iff.1 hnew)
  unfold declareFunction
  rw [if_neg (by omega), if_neg (Builtin.not_isName hbuiltin)]
  unfold Run.locate Run.changeScope
  dsimp only
  rw [hdeclare]
  rfl

/-- Functions are declared one after the other, and none of them fails. -/
theorem declareItems_functions (steps : Nat) {fs : List FunctionDecl} (is : List Item)
    (h : m.Accepts fs) :
    declareItems steps (fs.map .function ++ is) m = declareItems steps is (m.withFunctions fs) := by
  induction fs generalizing m with
  | nil => rfl
  | cons f rest ih =>
    refine (Run.bind_of_done (declareFunction_accepted h) _).trans ?_
    exact ih h.tail

/-! ## Declaring items in another order -/

/-- Before some items are declared: there is no frame but the root, and their functions are not
bound in it. -/
structure Machine.Awaits (m : Machine) (is : List Item) : Prop where
  valid : m.scope.Valid
  top : m.scope.current = []
  new : ∀ {f}, .function f ∈ is → m.scope.root.binds f.name = false

/-- Without a frame above the root there is no call either. -/
theorem Scope.chain_eq_root {s : Scope} (hvalid : s.Valid) (htop : s.current = []) :
    s.chain = [s.root] := by
  obtain ⟨root, current, callers⟩ := s
  cases htop
  cases callers with
  | nil => rfl
  | cons caller callers => exact absurd rfl hvalid.1

/-- Declaring a variable outside all calls and blocks binds no other name. -/
theorem execDeclaration_root {d : Declaration} {steps : Nat} {n : Machine}
    (hvalid : m.scope.Valid) (htop : m.scope.current = [])
    (hn : (execDeclaration (eval steps) d m).machine? = some n) :
    n.scope.Valid ∧ n.scope.current = [] ∧
      ∀ name, m.scope.root.binds name = false → d.target.name ≠ name →
        n.scope.root.binds name = false := by
  have hkept := execDeclaration_keeps steps d m n hvalid hn
  have htop' := hkept.current.eq_nil htop
  have hvalid' := hkept.valid hvalid
  refine ⟨hvalid', htop', fun name hunbound hne => ?_⟩
  have hnames := (execDeclaration_balanced d hvalid hn).names
  rw [Scope.chain_eq_root hvalid htop, Scope.chain_eq_root hvalid' htop'] at hnames
  cases hnames with
  | cons head _ _ =>
    rw [head name, hunbound]
    unfold Outcome.added
    split <;> simp [hne]

/-- A variable leaves the functions behind it to be declared. -/
theorem Machine.Awaits.global {d : Declaration} {is : List Item} {steps : Nat} {n : Machine}
    (h : m.Awaits (.global d :: is)) (hapart : Program.FunctionsApart ⟨.global d :: is⟩)
    (hn : (execDeclaration (eval steps) d m).machine? = some n) : n.Awaits is := by
  obtain ⟨hvalid, htop, hunbound⟩ := execDeclaration_root h.valid h.top hn
  refine ⟨hvalid, htop, fun {f} hf => ?_⟩
  have hmem : .function f ∈ Item.global d :: is := List.mem_cons_of_mem _ hf
  refine hunbound f.name (h.new hmem) fun hname => ?_
  apply hapart.global List.mem_cons_self
  rw [hname]
  exact Program.name_mem_functionNames hmem

section Functions

variable {fs : List FunctionDecl} {is : List Item}
  (hapart : Program.FunctionsApart ⟨fs.map .function ++ is⟩)

include hapart

theorem Machine.Awaits.accepts (h : m.Awaits (fs.map .function ++ is)) : m.Accepts fs := by
  have hmem : ∀ {f}, f ∈ fs → .function f ∈ fs.map Item.function ++ is := fun hf =>
    List.mem_append_left _ (List.mem_map_of_mem hf)
  exact ⟨h.top, fun f hf => hapart.function (hmem hf), hapart.functions.1, fun f hf =>
    h.new (hmem hf)⟩

/-- Functions leave those behind them to be declared. -/
theorem Machine.Awaits.functions (h : m.Awaits (fs.map .function ++ is)) :
    (m.withFunctions fs).Awaits is := by
  refine ⟨h.valid, h.top, fun {g} hg => ?_⟩
  refine (Frame.binds_withFunctions m.scope.root fs g.name).trans ?_
  simp [h.new (List.mem_append_right _ hg), hapart.functions.2 hg]

end Functions

theorem declareItems_reordered (steps : Nat) {is js : List Item} (h : Item.Reordered is js)
    (hapart : Program.FunctionsApart ⟨is⟩) (hm : m.SameBindings m') (hawaits : m.Awaits is) :
    Outcome.Simulated Machine.SameBindings (declareItems steps is m) (declareItems steps js m') := by
  induction h generalizing m m' with
  | nil => exact .done () hm
  | @global d is js _ ih =>
    have hd := execDeclaration_sameBindings steps d hm
    show Outcome.Simulated _ (Run.bind _ _ m) (Run.bind _ _ m')
    unfold Run.bind declareItem
    dsimp only
    generalize ho : execDeclaration (eval steps) d m = o at hd
    generalize execDeclaration (eval steps) d m' = o' at hd
    cases hd with
    | unfinished _ => exact .unfinished _
    | failed f h => exact .failed f h
    | @done _ n n' h =>
      have hn : (execDeclaration (eval steps) d m).machine? = some n := by rw [ho]; rfl
      exact ih (hapart.sublist (List.sublist_cons_self _ _)) h (hawaits.global hapart hn)
  | @functions fs gs hperm is js _ ih =>
    have haccepts := hawaits.accepts hapart
    rw [declareItems_functions steps is haccepts,
      declareItems_functions steps js (haccepts.perm hm hperm)]
    exact ih (hapart.sublist (List.sublist_append_right _ _))
      (hm.withFunctions hperm haccepts.distinct) (hawaits.functions hapart)

/-! ## Running a program -/

/-- Nothing but the built-in functions is bound in the beginning. -/
theorem awaits_initial {p : Program} (hapart : p.FunctionsApart) (console : Console) :
    (Machine.initial console).Awaits p.items where
  valid := Scope.wellFormed_initial.valid
  top := rfl
  new {f} hf := by
    refine Bool.eq_false_iff.2 fun hbinds => ?_
    obtain ⟨v, hv⟩ := Frame.binds_iff.1 hbinds
    obtain ⟨b, hb, hname, -⟩ := Scope.find?_initial hv
    apply (hapart.function hf).2
    rw [← hname]
    exact List.mem_map_of_mem hb

theorem run_simulated {p q : Program} (h : Item.Reordered p.items q.items)
    (hapart : p.FunctionsApart) (steps : Nat) (console : Console) :
    Outcome.Simulated Machine.SameBindings (p.run steps (.initial console))
      (q.run steps (.initial console)) := by
  have hitems := declareItems_reordered steps h hapart (.refl _) (awaits_initial hapart console)
  refine Run.simulated_flushed Machine.SameBindings.console (Run.simulated_bind hitems fun _ => ?_)
  exact coupling_sameBindings.callMain (w := ()) steps

/-- The order of neighbouring functions does not matter.  Let functions that stand next to each other
be permuted in a program whose functions have distinct names, none of them built-in or that of a
global variable, and return no arrays.  Then both programs run alike on every console, under any
number of steps: to the same result or the same failure, or to none, with the same console, and with
each name bound to the same in the root frame. -/
theorem run_reordered {p q : Program} (h : Item.Reordered p.items q.items)
    (hapart : p.FunctionsApart) (steps : Nat) (console : Console) :
    (p.run steps (.initial console)).Alike
      (fun n n' => n.console = n'.console ∧
        ∀ name, n.scope.root.find? name = n'.scope.root.find? name)
      (q.run steps (.initial console)) := by
  have hapart' : q.FunctionsApart := hapart.of_perm h.perm
  have hforward := run_simulated h hapart steps console
  have hbackward := run_simulated h.symm hapart' steps console
  exact (hforward.mono fun n n' hn => ⟨hn.console, hn.scope.root⟩).alike hbackward

/-- A global variable that is initialized by calling one of the functions in front of it, which calls
the other. -/
theorem neighbours_reordered :
    let l := Lexeme.absent
    let function (name : String) (e : Expr) : FunctionDecl :=
      ⟨.int, name, 0, [], .block [.returnValue (some e) l] l, l⟩
    let one := function "one" (.literal (.int 1) l)
    let two := function "two" (.binary .add (.call "one" [] l) (.call "one" [] l) l)
    let main := function "main" (.binary .add (.variable "x" [] l) (.call "four" [] l) l)
    let four := function "four" (.binary .add (.call "two" [] l) (.call "two" [] l) l)
    let x : Declaration := ⟨.int, ⟨"x", [], l⟩, some (.call "two" [] l)⟩
    let p : Program := ⟨[.function one, .function two, .global x, .function main, .function four]⟩
    let q : Program := ⟨[.function two, .function one, .global x, .function four, .function main]⟩
    let console : Console := ⟨⟨[]⟩, .unlimited⟩
    Item.Reordered p.items q.items ∧ p.FunctionsApart ∧
      (p.run 20 (.initial console)).value? = some 6 ∧
      (p.run 20 (.initial console)).Alike
        (fun n n' => n.console = n'.console ∧
          ∀ name, n.scope.root.find? name = n'.scope.root.find? name)
        (q.run 20 (.initial console)) := by
  intro l function one two main four x p q console
  have hreordered : Item.Reordered p.items q.items :=
    .functions (.swap two one []) (.global x (.functions (.swap four main []) .nil))
  have hapart : p.FunctionsApart := by
    refine ⟨by decide, fun {d} hd => ?_, fun {f} hf => ?_⟩
    · obtain rfl : d = x := by simpa [p] using hd
      decide
    · have hmem : f = one ∨ f = two ∨ f = main ∨ f = four := by simpa [p] using hf
      rcases hmem with rfl | rfl | rfl | rfl <;> decide
  exact ⟨hreordered, hapart, by decide +kernel, run_reordered hreordered hapart 20 console⟩

end MiniC
