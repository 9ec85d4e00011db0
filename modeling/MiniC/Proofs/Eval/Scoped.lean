import MiniC.Proofs.Eval.Reachable
import MiniC.Proofs.Eval.Resolved

/-!
# Lexical scoping is sound

A scoped program never fails for a name that is not declared or declared twice.  First its items
are declared, each after those that it can use; then every function finds the built-in names, all
items and its own names.  Main statement: `scoped_run_resolves`.
-/

namespace MiniC

variable {p : Program} (steps : Nat)

/-! ## Functions of a scoped program -/

theorem Program.ScopedItems.function {earlier : List String} {items : List Item}
    (h : p.ScopedItems earlier items) {f : FunctionDecl} (hf : .function f ∈ items) :
    f.returnDims = 0 ∧ f.Scoped p.globals := by
  induction items generalizing earlier with
  | nil => cases hf
  | cons i rest ih =>
    rcases List.mem_cons.1 hf with rfl | hrest
    · exact h.1
    · exact ih h.2 hrest

theorem Program.Scoped.knows (hp : p.Scoped) (hvalued : ∀ i ∈ p.items, i.Valued)
    {f : FunctionDecl} (hf : p.Knows f) :
    f.Scoped p.globals ∧ ∀ s, f.Contains s → s.Valued := by
  rcases hf with ⟨b, rfl⟩ | hf
  · refine ⟨b.scoped_declaration p.globals, fun s ⟨body, l, hbody, _⟩ => ?_⟩
    cases hbody
  · exact ⟨(hp.items.function hf).2, hvalued _ hf⟩

/-- A known function under a name that no function of the program has is a built-in one. -/
theorem Program.Knows.builtin {f : FunctionDecl} (hf : p.Knows f)
    (hname : f.name ∉ p.functionNames) : ∃ b : Builtin, f = b.declaration :=
  hf.resolve_right fun hitem => hname <|
    List.mem_map_of_mem (List.mem_filterMap.2 ⟨.function f, hitem, rfl⟩)

/-! ## Declaring items -/

/-- Some items are declared: the names are bound in the root frame, and there is no other frame. -/
def Program.Declared (p : Program) (names : List String) (s : Scope) : Prop :=
  p.Models [] ⟨names, names⟩ s ∧ s.current = []

theorem Builtin.not_isName {name : String} (h : name ∉ Builtin.names) :
    ¬ Builtin.isName name = true := by
  intro hname
  obtain ⟨b, hb⟩ := Option.isSome_iff_exists.1 hname
  unfold Builtin.ofName? at hb
  have hfound := List.find?_some hb
  simp only [beq_iff_eq] at hfound
  subst hfound
  exact h (List.mem_map_of_mem (List.mem_of_find?_eq_some hb))

theorem declareFunction_resolves {f : FunctionDecl} {names : List String} (hf : p.Knows f)
    (hreturns : f.returnDims = 0) (hbuiltin : f.name ∉ Builtin.names) (hfresh : f.name ∉ names) :
    (declareFunction f).Resolves (p.Declared names) fun _ =>
      p.Models [] ⟨f.name :: names, f.name :: names⟩ := by
  unfold declareFunction
  rw [if_neg (by omega), if_neg (Builtin.not_isName hbuiltin)]
  exact (Run.resolves_changeScope fun s ⟨hs, htop⟩ =>
    hs.declare hfresh (Or.inr ⟨htop, f, rfl, rfl, hf⟩)).locate f.lexeme

/-- An item with a new name, after items that it can use. -/
theorem declareItem_resolves {i : Item} {names : List String} (hi : i ∈ p.items)
    (hvalued : i.Valued) (hscoped : p.ScopedItem names i) (hbuiltin : i.name ∉ Builtin.names)
    (hfresh : i.name ∉ names) :
    (declareItem steps i).Resolves (p.Declared names) fun _ => p.Declared (i.name :: names) := by
  have hmodels : (declareItem steps i).Resolves (p.Declared names) fun _ =>
      p.Models [] ⟨i.name :: names, i.name :: names⟩ := by
    cases i with
    | function f => exact declareFunction_resolves (Or.inr hi) hscoped.1 hbuiltin hfresh
    | global d =>
      have huses : ∀ u ∈ d.uses,
          u.Allowed p (fun f => ∃ b : Builtin, f = b.declaration) ⟨names, names⟩ := by
        refine fun u hu => ⟨(hscoped u hu).1, fun name hname f hf hfname => ?_⟩
        exact hf.builtin (hfname ▸ (hscoped u hu).2 name hname)
      exact (execDeclaration_resolves (fun k _ => builtins_resolve k) hvalued huses hfresh).pre
        fun _ => And.left
  refine hmodels.post fun _ m n hm hn hs => ⟨hs, ?_⟩
  have hkept := declareItem_keeps steps i m n hm.1.wellFormed.valid (by rw [hn]; rfl)
  exact hkept.current.eq_nil hm.2

theorem declareItems_resolves {items : List Item} {earlier : List String}
    (hitems : ∀ i ∈ items, i ∈ p.items) (hvalued : ∀ i ∈ items, i.Valued)
    (hscoped : p.ScopedItems earlier items) (hdistinct : (earlier ++ items.map Item.name).Nodup)
    (hbuiltins : ∀ name ∈ Builtin.names, name ∈ earlier) :
    (declareItems steps items).Resolves (p.Declared earlier) fun _ s =>
      ∃ names, p.Declared names s ∧ ∀ name ∈ earlier ++ items.map Item.name, name ∈ names := by
  induction items generalizing earlier with
  | nil => exact Run.resolves_pure fun s hs => ⟨earlier, hs, by simp⟩
  | cons i rest ih =>
    obtain ⟨hi, hrest⟩ := List.forall_mem_cons.1 hitems
    obtain ⟨hivalued, hrestvalued⟩ := List.forall_mem_cons.1 hvalued
    obtain ⟨hiscoped, hrestscoped⟩ := hscoped
    have hdistinct' : ((i.name :: earlier) ++ rest.map Item.name).Nodup :=
      List.perm_middle.nodup_iff.1 hdistinct
    have hfresh : i.name ∉ earlier := fun hmem =>
      (List.nodup_cons.1 hdistinct').1 (List.mem_append_left _ hmem)
    have hdeclare := declareItem_resolves steps hi hivalued hiscoped
      (fun hmem => hfresh (hbuiltins _ hmem)) hfresh
    refine hdeclare.bind fun _ => ?_
    refine (ih hrest hrestvalued hrestscoped hdistinct' fun name hname =>
      List.mem_cons_of_mem _ (hbuiltins name hname)).mono fun _ s ⟨names, hs, hnames⟩ => ?_
    exact ⟨names, hs, fun name hname => hnames name (List.perm_middle.mem_iff.1 hname)⟩

/-! ## Running a program -/

theorem entryPoint_resolved {s : Scope} {f : Failure} (h : entryPoint s = .error f) :
    f.fault.kind.isNaming = false := by
  rcases entryPoint_error h with hfault | hfault | hfault | hfault <;> rw [hfault] <;> rfl

theorem callMain_resolves {globals : List String} {names : Names}
    (hcalls : p.CallsResolve globals p.Knows steps) :
    (callMain steps).Resolves (p.Models globals names) fun _ _ => True := by
  intro m hm
  unfold callMain
  cases hentry : entryPoint m.scope with
  | error f => exact .failed (entryPoint_resolved hentry)
  | ok f =>
    obtain ⟨hfind, hparameters⟩ := entryPoint_ok hentry
    have htakes : f.Takes [] := by
      refine ⟨by rw [hparameters]; rfl, fun b hb => ?_⟩
      rw [List.zip_nil_right] at hb
      cases hb
    have hinvoke := hcalls names f [] (hm.function hfind).1 htakes m hm
    dsimp only
    generalize invoke steps f [] m = o at hinvoke
    cases hinvoke with
    | unfinished => exact .unfinished
    | failed h => exact .failed h
    | @done v n h =>
      cases v with
      | int k => exact .done trivial
      | float _ | string _ | array _ | void | function _ => exact .failed rfl

theorem Run.Resolves.flushed {α : Type} {r : Run α} {P : Scope → Prop} {Q : α → Scope → Prop}
    (h : r.Resolves P Q) : r.flushed.Resolves P Q := by
  intro m hm
  have hr := h m hm
  unfold Run.flushed
  generalize r m = o at hr
  cases hr with
  | unfinished => exact .unfinished
  | failed h => exact .failed h
  | @done value n h =>
    have hflush := n.console.output.resolved_flush
    dsimp only
    generalize n.console.output.flush = e at hflush
    cases hflush with
    | ok _ => exact .done h
    | error h => exact .failed (FaultKind.not_isNaming h)

theorem Program.Scoped.run_resolves (hp : p.Scoped) (hvalued : ∀ i ∈ p.items, i.Valued) :
    (p.run steps).Resolves (p.Declared Builtin.names) fun _ _ => True := by
  have hcalls := invoke_resolves (fun f hf => hp.knows hvalued hf) steps
  have hdeclare := declareItems_resolves steps (fun _ hi => hi) hvalued hp.items
    hp.distinct fun _ hname => hname
  refine Run.Resolves.flushed (hdeclare.bind fun _ => ?_)
  exact fun m ⟨names, ⟨hs, htop⟩, hnames⟩ =>
    callMain_resolves steps hcalls m (hs.ground htop hnames)

/-- Lexical scoping is sound.  If in a parsed program the top-level names are distinct and not
built-in, no function returns an array, every name that is used is in scope there, no scope declares
a name twice, no `for` loop declares a name after each round, and globals are initialized from
earlier items without calling a function of the program, then no run of it, whatever the input,
fails for a name that is not declared or declared twice. -/
theorem scoped_run_resolves {source : String} (hsource : Program.ofSource source = .ok p)
    (hp : p.Scoped) (console : Console) (steps : Nat) (f : Failure) (m : Machine)
    (hf : p.run steps (.initial console) = .failed f m) :
    f.fault.kind ≠ .identifierNotFound ∧ f.fault.kind ≠ .duplicateIdentifier := by
  have hrun := hp.run_resolves steps (Program.items_valued hsource)
    (.initial console) ⟨p.models_initial, rfl⟩
  rw [hf] at hrun
  cases hrun with
  | failed h => exact FaultKind.ne_of_isNaming h

/-- A global that is used in the dimension of another, a `for` loop whose body declares its counter
again, and a recursive function that declares its parameter again in a block.  The run fails, but
for a division by zero. -/
theorem shadowing_run_resolves :
    let globals := "int n = 2; int a[n]; "
    let function := "int f(int p) \x7b if (p) \x7b int p = n - 2; return f(p); \x7d return n / p; \x7d "
    let loop := "for (int i = 0; i < n; i += 1) \x7b int i = 1; a[i] = i; \x7d "
    let source := globals ++ function ++ "int main() \x7b " ++ loop ++ "return f(a[1]); \x7d"
    let console : Console := ⟨⟨[]⟩, .unlimited⟩
    ∃ p f m, Program.ofSource source = .ok p ∧ p.Scoped ∧
      p.run 20 (.initial console) = .failed f m ∧
      f.fault.kind ≠ .identifierNotFound ∧ f.fault.kind ≠ .duplicateIdentifier := by
  intro globals function loop source console
  have hends : ((Program.ofSource source).toOption.map fun p =>
      decide p.Scoped && !(p.run 20 (.initial console)).isDone &&
        (p.run 20 (.initial console)).machine?.isSome) = some true := by decide +kernel
  cases hsource : Program.ofSource source with
  | error e =>
    rw [hsource] at hends
    cases hends
  | ok p =>
    rw [hsource] at hends
    obtain ⟨⟨hp, hdone⟩, hm⟩ : (p.Scoped ∧ (p.run 20 (.initial console)).isDone = false) ∧
        (p.run 20 (.initial console)).machine?.isSome = true := by
      simpa using Option.some.inj hends
    cases hrun : p.run 20 (.initial console) with
    | done v n =>
      rw [hrun] at hdone
      cases hdone
    | unfinished =>
      rw [hrun] at hm
      cases hm
    | failed f m =>
      exact ⟨p, f, m, rfl, hp, hrun, scoped_run_resolves hsource hp console 20 f m hrun⟩

end MiniC
