import MiniC.Proofs.Eval.Reachable
import MiniC.Proofs.Scope.Sized

/-!
# The sizes of declared arrays

A declaration without an initial value is checked: the array has as many leaves as its lengths
multiply to, and if these are more than `Fault.maxLeaves`, the declaration is refused before
anything is built.  An initial value is bound as it is, and a list of arrays has the leaves of all
of them, so it can have any number of leaves.  This is the only way in which an array gets too
large: in every state of a run each variable is within the limit, or has as many leaves as a
declaration with an initial value gave to a variable of that name.  Main statement:
`declared_arrays_limited`.
-/

namespace MiniC

variable {d : Declaration} {dims : List (Option Nat)} {lengths : List Nat} {steps : Nat}
  {m k n : Machine} {v : Value}

/-! ## Declarations without an initial value -/

/-- Without an initial value an array is filled with defaults, and a scalar as an array without
dimensions is. -/
theorem initialValue_default (h : allLengths? dims = some lengths) :
    initialValue d dims none = Value.filled lengths (Value.defaultFor d.type) := by
  cases dims with
  | nil =>
    cases h
    rfl
  | cons dim dims => simp only [initialValue, h]

theorem allLengths?_of_default (h : initialValue d dims none = .ok v) :
    ∃ lengths, allLengths? dims = some lengths := by
  cases hlengths : allLengths? dims with
  | some lengths => exact ⟨lengths, rfl⟩
  | none =>
    cases dims with
    | nil => cases hlengths
    | cons dim dims =>
      simp only [initialValue, hlengths] at h
      cases h

theorem declaredValue_default (hinitial : d.initial = none)
    (hdims : Run.each (evalDimension (eval steps)) d.target.indices m = .done dims k) :
    Run.declaredValue (eval steps) d m = Run.lift (initialValue d dims none) k := by
  unfold Run.declaredValue
  rw [hinitial, Run.bind_of_done hdims]
  rfl

theorem lengths_pos
    (hdims : Run.each (evalDimension (eval steps)) d.target.indices m = .done dims k)
    (hlengths : allLengths? dims = some lengths) : ∀ length ∈ lengths, 0 < length :=
  fun length hlength => dimensions_pos hdims length (allLengths?_mem hlengths length hlength)

/-- A declaration without an initial value is within the limit, or refused. -/
theorem declaration_limited (hd : d.Valued) (hinitial : d.initial = none)
    (hdims : Run.each (evalDimension (eval steps)) d.target.indices m = .done dims k)
    (hlengths : allLengths? dims = some lengths) :
    if Value.volume lengths ≤ Fault.maxLeaves then
      ∃ v, Run.declaredValue (eval steps) d m = .done v k ∧ v.leaves = Value.volume lengths
    else
      execDeclaration (eval steps) d m =
        .failed ⟨.arrayTooLarge lengths, some d.target.lexeme⟩ k := by
  have hpos := lengths_pos hdims hlengths
  have hdeclared := declaredValue_default hinitial hdims
  rw [initialValue_default hlengths] at hdeclared
  split
  · next hle =>
    have hfilled := Value.filled_of_le hpos (Value.defaultFor d.type) hle
    have hleaf := Value.shaped_defaultFor hd.1 hd.2
    rw [hfilled] at hdeclared
    exact ⟨_, hdeclared, (Value.leaves_of_filled hpos hleaf hfilled).1⟩
  · next hlarge =>
    rw [Value.filled_of_lt hpos _ (Nat.lt_of_not_le hlarge)] at hdeclared
    rw [execDeclaration_eq]
    exact Run.locate_of_failed (Run.bind_of_failed hdeclared _) d.target.lexeme

/-- What a declaration without an initial value gives is within the limit. -/
theorem leaves_of_default (hd : d.Valued) (hinitial : d.initial = none)
    (h : Run.declaredValue (eval steps) d m = .done v n) : v.leaves ≤ Fault.maxLeaves := by
  obtain ⟨dims, k, hdims, -⟩ := Run.bind_done h
  rw [declaredValue_default hinitial hdims] at h
  obtain ⟨hv, -⟩ := Run.lift_done h
  obtain ⟨lengths, hlengths⟩ := allLengths?_of_default hv
  rw [initialValue_default hlengths] at hv
  have hpos := lengths_pos hdims hlengths
  obtain ⟨hleaves, hle⟩ := Value.leaves_of_filled hpos (Value.shaped_defaultFor hd.1 hd.2) hv
  rwa [hleaves]

/-! ## Reachable machines -/

/-- While the program runs, a declaration with an initial value gives a variable of the name a value
with so many leaves. -/
def Program.Initializes (p : Program) (console : Console) (name : String) (count : Nat) : Prop :=
  ∃ d steps m v n, p.Reaches console m ∧ p.Declares d ∧ d.initial ≠ none ∧ d.target.name = name ∧
    Run.declaredValue (eval steps) d m = .done v n ∧ v.leaves = count

/-- What a variable can have for its number of leaves. -/
def Program.Allows (p : Program) (console : Console) (name : String) (count : Nat) : Prop :=
  count ≤ Fault.maxLeaves ∨ p.Initializes console name count

variable {p : Program} {console : Console}

theorem Program.Reaches.allows (hm : p.Reaches console m) (hd : p.Declares d) (hvalued : d.Valued)
    (h : Run.declaredValue (eval steps) d m = .done v n) :
    p.Allows console d.target.name v.leaves := by
  cases hinitial : d.initial with
  | none => exact Or.inl (leaves_of_default hvalued hinitial h)
  | some e =>
    have hne : d.initial ≠ none := by
      rw [hinitial]
      exact Option.some_ne_none e
    exact Or.inr ⟨d, steps, m, v, n, hm, hd, hne, rfl, h, rfl⟩

theorem execDeclaration_sized (hp : ∀ d, p.Declares d → d.Valued) (hm : p.Reaches console m)
    (hsized : m.scope.Sized (p.Allows console)) (hd : p.Declares d)
    (hn : (execDeclaration (eval steps) d m).machine? = some n) :
    n.scope.Sized (p.Allows console) := by
  have hwf := hm.wellFormed hp
  rcases execDeclaration_machine? hwf.valid hn with hkept | ⟨v, k, hv, hkept, hdeclare⟩
  · exact hsized.kept hwf hkept
  · exact (hsized.kept hwf hkept).declare (hm.allows hd (hp d hd) hv) hdeclare

/-- Parameters are bound in the first frame of a call. -/
theorem bindParameters_sized {P : String → Nat → Prop} {bindings : List (Parameter × Value)}
    (hsized : m.scope.Sized P) (hn : (bindParameters bindings m.inCall).machine? = some n) :
    n.scope.Sized P := by
  have hkept := bindParameters_machine? (I := fun s : Scope =>
    s.Sized P ∧ s.current.length = 1 ∧ s.callers ≠ []) ?_ ?_ hn
  · exact hkept.1
  · rintro b - s t ⟨hs, hcurrent, hcallers⟩ ht
    obtain ⟨hframes, hcurrent', hcallers'⟩ := Scope.declaringFrames_declare hcurrent hcallers ht
    refine ⟨?_, hcurrent', hcallers' ▸ hcallers⟩
    unfold Scope.Sized
    rwa [hframes]
  · exact ⟨hsized.enterCall, rfl, List.cons_ne_nil _ _⟩

/-- The limit in every state: it can be exceeded where an initial value exceeds it. -/
theorem Program.Reaches.sized (hp : ∀ d, p.Declares d → d.Valued) (h : p.Reaches console m) :
    m.scope.Sized (p.Allows console) := by
  have hscalar : ∀ name, p.Allows console name 1 := fun _ => Or.inl (by decide)
  induction h with
  | start => exact Scope.sized_initial hscalar
  | function hm hf htop hn ih =>
    rcases declareFunction_machine? hn with rfl | hdeclare
    · exact ih
    · -- a function counts as one leaf
      exact ih.declare (hscalar _) hdeclare
  | declaration hm hd hn ih => exact execDeclaration_sized hp hm ih hd hn
  | statement hm hs hn ih =>
    have hwf := hm.wellFormed hp
    rcases exec_machine? hwf.valid hn with hkept | ⟨d, steps, rfl, hdeclared⟩
    · exact ih.kept hwf hkept
    · exact execDeclaration_sized hp hm ih (Or.inr hs) hdeclared
  | expression hm hn ih =>
    have hwf := hm.wellFormed hp
    exact ih.kept hwf (eval_keeps _ _ _ _ hwf.valid hn)
  | call hm hn ih =>
    have hwf := hm.wellFormed hp
    exact ih.kept hwf (invoke_keeps _ _ _ _ _ hwf.valid hn)
  | openFrame hm ih => exact ih.push
  | closeFrame hm ih => exact ih.pop
  | beginCall hm harguments hcheck hn ih =>
    have hwf := hm.wellFormed hp
    have hk := each_eval_keeps _ _ _ _ hwf.valid (by rw [harguments]; rfl)
    exact bindParameters_sized (ih.kept hwf hk) hn
  | endCall hm ih => exact ih.exitCall

/-- The limit on the size of arrays holds for all that is declared without an initial value.  At all
times while a parsed program runs, a variable that is bound to more leaves than the limit allows has
as many leaves as an initial value that a variable of its name got; so if no initial value exceeds
the limit, no variable does.  A declaration without an initial value of which the dimensions
evaluate to some lengths gets as many leaves as these multiply to if that is within the limit, and
else fails at its name, in the state in which the dimensions were evaluated. -/
theorem declared_arrays_limited {source : String} (hp : Program.ofSource source = .ok p)
    (console : Console) :
    (∀ m, p.Reaches console m → ∀ f ∈ m.scope.declaringFrames, ∀ name v, f.find? name = some v →
      v.leaves ≤ Fault.maxLeaves ∨ p.Initializes console name v.leaves) ∧
    ∀ d, p.Declares d → d.initial = none → ∀ steps m dims k lengths,
      Run.each (evalDimension (eval steps)) d.target.indices m = .done dims k →
      allLengths? dims = some lengths →
      if Value.volume lengths ≤ Fault.maxLeaves then
        ∃ v, Run.declaredValue (eval steps) d m = .done v k ∧ v.leaves = Value.volume lengths
      else
        execDeclaration (eval steps) d m =
          .failed ⟨.arrayTooLarge lengths, some d.target.lexeme⟩ k := by
  have hvalued : ∀ d, p.Declares d → d.Valued := fun d hd => Program.declares_valueType hp hd
  refine ⟨fun m hm f hf name v hv => hm.sized hvalued f hf name v hv, ?_⟩
  intro d hd hinitial steps m dims k lengths hdims hlengths
  exact declaration_limited (hvalued d hd) hinitial hdims hlengths

/-- Whether a declaration without an initial value asks for an array of the lengths. -/
def Declaration.asksFor (d : Declaration) (lengths : List Nat) (m : Machine) : Bool :=
  d.initial.isNone &&
    (Run.each (evalDimension (eval 2)) d.target.indices m).value?.any
      (allLengths? · == some lengths)

theorem Declaration.of_asksFor (h : d.asksFor lengths m = true) :
    d.initial = none ∧ ∃ dims k,
      Run.each (evalDimension (eval 2)) d.target.indices m = .done dims k ∧
        allLengths? dims = some lengths := by
  obtain ⟨hinitial, hdims⟩ := Bool.and_eq_true_iff.1 h
  obtain ⟨dims, hvalue, hlengths⟩ := (Option.any_eq_true _ _).mp hdims
  obtain ⟨k, hdone⟩ := Outcome.value?_eq_some hvalue
  exact ⟨Option.isNone_iff_eq_none.1 hinitial, dims, k, hdone, beq_iff_eq.1 hlengths⟩

/-- Whether a program comes to a state in which a global variable is bound to a value of the shape,
and `check` holds of the state. -/
def Program.bindsGlobal (p : Program) (console : Console) (name : String) (shape : List Nat)
    (check : Machine → Bool) : Bool :=
  (p.run 9 (.initial console)).machine?.any fun n =>
    (n.scope.root.find? name).any (·.shape == shape) && check n

theorem Program.of_bindsGlobal {name : String} {shape : List Nat} {check : Machine → Bool}
    (h : p.bindsGlobal console name shape check = true) :
    ∃ n v, p.Reaches console n ∧ n.scope.root.find? name = some v ∧ v.shape = shape ∧
      check n = true := by
  obtain ⟨n, hn, h⟩ := (Option.any_eq_true _ _).mp h
  obtain ⟨hv, hcheck⟩ := Bool.and_eq_true_iff.1 h
  obtain ⟨v, hv, hshape⟩ := (Option.any_eq_true _ _).mp hv
  exact ⟨n, v, p.run_reaches hn, hv, beq_iff_eq.1 hshape, hcheck⟩

/-- A program that declares an array within the limit and one above it. -/
theorem second_array_too_large :
    let source := "int a[3]; int b[4096][4097]; int main() \x7b return 0; \x7d"
    let console : Console := ⟨⟨[]⟩, .unlimited⟩
    ∃ p m v d k, Program.ofSource source = .ok p ∧ p.Reaches console m ∧
      m.scope.root.find? "a" = some v ∧ v.shape = [3] ∧
      (v.leaves ≤ Fault.maxLeaves ∨ p.Initializes console "a" v.leaves) ∧
      p.Declares d ∧
      execDeclaration (eval 2) d m =
        .failed ⟨.arrayTooLarge [4096, 4097], some d.target.lexeme⟩ k := by
  intro source console
  have hends : ((Program.ofSource source).toOption.any fun p =>
      p.bindsGlobal console "a" [3] fun n => p.items.any fun
        | .global d => d.asksFor [4096, 4097] n
        | .function _ => false) = true := by decide +kernel
  obtain ⟨p, hp, hbinds⟩ := exists_of_any hends
  obtain ⟨n, v, hn, hv, hshape, hitem⟩ := Program.of_bindsGlobal hbinds
  obtain ⟨i, hi, hasks⟩ := List.any_eq_true.1 hitem
  cases i with
  | function f => cases hasks
  | global d =>
    obtain ⟨hinitial, dims, k, hdims, hlengths⟩ := Declaration.of_asksFor hasks
    obtain ⟨hlimit, hdeclares⟩ := declared_arrays_limited hp console
    have hfails := hdeclares d (Or.inl hi) hinitial 2 n dims k _ hdims hlengths
    rw [if_neg (by decide)] at hfails
    exact ⟨p, n, v, d, k, hp, hn, hv, hshape, hlimit n hn _ List.mem_cons_self "a" v hv,
      Or.inl hi, hfails⟩

/-- A list of arrays can have more leaves than the limit allows, and is taken as an initial value.
-/
theorem list_of_arrays_too_large :
    let source := "int a[1024][1024];
      int b[17][1024][1024] = \x7ba, a, a, a, a, a, a, a, a, a, a, a, a, a, a, a, a\x7d;
      int main() \x7b return 0; \x7d"
    let console : Console := ⟨⟨[]⟩, .unlimited⟩
    ∃ p m f v, Program.ofSource source = .ok p ∧ p.Reaches console m ∧
      f ∈ m.scope.declaringFrames ∧ f.find? "b" = some v ∧ Fault.maxLeaves < v.leaves := by
  intro source console
  have hends : ((Program.ofSource source).toOption.any fun p =>
      p.bindsGlobal console "b" [17, 1024, 1024] fun _ => true) = true := by decide +kernel
  obtain ⟨p, hp, hbinds⟩ := exists_of_any hends
  obtain ⟨n, v, hn, hv, hshape, -⟩ := Program.of_bindsGlobal hbinds
  have hwf := hn.wellFormed fun d hd => Program.declares_valueType hp hd
  refine ⟨p, n, n.scope.root, v, hp, hn, List.mem_cons_self, hv, ?_⟩
  rw [hwf.leaves_eq List.mem_cons_self hv, hshape]
  decide

end MiniC
