import MiniC.Proofs.Eval.Typing
import MiniC.Proofs.Parse.Declared
import MiniC.Proofs.Scope.WellFormed

/-!
# The store stays well-formed

What a run can do to a scope is said once: it keeps the types of what is bound, and declares a name
at the end of a declaration (`execDeclaration_machine?`, `exec_machine?`,
`declareFunction_machine?`) or for a parameter (`bindParameters_machine?`).  The values that
declared names and parameters get are data (`declaredValue_isData`, `isData_of_checkArguments`), so
scopes stay well-formed.
-/

namespace MiniC

/-! ## Declarations -/

theorem dimension?_pos {n : Int64} {length : Nat} (h : dimension? n = some length) :
    0 < length := by
  unfold dimension? at h
  split at h
  · cases h
    omega
  · cases h

theorem allLengths?_mem {dims : List (Option Nat)} {lengths : List Nat}
    (h : allLengths? dims = some lengths) : ∀ d ∈ lengths, some d ∈ dims := by
  induction dims generalizing lengths with
  | nil =>
    cases h
    exact fun _ hd => absurd hd List.not_mem_nil
  | cons dim dims ih =>
    cases dim with
    | none => cases h
    | some length =>
      rw [allLengths?] at h
      obtain ⟨rest, hrest, rfl⟩ := Option.map_eq_some_iff.1 h
      intro d hd
      rcases List.mem_cons.1 hd with rfl | hd
      · exact List.mem_cons_self
      · exact List.mem_cons_of_mem _ (ih hrest d hd)

/-- What a variable of a scalar type is declared with is data, with an initial value and without. -/
theorem initialValue_isData {d : Declaration} {dims : List (Option Nat)} {initial : Option Value}
    {v : Value} (hd : d.Valued) (hdims : ∀ length, some length ∈ dims → 0 < length)
    (hinitial : ∀ w, initial = some w → ∃ type, w.HasType type)
    (h : initialValue d dims initial = .ok v) : v.IsData := by
  unfold initialValue at h
  split at h
  · exact (Value.coerce_ok h).isData
  · cases h
    exact (Value.shaped_defaultFor hd.1 hd.2).isData
  · next w _ =>
    cases hconform : w.conform d.type dims with
    | error fault =>
      rw [hconform] at h
      cases h
    | ok lengths =>
      rw [hconform] at h
      cases h
      have hleaf := Value.leafType?_of_conform hconform
      exact Value.isData_of_leafType? (hinitial w rfl) (by simp [hleaf])
  · split at h
    · next lengths hlengths =>
      have hpos : ∀ n ∈ lengths, 0 < n := fun n hn => hdims n (allLengths?_mem hlengths n hn)
      exact (Value.shaped_filled (Value.shaped_defaultFor hd.1 hd.2) hpos h).isData
    · cases h

/-- What a declaration evaluates before it binds its name. -/
def Run.declaredValue (eval : Expr → Run Value) (d : Declaration) : Run Value := do
  let dims ← Run.each (evalDimension eval) d.target.indices
  let initial ← evalOption eval d.initial
  Run.lift (initialValue d dims initial)

theorem execDeclaration_eq (eval : Expr → Run Value) (d : Declaration) :
    execDeclaration eval d =
      Run.locate d.target.lexeme
        (Run.declaredValue eval d >>= fun v => Run.changeScope (·.declare d.target.name v)) := by
  unfold execDeclaration Run.declaredValue
  simp only [bind_assoc]

theorem evalDimension_done {eval : Expr → Run Value} {e : Option Expr} {o : Option Nat}
    {m n : Machine} (h : evalDimension eval e m = .done o n) :
    ∀ length, o = some length → 0 < length := by
  cases e with
  | none =>
    obtain ⟨rfl, -⟩ := Run.pure_done h
    intro length hlength
    cases hlength
  | some e =>
    obtain ⟨v, k, -, h⟩ := Run.bind_done h
    obtain ⟨i, k', -, h⟩ := Run.bind_done h
    cases hlength : dimension? i with
    | some length =>
      rw [hlength] at h
      obtain ⟨rfl, -⟩ := Run.pure_done h
      rintro _ ⟨⟩
      exact dimension?_pos hlength
    | none =>
      rw [hlength] at h
      cases h

theorem dimensions_pos {eval : Expr → Run Value} {es : List (Option Expr)}
    {dims : List (Option Nat)} {m n : Machine}
    (h : Run.each (evalDimension eval) es m = .done dims n) :
    ∀ length, some length ∈ dims → 0 < length := by
  obtain ⟨hall, -⟩ := Run.each_done (P := fun _ => True)
    (fun e o m n _ h => ⟨evalDimension_done h, trivial⟩) trivial h
  intro length hlength
  obtain ⟨e, -, hpos⟩ := exists_of_forall₂ hall hlength
  exact hpos length rfl

variable (steps : Nat)

theorem each_dimension_keeps (dims : List (Option Expr)) :
    (Run.each (evalDimension (eval steps)) dims).Keeps True :=
  Run.keeps_of_simulated fun _ =>
    Run.Simulated.each (Coupling.dimension (evaluates_keptSince steps).eval) dims

theorem declaredValue_keeps (d : Declaration) :
    (Run.declaredValue (eval steps) d).Keeps True := by
  refine Run.keeps_of_simulated fun s => ?_
  have heval := (evaluates_keptSince steps).eval (w := (s, True))
  refine (Run.Simulated.each (Coupling.dimension heval) d.target.indices).bind fun dims => ?_
  refine (Coupling.option heval d.initial).bind fun initial => ?_
  exact Run.simulated_lift (initialValue d dims initial)

theorem declaredValue_isData {types : String → Option ValueType} {d : Declaration} {m n : Machine}
    {v : Value} (hd : d.Valued) (hm : m.Typed types)
    (h : Run.declaredValue (eval steps) d m = .done v n) : v.IsData := by
  obtain ⟨dims, k, hdims, h⟩ := Run.bind_done h
  obtain ⟨initial, k', hinitial, h⟩ := Run.bind_done h
  obtain ⟨hv, -⟩ := Run.lift_done h
  refine initialValue_isData hd (dimensions_pos hdims) (fun w hw => ?_) hv
  cases hd : d.initial with
  | none =>
    rw [hd] at hinitial
    obtain ⟨rfl, -⟩ := Run.pure_done hinitial
    cases hw
  | some e =>
    rw [hd] at hinitial
    obtain ⟨u, k'', hu, hinitial⟩ := Run.bind_done hinitial
    obtain ⟨rfl, -⟩ := Run.pure_done hinitial
    cases hw
    obtain ⟨type, -, htype⟩ := eval_hasType (hm.keeps (each_dimension_keeps steps _) hdims) hu
    exact ⟨type, htype⟩

/-! ## What runs do to scopes -/

variable {steps} {m n : Machine}

theorem wellFormed_of_keeps {r : Run α} (hr : r.Keeps True) (hm : m.scope.WellFormed)
    (hn : (r m).machine? = some n) : n.scope.WellFormed :=
  hm.kept (hr m n hm.valid hn)

/-- A declaration changes nothing but values, until it declares its name. -/
theorem execDeclaration_machine? {d : Declaration} (hvalid : m.scope.Valid)
    (hn : (execDeclaration (eval steps) d m).machine? = some n) :
    m.scope.Kept True n.scope ∨ ∃ v k, Run.declaredValue (eval steps) d m = .done v k ∧
      m.scope.Kept True k.scope ∧ k.scope.declare d.target.name v = .ok n.scope := by
  rw [execDeclaration_eq, Run.locate_machine?] at hn
  have hkeeps := declaredValue_keeps steps d m
  rcases Run.bind_machine? hn with hn | ⟨v, k, hv, hn⟩
  · exact Or.inl (hkeeps n hvalid hn)
  · have hk := hkeeps k hvalid (by rw [hv]; rfl)
    rcases Run.changeScope_machine? hn with rfl | ⟨scope, hscope, rfl⟩
    · exact Or.inl hk
    · exact Or.inr ⟨v, k, hv, hk, hscope⟩

theorem exec_declaration (d : Declaration) :
    exec (steps + 1) (.simple (.declaration d)) =
      execDeclaration (eval steps) d >>= fun _ => pure Flow.normal := by
  unfold exec
  rfl

/-- A statement changes nothing but values, unless it is a declaration. -/
theorem exec_machine? {s : Statement} (hvalid : m.scope.Valid)
    (hn : (exec steps s m).machine? = some n) :
    m.scope.Kept True n.scope ∨ ∃ d steps', s = .simple (.declaration d) ∧
      (execDeclaration (eval steps') d m).machine? = some n := by
  by_cases hdecl : ∃ d, s = .simple (.declaration d)
  · obtain ⟨d, rfl⟩ := hdecl
    cases steps with
    | zero =>
      unfold exec at hn
      cases hn
    | succ steps =>
      rw [exec_declaration, Run.andPure_machine?] at hn
      exact Or.inr ⟨d, steps, rfl, hn⟩
  · refine Or.inl (Run.keeps_of_simulated (fun _ => ?_) m n hvalid hn)
    exact (evaluates_keptSince steps).exec s fun d hd => absurd ⟨d, hd⟩ hdecl

/-- The declaration of a function changes nothing, or declares the function under its name. -/
theorem declareFunction_machine? {f : FunctionDecl}
    (hn : (declareFunction f m).machine? = some n) :
    n = m ∨ m.scope.declare f.name (.function f) = .ok n.scope := by
  unfold declareFunction at hn
  rw [Run.locate_machine?] at hn
  split at hn
  · cases hn
    exact Or.inl rfl
  · split at hn
    · cases hn
      exact Or.inl rfl
    · rcases Run.changeScope_machine? hn with rfl | ⟨scope, hscope, rfl⟩
      · exact Or.inl rfl
      · exact Or.inr hscope

/-- What declaring the parameters one by one keeps holds in the end, however far it comes. -/
theorem bindParameters_machine? {I : Scope → Prop} {bindings : List (Parameter × Value)}
    (hI : ∀ b ∈ bindings, ∀ s t, I s → s.declare b.1.name b.2 = .ok t → I t) (hm : I m.scope)
    (hn : (bindParameters bindings m).machine? = some n) : I n.scope := by
  induction bindings generalizing m with
  | nil =>
    cases hn
    exact hm
  | cons binding rest ih =>
    obtain ⟨hfirst, hrest⟩ := List.forall_mem_cons.1 hI
    have hdeclare : ∀ k, (Run.locate binding.1.lexeme
        (Run.changeScope (·.declare binding.1.name binding.2)) m).machine? = some k →
        I k.scope := by
      intro k hk
      rw [Run.locate_machine?] at hk
      rcases Run.changeScope_machine? hk with rfl | ⟨scope, hscope, rfl⟩
      · exact hm
      · exact hfirst m.scope scope hm hscope
    rcases Run.bind_machine? hn with hn | ⟨_, k, hk, hn⟩
    · exact hdeclare n hn
    · exact ih hrest (hdeclare k (by rw [hk]; rfl)) hn

/-! ## What keeps scopes well-formed -/

theorem execDeclaration_wellFormed {d : Declaration} (hd : d.Valued) (hm : m.scope.WellFormed)
    (hn : (execDeclaration (eval steps) d m).machine? = some n) : n.scope.WellFormed := by
  rcases execDeclaration_machine? hm.valid hn with hkept | ⟨v, k, hv, hkept, hdeclare⟩
  · exact hm.kept hkept
  · obtain ⟨types, htypes⟩ := hm.exists_types
    have hdata := declaredValue_isData steps hd ⟨hm.valid, htypes⟩ hv
    exact (hm.kept hkept).declare (Or.inl hdata) hdeclare

theorem exec_wellFormed {s : Statement} (hs : ∀ d, s = .simple (.declaration d) → d.Valued)
    (hm : m.scope.WellFormed) (hn : (exec steps s m).machine? = some n) : n.scope.WellFormed := by
  rcases exec_machine? hm.valid hn with hkept | ⟨d, steps', rfl, hdeclared⟩
  · exact hm.kept hkept
  · exact execDeclaration_wellFormed (hs d rfl) hm hdeclared

theorem declareFunction_wellFormed {f : FunctionDecl} (htop : m.scope.current = [])
    (hm : m.scope.WellFormed) (hn : (declareFunction f m).machine? = some n) :
    n.scope.WellFormed := by
  rcases declareFunction_machine? hn with rfl | hdeclare
  · exact hm
  · exact hm.declare (Or.inr ⟨htop, f, rfl, rfl⟩) hdeclare

theorem bindParameters_wellFormed {bindings : List (Parameter × Value)}
    (hdata : ∀ b ∈ bindings, b.2.IsData) (hm : m.scope.WellFormed)
    (hn : (bindParameters bindings m).machine? = some n) : n.scope.WellFormed :=
  bindParameters_machine? (fun b hb _ _ hs => hs.declare (Or.inl (hdata b hb))) hm hn

theorem isData_of_checkArguments {f : FunctionDecl} {es : List Expr} {arguments : List Value}
    (hm : m.scope.WellFormed) (harguments : Run.each (eval steps) es m = .done arguments n)
    (hcheck : f.checkArguments arguments = .ok ()) :
    ∀ b ∈ f.parameters.zip arguments, b.2.IsData := by
  obtain ⟨types, htypes⟩ := hm.exists_types
  have hstep : ∀ e v m n, Machine.Typed types m → eval steps e m = .done v n →
      (∃ type, v.HasType type) ∧ n.Typed types := by
    intro e v m n hm hv
    obtain ⟨type, -, htype⟩ := eval_hasType hm hv
    exact ⟨⟨type, htype⟩, hm.keeps (eval_keeps steps e) hv⟩
  obtain ⟨hall, -⟩ := Run.each_done hstep ⟨hm.valid, htypes⟩ harguments
  rintro ⟨p, v⟩ hmem
  have haccepts := (List.forall₂_iff_zip.1 (FunctionDecl.checkArguments_ok_iff.1 hcheck)).2 hmem
  obtain ⟨e, -, htype⟩ := exists_of_forall₂ hall (List.of_mem_zip hmem).2
  exact Parameter.isData_of_accepts htype haccepts

end MiniC
