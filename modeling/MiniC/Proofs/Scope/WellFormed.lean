import MiniC.Proofs.Run.Done
import MiniC.Proofs.Scope.Kept
import MiniC.Eval.Program

/-!
# Well-formed scopes

In a well-formed scope the root frame binds every built-in name to its own declaration and functions
to their own names, and all else that is bound in any frame is data.  The scope in which a program
starts is well-formed (`wellFormed_initial`), and so is what comes of a well-formed scope when
bindings keep their types, when data or, outside all calls, a function is declared, and when frames
and calls begin and end.
-/

namespace MiniC

/-- Names are bound to data, and to functions of the same name. -/
def Frame.Global (f : Frame) : Prop :=
  ∀ name v, f.find? name = some v → v.IsData ∨ ∃ g : FunctionDecl, v = .function g ∧ g.name = name

/-- Names are bound to data. -/
def Frame.Local (f : Frame) : Prop := ∀ name v, f.find? name = some v → v.IsData

/-- The built-in names are bound to their declarations. -/
def Frame.BindsBuiltins (f : Frame) : Prop :=
  ∀ b : Builtin, f.find? b.name = some (.function b.declaration)

/-- What holds of the scope of a program at all times. -/
structure Scope.WellFormed (s : Scope) : Prop where
  valid : s.Valid
  builtins : s.root.BindsBuiltins
  root : s.root.Global
  current : ∀ f ∈ s.current, f.Local
  callers : ∀ c ∈ s.callers, ∀ f ∈ c, f.Local

/-! ## Frames -/

namespace Frame

variable {f g : Frame} {name : String} {v : Value}

theorem local_empty : Frame.empty.Local := by
  intro name v hv
  cases hv

theorem Local.kept (hf : f.Local) (h : f.Kept True g) : g.Local := by
  intro name w hw
  obtain ⟨v, hv, hvw⟩ := h.origin trivial hw
  obtain ⟨leaf, dims, hshaped⟩ := hf name v hv
  exact (hvw.data hshaped).isData

theorem Global.kept (hf : f.Global) (h : f.Kept True g) : g.Global := by
  intro name w hw
  obtain ⟨v, hv, hvw⟩ := h.origin trivial hw
  rcases hf name v hv with ⟨leaf, dims, hshaped⟩ | ⟨g, rfl, hname⟩
  · exact Or.inl (hvw.data hshaped).isData
  · exact Or.inr ⟨g, hvw.other rfl rfl, hname⟩

theorem BindsBuiltins.kept {closed : Prop} (hf : f.BindsBuiltins) (h : f.Kept closed g) :
    g.BindsBuiltins := by
  intro b
  obtain ⟨w, hw, hvw⟩ := h.bound (hf b)
  rwa [hvw.other rfl rfl] at hw

theorem Local.insert (hf : f.Local) (hv : v.IsData) : (f.insert name v).Local := by
  intro x w hw
  rw [find?_insert] at hw
  split at hw
  · cases hw
    exact hv
  · exact hf x w hw

/-- One more binding, of data or of a function under its name. -/
theorem Global.bind (hf : f.Global)
    (hv : v.IsData ∨ ∃ g : FunctionDecl, v = .function g ∧ g.name = name)
    (hg : ∀ x, g.find? x = if x = name then some v else f.find? x) : g.Global := by
  intro x w hw
  rw [hg] at hw
  split at hw
  · next hx =>
    cases hw
    rw [hx]
    exact hv
  · exact hf x w hw

end Frame

namespace Scope

variable {s t : Scope} {name : String} {v : Value}

/-! ## What running programs do to scopes -/

theorem WellFormed.kept (h : s.WellFormed) (hkept : s.Kept True t) : t.WellFormed where
  valid := hkept.valid h.valid
  builtins := h.builtins.kept hkept.root
  root := h.root.kept (hkept.root.mono fun _ => Or.inl trivial)
  current g hg := by
    obtain ⟨f, hf, hfg⟩ := exists_of_forall₂ (hkept.current.forall₂_closed trivial) hg
    exact (h.current f hf).kept hfg
  callers := by
    rw [hkept.callers]
    exact h.callers

/-- Data can be declared everywhere, and outside all calls and blocks a function can be declared
under its name. -/
theorem WellFormed.declare (h : s.WellFormed)
    (hv : v.IsData ∨ s.current = [] ∧ ∃ f : FunctionDecl, v = .function f ∧ f.name = name)
    (ht : s.declare name v = .ok t) : t.WellFormed := by
  have hvalid := (kept_declare ht).valid h.valid
  have hbuiltins := h.builtins.kept (kept_declare ht).root
  obtain ⟨root, current, callers⟩ := s
  cases current with
  | nil =>
    simp only [Scope.declare] at ht
    split at ht
    · cases ht
    · cases ht
      have hroot := h.root.bind (hv.imp id And.right) (root.find?_insert name v)
      exact ⟨hvalid, hbuiltins, hroot, h.current, h.callers⟩
  | cons f outer =>
    simp only [Scope.declare] at ht
    split at ht
    · cases ht
    · cases ht
      have hv : v.IsData := hv.resolve_right fun h => List.cons_ne_nil _ _ h.1
      obtain ⟨hf, houter⟩ := List.forall_mem_cons.1 h.current
      have hinner : (f.insert name v).Local := hf.insert hv
      exact ⟨hvalid, hbuiltins, h.root, List.forall_mem_cons.2 ⟨hinner, houter⟩, h.callers⟩

/-! ## Frames and calls -/

theorem WellFormed.push (h : s.WellFormed) : s.push.WellFormed :=
  ⟨valid_push h.valid, h.builtins, h.root,
    List.forall_mem_cons.2 ⟨Frame.local_empty, h.current⟩, h.callers⟩

theorem WellFormed.enterCall (h : s.WellFormed) : s.enterCall.WellFormed :=
  ⟨valid_enterCall h.valid, h.builtins, h.root,
    List.forall_mem_singleton.2 Frame.local_empty, List.forall_mem_cons.2 ⟨h.current, h.callers⟩⟩

theorem WellFormed.pop (h : s.WellFormed) : s.pop.WellFormed := by
  obtain ⟨root, current, callers⟩ := s
  cases current with
  | nil => cases callers <;> exact h
  | cons f outer =>
    have houter := (List.forall_mem_cons.1 h.current).2
    cases callers with
    | nil => exact ⟨trivial, h.builtins, h.root, houter, h.callers⟩
    | cons caller callers =>
      -- the first frame of a call stays
      cases outer with
      | nil => exact h
      | cons g outer =>
        have hvalid : Valid ⟨root, g :: outer, caller :: callers⟩ :=
          ⟨List.cons_ne_nil _ _, h.valid.2⟩
        exact ⟨hvalid, h.builtins, h.root, houter, h.callers⟩

theorem WellFormed.exitCall (h : s.WellFormed) : s.exitCall.WellFormed := by
  obtain ⟨root, current, callers⟩ := s
  cases callers with
  | nil => exact h
  | cons caller callers =>
    obtain ⟨hcaller, hcallers⟩ := List.forall_mem_cons.1 h.callers
    exact ⟨h.valid.2, h.builtins, h.root, hcaller, hcallers⟩

/-! ## The start -/

theorem bindsBuiltins_initial : Scope.initial.root.BindsBuiltins := by
  intro b
  cases b <;> rfl

/-- At the start the built-in names are bound and no other. -/
theorem find?_initial (h : Scope.initial.root.find? name = some v) :
    ∃ b ∈ Builtin.all, b.name = name ∧ v = .function b.declaration := by
  have hall : ∀ binding ∈ initial.root.bindings, binding.1 ∈ Builtin.all.map Builtin.name := by
    decide
  obtain ⟨binding, hbinding, hkey⟩ := List.lookup_isSome_iff.1 (Option.isSome_of_eq_some h)
  obtain ⟨b, hmem, hb⟩ := List.mem_map.1 (hall binding hbinding)
  have hname : b.name = name := hb.trans (beq_iff_eq.1 hkey).symm
  rw [← hname, bindsBuiltins_initial b] at h
  exact ⟨b, hmem, hname, (Option.some.inj h).symm⟩

theorem wellFormed_initial : Scope.initial.WellFormed := by
  refine ⟨trivial, bindsBuiltins_initial, fun name v hv => ?_, ?_, ?_⟩
  · obtain ⟨b, -, hname, rfl⟩ := find?_initial hv
    exact Or.inr ⟨b.declaration, rfl, hname⟩
  · exact fun _ hf => absurd hf List.not_mem_nil
  · exact fun _ hc => absurd hc List.not_mem_nil

/-! ## Types -/

/-- What is bound is data or a function. -/
theorem WellFormed.bound (h : s.WellFormed) {f : Frame} (hf : f ∈ s.frames)
    (hv : f.find? name = some v) : v.IsData ∨ ∃ g : FunctionDecl, v = .function g := by
  rcases List.mem_cons.1 hf with rfl | hf
  · exact (h.root name v hv).imp_right fun ⟨g, hg, _⟩ => ⟨g, hg⟩
  · rcases List.mem_append.1 hf with hf | hf
    · exact Or.inl (h.current f hf name v hv)
    · obtain ⟨c, hc, hf⟩ := List.mem_flatten.1 hf
      exact Or.inl (h.callers c hc f hf name v hv)

/-- Nothing is bound to `void`. -/
theorem WellFormed.ne_void (h : s.WellFormed) {f : Frame} (hf : f ∈ s.frames) (name : String) :
    f.find? name ≠ some .void := by
  intro hvoid
  rcases h.bound hf hvoid with ⟨leaf, dims, hshaped⟩ | ⟨g, hg⟩
  · exact hshaped.ne_void rfl
  · cases hg

/-- What is visible in a well-formed scope is data, or a function of the root frame under its own
name. -/
theorem WellFormed.find (h : s.WellFormed) (hv : s.find? name = some v) :
    v.IsData ∨
      s.root.find? name = some v ∧ ∃ g : FunctionDecl, v = .function g ∧ g.name = name := by
  unfold find? at hv
  cases hlocal : s.current.find? name with
  | none =>
    rw [hlocal] at hv
    exact (h.root name v hv).imp_right fun hfunction => ⟨hv, hfunction⟩
  | some w =>
    rw [hlocal] at hv
    cases hv
    obtain ⟨f, hf, hv⟩ := List.exists_of_findSome?_eq_some hlocal
    exact Or.inl (h.current f hf name v hv)

/-- What is visible in a well-formed scope has types. -/
theorem WellFormed.exists_hasType (h : s.WellFormed) (hv : s.find? name = some v) :
    ∃ type, v.HasType type := by
  rcases h.find hv with ⟨leaf, dims, hshaped⟩ | ⟨-, g, rfl, -⟩
  · exact ⟨_, hshaped.hasType⟩
  · exact ⟨.function g, rfl⟩

theorem WellFormed.exists_types (h : s.WellFormed) :
    ∃ types : String → Option ValueType,
      ∀ name, Option.Rel Value.HasType (s.find? name) (types name) := by
  have htypes : ∀ name, ∃ type, Option.Rel Value.HasType (s.find? name) type := by
    intro name
    cases hv : s.find? name with
    | none => exact ⟨none, .none⟩
    | some v =>
      obtain ⟨type, htype⟩ := h.exists_hasType hv
      exact ⟨some type, .some htype⟩
  choose types htypes using htypes
  exact ⟨types, htypes⟩

end Scope

end MiniC
