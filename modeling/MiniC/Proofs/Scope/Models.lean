import MiniC.Proofs.Scope.WellFormed
import MiniC.Proofs.Syntax.Scoped

/-!
# Static scopes describe scopes at run time

`p.Models globals names` says that a scope is one in which a program can be at a point where `names`
are in scope: each of them is bound in some frame that is visible, and the innermost frame binds
none but its own.  What holds of the root frame alone, `p.Grounds globals`, is all that a call takes
over from its caller.  There is one lemma for each operation on scopes.
-/

namespace MiniC

/-- A function that a running program can come to: a built-in one, or one that it declares. -/
def Program.Knows (p : Program) (f : FunctionDecl) : Prop :=
  (∃ b : Builtin, f = b.declaration) ∨ .function f ∈ p.items

/-- The frame in which names are declared. -/
def Scope.innermost (s : Scope) : Frame := s.current.headD s.root

/-- The root frame binds the names given, and functions that the program knows. -/
structure Program.Grounds (p : Program) (globals : List String) (s : Scope) : Prop where
  wellFormed : s.WellFormed
  bound : ∀ name ∈ globals, s.root.binds name = true
  known : ∀ name f, s.root.find? name = some (.function f) → p.Knows f

/-- The names in scope are bound, and in the innermost frame no others than its own. -/
structure Program.Models (p : Program) (globals : List String) (names : Names) (s : Scope) : Prop
    extends p.Grounds globals s where
  visible : ∀ name ∈ names.visible, ∃ v, s.find? name = some v
  own : ∀ name, s.innermost.binds name = true → name ∈ names.own

/-! ## Operations on scopes -/

namespace Frame

theorem not_binds_empty (name : String) : ¬ Frame.empty.binds name = true := by
  intro h
  cases h

theorem binds_insert_iff {f : Frame} {name : String} {v : Value} {x : String} :
    (f.insert name v).binds x = true ↔ x = name ∨ f.binds x = true := by
  rw [binds_iff, binds_iff, find?_insert]
  by_cases hx : x = name
  · simp [hx]
  · simp [hx]

end Frame

namespace Scope

variable {s t : Scope} {name : String} {v : Value}

theorem find?_of_root (h : s.root.binds name = true) : ∃ v, s.find? name = some v := by
  obtain ⟨v, hv⟩ := Frame.binds_iff.1 h
  unfold find?
  cases s.current.find? name with
  | none => exact ⟨v, hv⟩
  | some w => exact ⟨w, rfl⟩

theorem find?_push (s : Scope) (name : String) : s.push.find? name = s.find? name := rfl

theorem declare_ok (h : ¬ s.innermost.binds name = true) (v : Value) :
    ∃ t, s.declare name v = .ok t := by
  obtain ⟨root, current, callers⟩ := s
  cases current with
  | nil => exact ⟨_, if_neg h⟩
  | cons f outer => exact ⟨_, if_neg h⟩

/-- A declaration binds its name in the innermost frame and leaves the other frames alone. -/
theorem declare_eq (h : s.declare name v = .ok t) :
    t.innermost = s.innermost.insert name v ∧
      (t.root = s.root ∨ s.current = [] ∧ t.root = s.root.insert name v) ∧
      ∀ x, t.find? x = if x = name then some v else s.find? x := by
  obtain ⟨root, current, callers⟩ := s
  cases current with
  | nil =>
    simp only [declare] at h
    split at h
    · cases h
    · cases h
      exact ⟨rfl, Or.inr ⟨rfl, rfl⟩, fun x => root.find?_insert name v x⟩
  | cons f outer =>
    simp only [declare] at h
    split at h
    · cases h
    · cases h
      refine ⟨rfl, Or.inl rfl, fun x => ?_⟩
      unfold find? Context.find?
      rw [List.findSome?_cons, List.findSome?_cons, Frame.find?_insert]
      by_cases hx : x = name
      · simp [hx]
      · simp [hx]

theorem Kept.innermost (h : s.Kept True t) : s.innermost.Kept True t.innermost := by
  obtain ⟨root, current, callers⟩ := s
  obtain ⟨root', current', callers'⟩ := t
  obtain ⟨hroot, hcurrent, -⟩ := h
  cases hcurrent with
  | nil => exact hroot.mono fun _ => Or.inl trivial
  | cons head _ => exact head

end Scope

/-! ## Grounds -/

namespace Program

variable {p : Program} {globals : List String} {names : Names} {s t : Scope}

theorem Grounds.kept (h : p.Grounds globals s) (hkept : s.Kept True t) : p.Grounds globals t where
  wellFormed := h.wellFormed.kept hkept
  bound name hname := by
    obtain ⟨v, hv⟩ := Frame.binds_iff.1 (h.bound name hname)
    obtain ⟨w, hw, -⟩ := hkept.root.bound hv
    exact Frame.binds_iff.2 ⟨w, hw⟩
  known name f hf := by
    obtain ⟨v, hv, hvf⟩ := hkept.root.origin (Or.inl trivial) hf
    rcases h.wellFormed.root name v hv with ⟨leaf, dims, hshaped⟩ | ⟨g, rfl, -⟩
    · -- data does not become a function
      exact absurd rfl ((hvf.data hshaped).ne_function f)
    · cases hvf.other rfl rfl
      exact h.known name f hv

theorem Grounds.enterCall (h : p.Grounds globals s) :
    p.Models globals ⟨globals, []⟩ s.enterCall where
  wellFormed := h.wellFormed.enterCall
  bound := h.bound
  known := h.known
  visible name hname := Scope.find?_of_root (h.bound name hname)
  own name hname := absurd hname (Frame.not_binds_empty name)

/-! ## Models -/

theorem Models.kept (h : p.Models globals names s) (hkept : s.Kept True t) :
    p.Models globals names t where
  toGrounds := h.toGrounds.kept hkept
  visible name hname := by
    obtain ⟨v, hv⟩ := h.visible name hname
    have hrel := hkept.rel trivial name
    rw [hv] at hrel
    generalize t.find? name = o at hrel
    cases hrel with
    | @some _ w _ => exact ⟨w, rfl⟩
  own name hname := by
    obtain ⟨w, hw⟩ := Frame.binds_iff.1 hname
    obtain ⟨v, hv, -⟩ := hkept.innermost.origin trivial hw
    exact h.own name (Frame.binds_iff.2 ⟨v, hv⟩)

theorem Models.mono {names' : Names} (h : p.Models globals names s)
    (hvisible : ∀ name ∈ names'.visible, name ∈ names.visible)
    (hown : ∀ name ∈ names.own, name ∈ names'.own) : p.Models globals names' s where
  toGrounds := h.toGrounds
  visible name hname := h.visible name (hvisible name hname)
  own name hname := hown name (h.own name hname)

theorem Models.push (h : p.Models globals names s) : p.Models globals names.inner s.push where
  wellFormed := h.wellFormed.push
  bound := h.bound
  known := h.known
  visible name hname := by
    rw [Scope.find?_push]
    exact h.visible name hname
  own name hname := absurd hname (Frame.not_binds_empty name)

/-- A name that the innermost scope has not declared can be declared, with data anywhere and with a
function outside all calls and blocks. -/
theorem Models.declare (h : p.Models globals names s) {name : String} {v : Value}
    (hfresh : name ∉ names.own)
    (hv : v.IsData ∨ s.current = [] ∧ ∃ f, v = .function f ∧ f.name = name ∧ p.Knows f) :
    ∃ t, s.declare name v = .ok t ∧ p.Models globals (names.add name) t := by
  obtain ⟨t, ht⟩ := Scope.declare_ok (fun hbound => hfresh (h.own name hbound)) v
  obtain ⟨hinnermost, hroot, hfind⟩ := Scope.declare_eq ht
  refine ⟨t, ht, ⟨⟨?_, fun x hx => ?_, fun x f hf => ?_⟩, fun x hx => ?_, fun x hx => ?_⟩⟩
  · exact h.wellFormed.declare (hv.imp_right fun ⟨htop, f, hf, hname, _⟩ => ⟨htop, f, hf, hname⟩) ht
  · rcases hroot with hroot | ⟨-, hroot⟩
    · rw [hroot]
      exact h.bound x hx
    · rw [hroot]
      exact Frame.binds_insert_iff.2 (Or.inr (h.bound x hx))
  · rcases hroot with hroot | ⟨htop, hroot⟩
    · rw [hroot] at hf
      exact h.known x f hf
    · rw [hroot, Frame.find?_insert] at hf
      split at hf
      · cases hf
        rcases hv with ⟨leaf, dims, hshaped⟩ | ⟨-, g, hg, -, hknown⟩
        · exact absurd rfl (hshaped.ne_function f)
        · cases hg
          exact hknown
      · exact h.known x f hf
  · rw [hfind]
    split
    · exact ⟨v, rfl⟩
    · next hne => exact h.visible x (List.mem_of_ne_of_mem hne hx)
  · rw [hinnermost] at hx
    rcases Frame.binds_insert_iff.1 hx with rfl | hx
    · exact List.mem_cons_self
    · exact List.mem_cons_of_mem _ (h.own x hx)

/-- A function that is visible under some name is known and has that name. -/
theorem Models.function (h : p.Models globals names s) {name : String} {f : FunctionDecl}
    (hf : s.find? name = some (.function f)) : p.Knows f ∧ f.name = name := by
  rcases h.wellFormed.find hf with ⟨leaf, dims, hshaped⟩ | ⟨hroot, g, hg, hname⟩
  · exact absurd rfl (hshaped.ne_function f)
  · cases hg
    exact ⟨h.known name f hroot, hname⟩

/-- Outside all calls and blocks what is in scope is bound in the root frame. -/
theorem Models.ground {globals' : List String} (h : p.Models globals names s)
    (htop : s.current = []) (hglobals : ∀ name ∈ globals', name ∈ names.visible) :
    p.Models globals' names s where
  wellFormed := h.wellFormed
  bound name hname := by
    obtain ⟨v, hv⟩ := h.visible name (hglobals name hname)
    unfold Scope.find? at hv
    rw [htop] at hv
    exact Frame.binds_iff.2 ⟨v, hv⟩
  known := h.known
  visible := h.visible
  own := h.own

/-! ## The start -/

theorem models_initial (p : Program) :
    p.Models [] ⟨Builtin.names, Builtin.names⟩ Scope.initial := by
  refine ⟨⟨Scope.wellFormed_initial, List.forall_mem_nil _, fun name f hf => ?_⟩,
    fun name hname => ?_, fun name hname => ?_⟩
  · obtain ⟨b, -, -, hb⟩ := Scope.find?_initial hf
    cases hb
    exact Or.inl ⟨b, rfl⟩
  · obtain ⟨b, -, rfl⟩ := List.mem_map.1 hname
    exact ⟨_, Scope.bindsBuiltins_initial b⟩
  · obtain ⟨v, hv⟩ := Frame.binds_iff.1 hname
    obtain ⟨b, hb, rfl, -⟩ := Scope.find?_initial hv
    exact List.mem_map_of_mem hb

end Program

end MiniC
