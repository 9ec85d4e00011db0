import MiniC.Proofs.Scope.WellFormed
import MiniC.Proofs.Value.Leaves

/-!
# The sizes of declared values

The first frame of a call is for its parameters; variables are declared in all other frames
(`Scope.declaringFrames`).  `s.Sized P` says that a property `P` holds in these frames of each name
with the number of leaves of what it is bound to.  What a running program does to a scope keeps it,
except for declarations, of which only those of a name and a number of leaves with the property keep
it (`Sized.declare`).
-/

namespace MiniC

/-- The frames of a context and of its callers in which variables are declared. -/
def Context.declaring : Context → List Context → List Frame
  | c, [] => c
  | c, caller :: callers => c.dropLast ++ declaring caller callers

/-- The frames in which variables are declared: all but the first frame of each call. -/
def Scope.declaringFrames (s : Scope) : List Frame := s.root :: s.current.declaring s.callers

/-- Of each name with the number of leaves of its value, `P` holds. -/
def Frame.Sized (P : String → Nat → Prop) (f : Frame) : Prop :=
  ∀ name v, f.find? name = some v → P name v.leaves

/-- In all frames in which variables are declared, `P` holds of each name with the number of leaves
of its value. -/
def Scope.Sized (P : String → Nat → Prop) (s : Scope) : Prop := ∀ f ∈ s.declaringFrames, f.Sized P

variable {P : String → Nat → Prop}

/-! ## Values -/

/-- A value of the same type has as many leaves. -/
theorem Value.KeepsType.leaves_eq {v w : Value} (h : v.KeepsType w)
    (hv : v.IsData ∨ ∃ f : FunctionDecl, v = .function f) : w.leaves = v.leaves := by
  rcases hv with ⟨leaf, dims, hshaped⟩ | ⟨f, rfl⟩
  · rw [hshaped.leaves_eq, (h.data hshaped).leaves_eq]
  · rw [h.other rfl rfl]

/-! ## Frames -/

namespace Frame

variable {f g : Frame} {name : String} {v : Value}

theorem sized_empty : Frame.empty.Sized P := by
  intro name v hv
  cases hv

theorem Sized.insert (hf : f.Sized P) (hv : P name v.leaves) : (f.insert name v).Sized P := by
  intro x w hw
  rw [find?_insert] at hw
  split at hw
  · next hx =>
    cases hw
    rwa [hx]
  · exact hf x w hw

theorem Sized.kept (hf : f.Sized P) (h : f.Kept True g)
    (hbound : ∀ {name v}, f.find? name = some v →
      v.IsData ∨ ∃ f : FunctionDecl, v = .function f) : g.Sized P := by
  intro name w hw
  obtain ⟨v, hv, hvw⟩ := h.origin trivial hw
  rw [hvw.leaves_eq (hbound hv)]
  exact hf name v hv

end Frame

/-! ## Contexts -/

namespace Context

theorem mem_of_mem_declaring {c : Context} {callers : List Context} {f : Frame}
    (h : f ∈ c.declaring callers) : f ∈ c ++ callers.flatten := by
  induction callers generalizing c with
  | nil => exact List.mem_append_left _ h
  | cons caller callers ih =>
    rcases List.mem_append.1 h with h | h
    · exact List.mem_append_left _ (List.dropLast_subset c h)
    · exact List.mem_append_right _ (ih h)

/-- Whether a frame put on a context is one to declare in depends on the context alone. -/
theorem declaring_cons (c : Context) (callers : List Context) :
    (∀ f, declaring (f :: c) callers = f :: c.declaring callers) ∨
      ∀ f, declaring (f :: c) callers = c.declaring callers := by
  cases callers with
  | nil => exact Or.inl fun _ => rfl
  | cons caller callers =>
    cases c with
    | nil => exact Or.inr fun _ => rfl
    | cons _ _ => exact Or.inl fun _ => rfl

theorem forall₂_declaring {R : Frame → Frame → Prop} (hR : ∀ f, R f f) {c d : Context}
    (h : List.Forall₂ R c d) (callers : List Context) :
    List.Forall₂ R (c.declaring callers) (d.declaring callers) := by
  cases callers with
  | nil => exact h
  | cons caller callers =>
    refine List.rel_append ?_ (List.forall₂_same.2 fun f _ => hR f)
    rw [List.dropLast_eq_take, List.dropLast_eq_take, h.length_eq]
    exact List.forall₂_take _ h

end Context

/-! ## Scopes -/

namespace Scope

variable {s t : Scope} {name : String} {v : Value}

theorem sized_iff {root : Frame} {current : Context} {callers : List Context} :
    Sized P ⟨root, current, callers⟩ ↔
      root.Sized P ∧ ∀ f ∈ current.declaring callers, f.Sized P :=
  List.forall_mem_cons

theorem Sized.kept (h : s.Sized P) (hwf : s.WellFormed) (hkept : s.Kept True t) : t.Sized P := by
  intro g hg
  have hall : List.Forall₂ (Frame.Kept True) s.declaringFrames t.declaringFrames := by
    unfold declaringFrames
    rw [hkept.callers]
    refine .cons (hkept.root.mono fun _ => Or.inl trivial) ?_
    exact Context.forall₂_declaring (.refl True) (hkept.current.forall₂_closed trivial) _
  obtain ⟨f, hf, hfg⟩ := exists_of_forall₂ hall hg
  have hmem : f ∈ s.frames := by
    rcases List.mem_cons.1 hf with rfl | hf
    · exact List.mem_cons_self
    · exact List.mem_cons_of_mem _ (Context.mem_of_mem_declaring hf)
  exact (h f hf).kept hfg (hwf.bound hmem)

theorem Sized.declare (h : s.Sized P) (hv : P name v.leaves) (ht : s.declare name v = .ok t) :
    t.Sized P := by
  obtain ⟨root, current, callers⟩ := s
  obtain ⟨hroot, hcurrent⟩ := sized_iff.1 h
  cases current with
  | nil =>
    simp only [Scope.declare] at ht
    split at ht
    · cases ht
    · cases ht
      exact sized_iff.2 ⟨hroot.insert hv, hcurrent⟩
  | cons f outer =>
    simp only [Scope.declare] at ht
    split at ht
    · cases ht
    · cases ht
      refine sized_iff.2 ⟨hroot, ?_⟩
      rcases Context.declaring_cons outer callers with hcons | hcons
      · rw [hcons] at hcurrent ⊢
        obtain ⟨hf, houter⟩ := List.forall_mem_cons.1 hcurrent
        exact List.forall_mem_cons.2 ⟨hf.insert hv, houter⟩
      · rw [hcons] at hcurrent ⊢
        exact hcurrent

/-- The first frame of a call takes any value. -/
theorem declaringFrames_declare (hcurrent : s.current.length = 1) (hcallers : s.callers ≠ [])
    (ht : s.declare name v = .ok t) :
    t.declaringFrames = s.declaringFrames ∧ t.current.length = 1 ∧ t.callers = s.callers := by
  obtain ⟨root, current, callers⟩ := s
  obtain ⟨f, rfl⟩ := List.length_eq_one_iff.1 hcurrent
  obtain ⟨caller, callers, rfl⟩ := List.exists_cons_of_ne_nil hcallers
  simp only [Scope.declare] at ht
  split at ht
  · cases ht
  · cases ht
    exact ⟨rfl, rfl, rfl⟩

/-- What is bound has as many leaves as its lengths multiply to. -/
theorem WellFormed.leaves_eq (h : s.WellFormed) {f : Frame} (hf : f ∈ s.frames)
    (hv : f.find? name = some v) : v.leaves = Value.volume v.shape := by
  rcases h.bound hf hv with ⟨leaf, dims, hshaped⟩ | ⟨g, rfl⟩
  · rw [hshaped.leaves_eq, hshaped.shape]
  · rfl

/-! ### Frames and calls -/

theorem Sized.push (h : s.Sized P) : s.push.Sized P := by
  obtain ⟨root, current, callers⟩ := s
  obtain ⟨hroot, hcurrent⟩ := sized_iff.1 h
  refine sized_iff.2 ⟨hroot, ?_⟩
  rcases Context.declaring_cons current callers with hcons | hcons
  · rw [hcons]
    exact List.forall_mem_cons.2 ⟨Frame.sized_empty, hcurrent⟩
  · rw [hcons]
    exact hcurrent

theorem Sized.outer {root f : Frame} {outer : Context} {callers : List Context}
    (h : Sized P ⟨root, f :: outer, callers⟩) : Sized P ⟨root, outer, callers⟩ := by
  obtain ⟨hroot, hcurrent⟩ := sized_iff.1 h
  refine sized_iff.2 ⟨hroot, ?_⟩
  rcases Context.declaring_cons outer callers with hcons | hcons
  · rw [hcons] at hcurrent
    exact (List.forall_mem_cons.1 hcurrent).2
  · rwa [hcons] at hcurrent

theorem Sized.pop (h : s.Sized P) : s.pop.Sized P := by
  obtain ⟨root, current, callers⟩ := s
  cases current with
  | nil => cases callers <;> exact h
  | cons f outer =>
    cases callers with
    | nil => exact h.outer
    | cons caller callers =>
      -- the first frame of a call stays
      cases outer with
      | nil => exact h
      | cons g outer => exact h.outer

theorem Sized.enterCall (h : s.Sized P) : s.enterCall.Sized P := h

theorem Sized.exitCall (h : s.Sized P) : s.exitCall.Sized P := by
  obtain ⟨root, current, callers⟩ := s
  cases callers with
  | nil => exact h
  | cons caller callers =>
    obtain ⟨hroot, hcurrent⟩ := sized_iff.1 h
    exact sized_iff.2 ⟨hroot, (List.forall_mem_append.1 hcurrent).2⟩

/-- At the start the built-in functions are bound. -/
theorem sized_initial (hP : ∀ name, P name 1) : Scope.initial.Sized P := by
  refine List.forall_mem_singleton.2 fun name v hv => ?_
  obtain ⟨b, -, -, rfl⟩ := find?_initial hv
  exact hP name

end Scope

end MiniC
