import MiniC.Machine
import MiniC.Proofs.Scope.Balance

/-!
# Scopes with the same bindings

A frame lists its bindings in the order in which they were made, but only what each name is bound to
can be seen of it.  `s.SameBindings t` relates scopes that differ in the order of the bindings in
their root frames and in nothing else; every operation on scopes keeps it.  Functions with distinct
names can be bound in any order (`Frame.SameBindings.withFunctions`).
-/

namespace MiniC

/-! ## Frames -/

/-- Each name is bound to the same, or in neither frame. -/
def Frame.SameBindings (f g : Frame) : Prop := ∀ name, f.find? name = g.find? name

/-- A frame with functions bound in it besides, the first of them first. -/
def Frame.withFunctions (f : Frame) (fs : List FunctionDecl) : Frame :=
  fs.foldl (fun f g => f.insert g.name (.function g)) f

theorem Frame.binds_withFunctions (f : Frame) (fs : List FunctionDecl) (name : String) :
    (f.withFunctions fs).binds name =
      (f.binds name || decide (name ∈ fs.map FunctionDecl.name)) := by
  induction fs generalizing f with
  | nil => simp [withFunctions]
  | cons g rest ih =>
    refine (ih (f.insert g.name (.function g))).trans ?_
    rw [binds_insert, List.map_cons]
    by_cases hname : name = g.name
    · simp [hname]
    · simp [hname, Ne.symm hname]

namespace Frame.SameBindings

variable {f g h : Frame}

theorem refl (f : Frame) : f.SameBindings f := fun _ => rfl

theorem symm (h : f.SameBindings g) : g.SameBindings f := fun name => (h name).symm

theorem trans (hfg : f.SameBindings g) (hgh : g.SameBindings h) : f.SameBindings h :=
  fun name => (hfg name).trans (hgh name)

theorem binds_eq (h : f.SameBindings g) (name : String) : f.binds name = g.binds name := by
  unfold binds
  rw [h name]

theorem insert (h : f.SameBindings g) (name : String) (v : Value) :
    (f.insert name v).SameBindings (g.insert name v) := by
  intro x
  rw [find?_insert, find?_insert, h x]

theorem modify (h : f.SameBindings g) (name : String) (change : Value → Value) :
    (f.modify name change).SameBindings (g.modify name change) := by
  intro x
  rw [find?_modify, find?_modify, h x]

/-- Two names can be bound in either order. -/
theorem insert_comm (f : Frame) {name name' : String} (hne : name ≠ name') (v v' : Value) :
    ((f.insert name v).insert name' v').SameBindings ((f.insert name' v').insert name v) := by
  intro x
  simp only [find?_insert]
  by_cases hx : x = name'
  · rw [if_pos hx, if_neg (by rintro rfl; exact hne hx), if_pos hx]
  · rw [if_neg hx, if_neg hx]

theorem withFunctions (h : f.SameBindings g) (fs : List FunctionDecl) :
    (f.withFunctions fs).SameBindings (g.withFunctions fs) := by
  induction fs generalizing f g with
  | nil => exact h
  | cons x rest ih => exact ih (h.insert x.name (.function x))

/-- Functions with distinct names can be bound in any order. -/
theorem withFunctions_perm (h : f.SameBindings g) {fs gs : List FunctionDecl} (hperm : fs.Perm gs)
    (hdistinct : (fs.map FunctionDecl.name).Nodup) :
    (f.withFunctions fs).SameBindings (g.withFunctions gs) := by
  induction hperm generalizing f g with
  | nil => exact h
  | cons x _ ih =>
    rw [List.map_cons, List.nodup_cons] at hdistinct
    exact ih (h.insert x.name (.function x)) hdistinct.2
  | swap x y rest =>
    have hne : y.name ≠ x.name := by
      intro hname
      simp [hname] at hdistinct
    have hswap := insert_comm f hne (.function y) (.function x)
    have hboth := (h.insert x.name (.function x)).insert y.name (.function y)
    exact (hswap.trans hboth).withFunctions rest
  | trans hperm _ ih ih' =>
    have hdistinct' := (hperm.map FunctionDecl.name).nodup_iff.1 hdistinct
    exact (ih h hdistinct).trans (ih' (refl g) hdistinct')

end Frame.SameBindings

/-! ## Scopes -/

/-- The root frames bind the same, and all other frames are the same. -/
structure Scope.SameBindings (s t : Scope) : Prop where
  root : s.root.SameBindings t.root
  current : s.current = t.current
  callers : s.callers = t.callers

namespace Scope.SameBindings

variable {s t : Scope}

theorem refl (s : Scope) : s.SameBindings s := ⟨.refl s.root, rfl, rfl⟩

theorem symm (h : s.SameBindings t) : t.SameBindings s :=
  ⟨h.root.symm, h.current.symm, h.callers.symm⟩

theorem find?_eq (h : s.SameBindings t) (name : String) : s.find? name = t.find? name := by
  unfold Scope.find?
  rw [h.current, h.root name]

theorem modify (h : s.SameBindings t) (name : String) (change : Value → Value) :
    (s.modify name change).SameBindings (t.modify name change) := by
  unfold Scope.modify
  rw [h.current]
  split
  · exact ⟨h.root, rfl, h.callers⟩
  · exact ⟨h.root.modify name change, rfl, h.callers⟩

theorem push (h : s.SameBindings t) : s.push.SameBindings t.push :=
  ⟨h.root, congrArg (Frame.empty :: ·) h.current, h.callers⟩

theorem pop (h : s.SameBindings t) : s.pop.SameBindings t.pop := by
  obtain ⟨root, current, callers⟩ := s
  obtain ⟨root', current', callers'⟩ := t
  obtain ⟨hroot, hcurrent, hcallers⟩ := h
  cases hcurrent
  cases hcallers
  unfold Scope.pop
  dsimp only
  split
  · exact ⟨hroot, rfl, rfl⟩
  · exact ⟨hroot, rfl, rfl⟩
  · exact ⟨hroot, rfl, rfl⟩

theorem enterCall (h : s.SameBindings t) : s.enterCall.SameBindings t.enterCall :=
  ⟨h.root, rfl, by rw [Scope.enterCall, Scope.enterCall, h.current, h.callers]⟩

theorem exitCall (h : s.SameBindings t) : s.exitCall.SameBindings t.exitCall := by
  unfold Scope.exitCall
  rw [h.callers]
  split
  · exact h
  · exact ⟨h.root, rfl, rfl⟩

/-- A name can be declared in both scopes or in neither. -/
theorem declare (h : s.SameBindings t) (name : String) (v : Value) :
    (∃ fault, s.declare name v = .error fault ∧ t.declare name v = .error fault) ∨
    ∃ s' t', s.declare name v = .ok s' ∧ t.declare name v = .ok t' ∧ s'.SameBindings t' := by
  unfold Scope.declare
  rw [← h.current, ← h.root.binds_eq name]
  cases s.current with
  | nil =>
    by_cases hbinds : s.root.binds name = true
    · exact Or.inl ⟨_, if_pos hbinds, if_pos hbinds⟩
    · refine Or.inr ⟨_, _, if_neg hbinds, if_neg hbinds, ?_⟩
      exact ⟨h.root.insert name v, rfl, h.callers⟩
  | cons f outer =>
    by_cases hbinds : f.binds name = true
    · exact Or.inl ⟨_, if_pos hbinds, if_pos hbinds⟩
    · exact Or.inr ⟨_, _, if_neg hbinds, if_neg hbinds, h.root, rfl, h.callers⟩

end Scope.SameBindings

/-- Machines with the same bindings and the same console. -/
structure Machine.SameBindings (m m' : Machine) : Prop where
  scope : m.scope.SameBindings m'.scope
  console : m.console = m'.console

namespace Machine.SameBindings

theorem refl (m : Machine) : m.SameBindings m := ⟨.refl m.scope, rfl⟩

theorem symm {m m' : Machine} (h : m.SameBindings m') : m'.SameBindings m :=
  ⟨h.scope.symm, h.console.symm⟩

end Machine.SameBindings

end MiniC
