import Mathlib.Data.List.Forall2
import MiniC.Scope

/-!
# Finding names in frames

What a name is bound to after each operation on a frame or a context, in terms of what it was bound
to before.
-/

namespace MiniC

namespace Frame

theorem lookup_cons (bound : String) (v : Value) (rest : List (String × Value)) (x : String) :
    ((bound, v) :: rest).lookup x = if x = bound then some v else rest.lookup x := by
  rw [List.lookup_cons]
  by_cases hx : x = bound
  · simp [hx]
  · rw [beq_eq_false_iff_ne.2 hx, if_neg hx]

theorem find?_insert (f : Frame) (name : String) (v : Value) (x : String) :
    (f.insert name v).find? x = if x = name then some v else f.find? x :=
  lookup_cons name v f.bindings x

theorem find?_modify (f : Frame) (name : String) (change : Value → Value) (x : String) :
    (f.modify name change).find? x =
      if x = name then (f.find? x).map change else f.find? x := by
  obtain ⟨bindings⟩ := f
  unfold modify find?
  induction bindings with
  | nil => simp [modifyFirst]
  | cons binding rest ih =>
    obtain ⟨bound, v⟩ := binding
    dsimp only at ih ⊢
    by_cases hbound : name = bound
    · subst hbound
      by_cases hx : x = name <;> simp [modifyFirst, lookup_cons, hx]
    · rw [modifyFirst, if_neg (by simpa using hbound), lookup_cons, lookup_cons, ih]
      by_cases hx : x = bound
      · simp [hx, Ne.symm hbound]
      · simp [hx]

theorem binds_iff {f : Frame} {name : String} :
    f.binds name = true ↔ ∃ v, f.find? name = some v :=
  Option.isSome_iff_exists

theorem find?_put (f : Frame) (name : String) (v : Value) (x : String) :
    (f.put name v).find? x = if x = name then some v else f.find? x := by
  unfold put
  split
  · next hbinds =>
    rw [find?_modify]
    split
    · next hx =>
      obtain ⟨w, hw⟩ := binds_iff.1 hbinds
      rw [hx, hw]
      rfl
    · rfl
  · exact find?_insert f name v x

end Frame

namespace Context

theorem binds_iff {c : Context} {name : String} :
    c.binds name = true ↔ ∃ v, c.find? name = some v := by
  unfold binds find?
  induction c with
  | nil => simp
  | cons f outer ih =>
    rw [List.any_cons, List.findSome?_cons, Bool.or_eq_true, ih]
    unfold Frame.binds
    cases hf : f.find? name with
    | none => simp
    | some v => simp

end Context

/-- All frames of a scope, visible or not. -/
def Scope.frames (s : Scope) : List Frame := s.root :: (s.current ++ s.callers.flatten)

end MiniC
