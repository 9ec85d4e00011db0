import MiniC.Eval.Program
import MiniC.Proofs.Scope.Frame
import MiniC.Proofs.Value.Unplaced

/-!
# Scopes without positions

Positions stand in the functions that a scope binds.  A name is found in a scope without positions
if it is found in the scope, bound to the same value without positions, and every change of a scope
commutes with forgetting positions; for `push` and `enterCall` this holds by definition.
-/

namespace MiniC

/-! ## Frames -/

namespace Frame

/-- A frame without positions. -/
def unplaced (f : Frame) : Frame := ⟨f.bindings.map (Prod.map id Value.unplaced)⟩

variable (f : Frame) (name : String)

theorem find?_unplaced : f.unplaced.find? name = (f.find? name).map Value.unplaced := by
  obtain ⟨bindings⟩ := f
  unfold unplaced find?
  induction bindings with
  | nil => rfl
  | cons binding rest ih =>
    obtain ⟨bound, v⟩ := binding
    show ((bound, v.unplaced) :: rest.map (Prod.map id Value.unplaced)).lookup name = _
    rw [lookup_cons, lookup_cons, ih]
    split <;> rfl

theorem binds_unplaced : f.unplaced.binds name = f.binds name := by
  unfold binds
  rw [find?_unplaced, Option.isSome_map]

theorem modify_unplaced {change change' : Value → Value}
    (h : ∀ v, (change v).unplaced = change' v.unplaced) :
    (f.modify name change).unplaced = f.unplaced.modify name change' := by
  obtain ⟨bindings⟩ := f
  unfold unplaced modify
  congr 1
  induction bindings with
  | nil => rfl
  | cons binding rest ih =>
    obtain ⟨bound, v⟩ := binding
    show (modifyFirst name change ((bound, v) :: rest)).map (Prod.map id Value.unplaced) =
      modifyFirst name change' ((bound, v.unplaced) :: rest.map (Prod.map id Value.unplaced))
    rw [modifyFirst, modifyFirst]
    split
    · exact congrArg (fun w => (bound, w) :: rest.map (Prod.map id Value.unplaced)) (h v)
    · exact congrArg ((bound, v.unplaced) :: ·) ih

end Frame

/-! ## Contexts -/

namespace Context

/-- A context without positions. -/
def unplaced (c : Context) : Context := c.map Frame.unplaced

variable (c : Context) (name : String)

theorem find?_unplaced : c.unplaced.find? name = (c.find? name).map Value.unplaced := by
  unfold unplaced find?
  induction c with
  | nil => rfl
  | cons f outer ih =>
    rw [List.map_cons, List.findSome?_cons, List.findSome?_cons, Frame.find?_unplaced, ih]
    cases f.find? name <;> rfl

theorem binds_unplaced : c.unplaced.binds name = c.binds name := by
  unfold unplaced binds
  rw [List.any_map]
  exact congrArg c.any (funext fun f => f.binds_unplaced name)

theorem modify_unplaced {change change' : Value → Value}
    (h : ∀ v, (change v).unplaced = change' v.unplaced) :
    (c.modify name change).unplaced = c.unplaced.modify name change' := by
  induction c with
  | nil => rfl
  | cons f outer ih =>
    show unplaced (modify (f :: outer) name change) =
      modify (f.unplaced :: unplaced outer) name change'
    unfold modify
    rw [f.binds_unplaced]
    split
    · exact congrArg (· :: unplaced outer) (f.modify_unplaced name h)
    · exact congrArg (f.unplaced :: ·) ih

end Context

/-! ## Scopes -/

namespace Scope

/-- A scope without positions. -/
def unplaced (s : Scope) : Scope :=
  ⟨s.root.unplaced, s.current.unplaced, s.callers.map Context.unplaced⟩

variable (s : Scope) (name : String)

theorem find?_unplaced : s.unplaced.find? name = (s.find? name).map Value.unplaced := by
  unfold find?
  rw [show s.unplaced.current = s.current.unplaced from rfl, Context.find?_unplaced,
    show s.unplaced.root = s.root.unplaced from rfl, Frame.find?_unplaced]
  cases s.current.find? name <;> rfl

theorem lookup_unplaced : s.unplaced.lookup name = (s.lookup name).map Value.unplaced := by
  unfold lookup
  rw [find?_unplaced]
  cases s.find? name <;> rfl

theorem modify_unplaced {change change' : Value → Value}
    (h : ∀ v, (change v).unplaced = change' v.unplaced) :
    (s.modify name change).unplaced = s.unplaced.modify name change' := by
  unfold modify
  rw [show s.unplaced.current = s.current.unplaced from rfl, Context.binds_unplaced]
  split
  · rw [← Context.modify_unplaced s.current name h]
    rfl
  · rw [show s.unplaced.root = s.root.unplaced from rfl, ← Frame.modify_unplaced s.root name h]
    rfl

theorem declare_unplaced (v : Value) :
    s.unplaced.declare name v.unplaced = (s.declare name v).map unplaced := by
  obtain ⟨root, current, callers⟩ := s
  cases current with
  | nil =>
    show (if root.unplaced.binds name = true then _ else _) = Except.map _ (if _ then _ else _)
    rw [root.binds_unplaced]
    split <;> rfl
  | cons f outer =>
    show (if f.unplaced.binds name = true then _ else _) = Except.map _ (if _ then _ else _)
    rw [f.binds_unplaced]
    split <;> rfl

theorem pop_unplaced : s.pop.unplaced = s.unplaced.pop := by
  obtain ⟨root, current, callers⟩ := s
  cases callers with
  | nil => cases current <;> rfl
  | cons caller callers =>
    cases current with
    | nil => rfl
    | cons f outer => cases outer <;> rfl

theorem exitCall_unplaced : s.exitCall.unplaced = s.unplaced.exitCall := by
  obtain ⟨root, current, callers⟩ := s
  cases callers <;> rfl

end Scope

end MiniC
