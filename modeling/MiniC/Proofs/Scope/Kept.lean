import MiniC.Proofs.Scope.Frame
import MiniC.Proofs.Value.Type

/-!
# Kept bindings

`s.Kept closed t` says how a running program changes a scope `s` into `t`: the callers are the same,
the frames are the same in number, and each name that was bound in a frame is still bound there to a
value that keeps its type.  New names can come only to the innermost frame, and to no frame at all
if `closed` holds.  A scope is `Valid` if only the context outside all calls is without a frame;
what `pop` and `exitCall` take away is then what `push` and `enterCall` added.
-/

namespace MiniC

/-! ## Values -/

/-- The second value is of the same type as the first: data of the same shape if that is data, and
the same value if it is neither a scalar nor an array. -/
structure Value.KeepsType (v w : Value) : Prop where
  data : ∀ {leaf dims}, v.Shaped leaf dims → w.Shaped leaf dims
  other : v.isScalar = false → v.isArray = false → w = v

namespace Value.KeepsType

theorem refl (v : Value) : v.KeepsType v := ⟨id, fun _ _ => rfl⟩

theorem trans {u v w : Value} (huv : u.KeepsType v) (hvw : v.KeepsType w) : u.KeepsType w where
  data h := hvw.data (huv.data h)
  other hs ha := by
    cases huv.other hs ha
    exact hvw.other hs ha

theorem hasType {v w : Value} {type : ValueType} (h : v.KeepsType w) (hv : v.HasType type) :
    w.HasType type := by
  cases type with
  | data leaf dims =>
    obtain ⟨shape, hlen, hshaped⟩ := hv
    exact ⟨shape, hlen, h.data hshaped⟩
  | void | function f =>
    cases hv
    exact h.other rfl rfl

end Value.KeepsType

/-- An assignment keeps the type of what it assigns to, whatever the path. -/
theorem Value.keepsType_setAt {v current new updated : Value} {path : List Int64} {op : AssignOp}
    (hcurrent : v.atPath path = .ok current) (h : current.assigned op new = .ok updated) :
    v.KeepsType (v.setAt path updated) := by
  obtain ⟨type, hold, hnew⟩ := assigned_ok h
  refine ⟨fun hshaped => hshaped.setAt hcurrent fun rest hrest => ?_, fun hs ha => ?_⟩
  · obtain ⟨rfl, rfl⟩ := hold.unique hrest
    exact hnew
  · -- a path into what is neither a scalar nor an array selects nothing that can be assigned to
    cases path with
    | nil =>
      cases hcurrent
      rw [hold.1] at hs
      cases hs
    | cons i path =>
      cases v with
      | array elements => cases ha
      | int _ | float _ | string _ | void | function _ => cases hcurrent

/-! ## Frames -/

/-- Every name bound in the first frame is bound in the second one, to a value of the same type; and
no other name, if the frame is closed. -/
structure Frame.Kept (closed : Prop) (f g : Frame) : Prop where
  bound : ∀ {name v}, f.find? name = some v → ∃ w, g.find? name = some w ∧ v.KeepsType w
  unbound : closed → ∀ {name}, f.find? name = none → g.find? name = none

namespace Frame.Kept

variable {closed closed' : Prop} {f g h : Frame}

theorem refl (closed : Prop) (f : Frame) : f.Kept closed f :=
  ⟨fun {_ v} hv => ⟨v, hv, .refl v⟩, fun _ _ => id⟩

theorem trans (hfg : f.Kept closed g) (hgh : g.Kept closed h) : f.Kept closed h where
  bound hv := by
    obtain ⟨w, hw, hvw⟩ := hfg.bound hv
    obtain ⟨u, hu, hwu⟩ := hgh.bound hw
    exact ⟨u, hu, hvw.trans hwu⟩
  unbound hclosed _ hnone := hgh.unbound hclosed (hfg.unbound hclosed hnone)

theorem mono (hclosed : closed' → closed) (h : f.Kept closed g) : f.Kept closed' g :=
  ⟨h.bound, fun hc => h.unbound (hclosed hc)⟩

/-- What is bound in a closed frame comes from a binding of the same name. -/
theorem origin (hclosed : closed) (h : f.Kept closed g) {name : String} {w : Value}
    (hw : g.find? name = some w) : ∃ v, f.find? name = some v ∧ v.KeepsType w := by
  cases hv : f.find? name with
  | none =>
    rw [h.unbound hclosed hv] at hw
    cases hw
  | some v =>
    obtain ⟨u, hu, hvu⟩ := h.bound hv
    rw [hw] at hu
    cases hu
    exact ⟨v, rfl, hvu⟩

/-- A closed frame binds the same names, to values of the same types. -/
theorem rel (hclosed : closed) (h : f.Kept closed g) (name : String) :
    Option.Rel Value.KeepsType (f.find? name) (g.find? name) := by
  cases hf : f.find? name with
  | none =>
    rw [h.unbound hclosed hf]
    exact .none
  | some v =>
    obtain ⟨w, hw, hvw⟩ := h.bound hf
    rw [hw]
    exact .some hvw

end Frame.Kept

theorem Frame.kept_modify {f : Frame} {name : String} {v : Value} {change : Value → Value}
    (hv : f.find? name = some v) (h : v.KeepsType (change v)) (closed : Prop) :
    f.Kept closed (f.modify name change) := by
  refine ⟨fun {x u} hu => ?_, fun _ {x} hnone => ?_⟩
  · rw [find?_modify]
    split
    · next hx =>
      subst hx
      rw [hv] at hu
      cases hu
      exact ⟨change v, by rw [hv]; rfl, h⟩
    · exact ⟨u, hu, .refl u⟩
  · rw [find?_modify, hnone]
    split <;> rfl

theorem Frame.kept_insert {f : Frame} {name : String} (h : ¬ f.binds name = true) (v : Value) :
    f.Kept False (f.insert name v) := by
  refine ⟨fun {x u} hu => ?_, False.elim⟩
  rw [find?_insert]
  split
  · next hx => exact absurd (binds_iff.2 ⟨u, hx ▸ hu⟩) h
  · exact ⟨u, hu, .refl u⟩

/-! ## Contexts -/

/-- The frames are kept one by one, and all but the innermost are closed. -/
inductive Context.Kept (closed : Prop) : Context → Context → Prop
  | nil : Kept closed [] []
  | cons {f g : Frame} {outer outer' : Context} (head : f.Kept closed g)
      (tail : List.Forall₂ (Frame.Kept True) outer outer') : Kept closed (f :: outer) (g :: outer')

namespace Context.Kept

variable {closed closed' : Prop} {c d e : Context}

theorem forall₂_refl (c : Context) : List.Forall₂ (Frame.Kept True) c c :=
  List.forall₂_same.2 fun f _ => .refl True f

theorem forall₂_trans (hcd : List.Forall₂ (Frame.Kept True) c d)
    (hde : List.Forall₂ (Frame.Kept True) d e) : List.Forall₂ (Frame.Kept True) c e := by
  induction hcd generalizing e with
  | nil => exact hde
  | cons h _ ih =>
    cases hde with
    | cons h' hrest => exact .cons (h.trans h') (ih hrest)

theorem of_forall₂ (h : List.Forall₂ (Frame.Kept True) c d) : c.Kept closed d := by
  cases h with
  | nil => exact .nil
  | cons head tail => exact .cons (head.mono fun _ => trivial) tail

theorem refl (closed : Prop) (c : Context) : c.Kept closed c := of_forall₂ (forall₂_refl c)

theorem trans (hcd : c.Kept closed d) (hde : d.Kept closed e) : c.Kept closed e := by
  cases hcd with
  | nil => exact hde
  | cons head tail =>
    cases hde with
    | cons head' tail' => exact .cons (head.trans head') (forall₂_trans tail tail')

theorem mono (hclosed : closed' → closed) (h : c.Kept closed d) : c.Kept closed' d := by
  cases h with
  | nil => exact .nil
  | cons head tail => exact .cons (head.mono hclosed) tail

theorem forall₂ (h : c.Kept closed d) : List.Forall₂ (Frame.Kept False) c d := by
  cases h with
  | nil => exact .nil
  | cons head tail => exact .cons (head.mono False.elim) (tail.imp fun f g h => h.mono False.elim)

theorem ne_nil_iff (h : c.Kept closed d) : d ≠ [] ↔ c ≠ [] := by
  cases h with
  | nil => exact Iff.rfl
  | cons head tail => exact iff_of_true (List.cons_ne_nil _ _) (List.cons_ne_nil _ _)

theorem eq_nil (h : c.Kept closed d) (hc : c = []) : d = [] :=
  not_not.1 (mt h.ne_nil_iff.1 (not_not.2 hc))

theorem forall₂_closed (hclosed : closed) (h : c.Kept closed d) :
    List.Forall₂ (Frame.Kept True) c d := by
  cases h with
  | nil => exact .nil
  | cons head tail => exact .cons (head.mono fun _ => hclosed) tail

/-- In closed contexts a name has innermost bindings of the same type. -/
theorem rel (hclosed : closed) (h : c.Kept closed d) (name : String) :
    Option.Rel Value.KeepsType (c.find? name) (d.find? name) := by
  have hall := h.forall₂_closed hclosed
  unfold find?
  induction hall with
  | nil => exact .none
  | @cons f g outer outer' hfg _ ih =>
    rw [List.findSome?_cons, List.findSome?_cons]
    have hrel := hfg.rel trivial name
    generalize f.find? name = o at hrel
    generalize g.find? name = o' at hrel
    cases hrel with
    | none => exact ih (of_forall₂ ‹_›)
    | some h => exact .some h

end Context.Kept

theorem Context.kept_modify {c : Context} {name : String} {v : Value} {change : Value → Value}
    (hv : c.find? name = some v) (h : v.KeepsType (change v)) (closed : Prop) :
    c.Kept closed (c.modify name change) := by
  refine .of_forall₂ ?_
  unfold find? at hv
  induction c with
  | nil => cases hv
  | cons f outer ih =>
    rw [List.findSome?_cons] at hv
    unfold modify
    split
    · next hbinds =>
      obtain ⟨u, hu⟩ := Frame.binds_iff.1 hbinds
      rw [hu] at hv
      cases hv
      exact .cons (Frame.kept_modify hu h True) (Kept.forall₂_refl outer)
    · next hbinds =>
      have hnone : f.find? name = none :=
        Option.eq_none_iff_forall_ne_some.2 fun u hu => hbinds (Frame.binds_iff.2 ⟨u, hu⟩)
      rw [hnone] at hv
      exact .cons (.refl True f) (ih hv)

/-! ## Scopes -/

/-- Every context but the last has a frame. -/
def Context.Nested : Context → List Context → Prop
  | _, [] => True
  | c, caller :: callers => c ≠ [] ∧ Nested caller callers

/-- Every call has a frame of its own. -/
def Scope.Valid (s : Scope) : Prop := s.current.Nested s.callers

/-- The frames are kept one by one, and the callers are the same.  The root frame is the innermost
one, in which names can be declared, only while there is no other. -/
structure Scope.Kept (closed : Prop) (s t : Scope) : Prop where
  root : s.root.Kept (closed ∨ s.current ≠ []) t.root
  current : s.current.Kept closed t.current
  callers : t.callers = s.callers

namespace Scope

variable {closed closed' : Prop} {s t u : Scope} {name : String} {v : Value}

theorem Kept.refl (closed : Prop) (s : Scope) : s.Kept closed s :=
  ⟨.refl _ s.root, .refl closed s.current, rfl⟩

theorem Kept.trans (hst : s.Kept closed t) (htu : t.Kept closed u) : s.Kept closed u where
  root := hst.root.trans (htu.root.mono (Or.imp id hst.current.ne_nil_iff.2))
  current := hst.current.trans htu.current
  callers := htu.callers.trans hst.callers

theorem Kept.mono (hclosed : closed' → closed) (h : s.Kept closed t) : s.Kept closed' t :=
  ⟨h.root.mono (Or.imp hclosed id), h.current.mono hclosed, h.callers⟩

/-- In a closed scope a name has visible bindings of the same type. -/
theorem Kept.rel (hclosed : closed) (h : s.Kept closed t) (name : String) :
    Option.Rel Value.KeepsType (s.find? name) (t.find? name) := by
  have hcurrent := h.current.rel hclosed name
  have hroot := h.root.rel (Or.inl hclosed) name
  unfold find?
  generalize s.current.find? name = o at hcurrent
  generalize t.current.find? name = o' at hcurrent
  cases hcurrent with
  | none => exact hroot
  | some h => exact .some h

theorem kept_modify {change : Value → Value} (hv : s.find? name = some v)
    (h : v.KeepsType (change v)) (closed : Prop) : s.Kept closed (s.modify name change) := by
  unfold modify
  split
  · next hbinds =>
    obtain ⟨w, hw⟩ := Context.binds_iff.1 hbinds
    rw [find?, hw] at hv
    cases hv
    exact ⟨.refl _ _, Context.kept_modify hw h closed, rfl⟩
  · next hbinds =>
    have hnone : s.current.find? name = none :=
      Option.eq_none_iff_forall_ne_some.2 fun w hw => hbinds (Context.binds_iff.2 ⟨w, hw⟩)
    rw [find?, hnone] at hv
    exact ⟨Frame.kept_modify hv h _, .refl _ _, rfl⟩

theorem kept_declare (h : s.declare name v = .ok t) : s.Kept False t := by
  obtain ⟨root, current, callers⟩ := s
  cases current with
  | nil =>
    simp only [declare] at h
    split at h
    · cases h
    · next hbinds =>
      cases h
      exact ⟨(Frame.kept_insert hbinds v).mono (Or.rec id fun hne => hne rfl), .refl _ _, rfl⟩
  | cons f outer =>
    simp only [declare] at h
    split at h
    · cases h
    · next hbinds =>
      cases h
      exact ⟨.refl _ _, .cons (Frame.kept_insert hbinds v) (Context.Kept.forall₂_refl outer), rfl⟩

/-- What happens in a frame of its own declares nothing outside of it. -/
theorem Kept.pop (hvalid : s.Valid) (h : s.push.Kept False t) : s.Kept True t.pop := by
  obtain ⟨root, current, callers⟩ := s
  obtain ⟨root', current', callers'⟩ := t
  obtain ⟨hroot, hcurrent, hcallers⟩ := h
  cases hcallers
  cases hcurrent with
  | @cons _ g _ outer head tail =>
    have hpop : (Scope.mk root' (g :: outer) callers).pop = ⟨root', outer, callers⟩ := by
      cases callers with
      | nil => rfl
      | cons caller callers =>
        cases tail with
        | nil => exact absurd rfl hvalid.1
        | cons _ _ => rfl
    show Scope.Kept True _ (Scope.mk root' (g :: outer) callers).pop
    rw [hpop]
    exact ⟨hroot.mono fun _ => Or.inr (List.cons_ne_nil _ _), .of_forall₂ tail, rfl⟩

/-- A call declares nothing outside of its context. -/
theorem Kept.exitCall (h : s.enterCall.Kept False t) : s.Kept True t.exitCall := by
  obtain ⟨root', current', callers'⟩ := t
  obtain ⟨hroot, hcurrent, hcallers⟩ := h
  cases hcallers
  exact ⟨hroot.mono fun _ => Or.inr (List.cons_ne_nil _ _), .refl True s.current, rfl⟩

/-! ### Validity -/

theorem Kept.valid (hvalid : s.Valid) (h : s.Kept closed t) : t.Valid := by
  obtain ⟨root, current, callers⟩ := s
  obtain ⟨root', current', callers'⟩ := t
  obtain ⟨-, hcurrent, hcallers⟩ := h
  cases hcallers
  cases callers with
  | nil => exact trivial
  | cons caller callers => exact ⟨hcurrent.ne_nil_iff.2 hvalid.1, hvalid.2⟩

theorem valid_push (h : s.Valid) : s.push.Valid := by
  obtain ⟨root, current, callers⟩ := s
  cases callers with
  | nil => exact trivial
  | cons caller callers => exact ⟨List.cons_ne_nil _ _, h.2⟩

theorem valid_enterCall (h : s.Valid) : s.enterCall.Valid :=
  ⟨List.cons_ne_nil _ _, h⟩

end Scope

end MiniC
