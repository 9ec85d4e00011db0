import MiniC.Proofs.Scope.Balance

/-!
# Scopes as flat chains

A scope can be kept in two lists: all its frames, the root first and the innermost last, and for
each active call the index of its first frame.  Which frames are visible, and which may be removed,
is then arithmetic on these indices.

Main statement: whatever operations are applied to a new scope, the flat chain answers each of them
as the scope does and ends as the scope laid out flat (`flat_run`).  The scope that is reached obeys
the laws of isolated contexts (`Scope.Isolates`), and in the flat chain the indices where the calls
begin increase and stay between the first frame above the root and the last one
(`FlatScope.InBounds`).
-/

namespace MiniC

/-! ## The flat chain -/

/-- All frames, the root first, and for each active call the index of its first frame, the latest
call last. -/
structure FlatScope where
  frames : List Frame
  bases : List Nat

namespace FlatScope

/-- A root frame without bindings alone. -/
def empty : FlatScope := ⟨[.empty], []⟩

/-- The number of frames. -/
def depth (s : FlatScope) : Nat := s.frames.length

/-- The index of the lowest visible frame above the root. -/
def base (s : FlatScope) : Nat := s.bases.getLast?.getD 1

/-- The indices of the visible frames, the innermost first. -/
def visible (s : FlatScope) : List Nat := (List.range' s.base (s.depth - s.base)).reverse ++ [0]

/-- What the frame at an index binds a name to. -/
def bound (s : FlatScope) (name : String) (i : Nat) : Option Value :=
  s.frames[i]?.bind (·.find? name)

/-- The innermost visible binding of a name, which has to be there. -/
def lookup (s : FlatScope) (name : String) : Except Fault Value :=
  match s.visible.findSome? (s.bound name) with
  | some v => .ok v
  | none => .error (.undeclared name)

/-- Changes the innermost visible binding of a name, and gives what it was. -/
def change (s : FlatScope) (name : String) (f : Value → Value) : Except Fault Value × FlatScope :=
  match s.visible.find? fun i => (s.bound name i).isSome with
  | none => (.error (.undeclared name), s)
  | some i =>
    match s.bound name i with
    | none => (.error (.undeclared name), s)
    | some v => (.ok v, { s with frames := s.frames.modify i (·.modify name f) })

/-- Binds a name in the last frame, where it must not be bound yet. -/
def declare (s : FlatScope) (name : String) (v : Value) : Except Fault Unit × FlatScope :=
  match s.frames.getLast? with
  | none => (.error (.undeclared name), s)
  | some f =>
    if f.binds name then (.error (.redeclared name), s)
    else (.ok (), { s with frames := s.frames.dropLast ++ [f.insert name v] })

/-- Binds a name in the first frame, whether it is bound there or not. -/
def defineGlobal (s : FlatScope) (name : String) (v : Value) : FlatScope :=
  { s with frames := s.frames.modify 0 (·.put name v) }

/-- Opens a frame. -/
def push (s : FlatScope) : FlatScope := { s with frames := s.frames ++ [.empty] }

/-- Closes the last frame, if it is above the root and above the first frame of the latest call. -/
def pop (s : FlatScope) : FlatScope :=
  if s.depth > (s.bases.getLast?.map (· + 1)).getD 1 then { s with frames := s.frames.dropLast }
  else s

/-- Begins a call, with a frame of its own. -/
def enterCall (s : FlatScope) : FlatScope := ⟨s.frames ++ [.empty], s.bases ++ [s.depth]⟩

/-- Ends the latest call and drops its frames. -/
def exitCall (s : FlatScope) : FlatScope :=
  match s.bases.getLast? with
  | none => s
  | some base => ⟨s.frames.take base, s.bases.dropLast⟩

/-- The indices where the calls begin increase, and lie between the first frame above the root and
the last frame. -/
structure InBounds (s : FlatScope) : Prop where
  increasing : s.bases.Pairwise (· < ·)
  bounds : ∀ base ∈ s.bases, 1 ≤ base ∧ base ≤ s.depth - 1

end FlatScope

/-! ## Operations -/

/-- An operation on a scope.  `change` is any use of a reference to the innermost visible binding of
a name: it gives what was bound and puts something else in its place. -/
inductive ScopeOp
  | push
  | pop
  | enterCall
  | exitCall
  | declare (name : String) (v : Value)
  | assign (name : String) (v : Value)
  | defineGlobal (name : String) (v : Value)
  | lookup (name : String)
  | change (name : String) (f : Value → Value)

namespace ScopeOp

/-- What an operation answers and the scope that it leaves. -/
def onScope (s : Scope) : ScopeOp → Except Fault (Option Value) × Scope
  | push => (.ok none, s.push)
  | pop => (.ok none, s.pop)
  | enterCall => (.ok none, s.enterCall)
  | exitCall => (.ok none, s.exitCall)
  | declare name v => settle (s.declare name v)
  | assign name v => settle (s.assign name v)
  | defineGlobal name v => (.ok none, s.defineGlobal name v)
  | lookup name => ((s.lookup name).map some, s)
  | change name f =>
    match s.lookup name with
    | .ok v => (.ok (some v), s.modify name f)
    | .error fault => (.error fault, s)
where
  settle : Except Fault Scope → Except Fault (Option Value) × Scope
    | .ok t => (.ok none, t)
    | .error fault => (.error fault, s)

/-- What an operation answers and the flat chain that it leaves. -/
def onFlat (s : FlatScope) : ScopeOp → Except Fault (Option Value) × FlatScope
  | push => (.ok none, s.push)
  | pop => (.ok none, s.pop)
  | enterCall => (.ok none, s.enterCall)
  | exitCall => (.ok none, s.exitCall)
  | declare name v => (s.declare name v).map (·.map fun _ => none) id
  | assign name v => (s.change name fun _ => v).map (·.map fun _ => none) id
  | defineGlobal name v => (.ok none, s.defineGlobal name v)
  | lookup name => ((s.lookup name).map some, s)
  | change name f => (s.change name f).map (·.map some) id

/-- Applies operations in a row, whether they fail or not. -/
def run {σ : Type} (step : σ → ScopeOp → Except Fault (Option Value) × σ) :
    List ScopeOp → σ → List (Except Fault (Option Value)) × σ
  | [], s => ([], s)
  | op :: ops, s =>
    let rest := run step ops (step s op).2
    ((step s op).1 :: rest.1, rest.2)

end ScopeOp

/-! ## Laying a scope out flat -/

namespace Scope

variable {s : Scope}

/-- The frames that lookups go through, the innermost first. -/
def visible (s : Scope) : List Frame := s.current ++ [s.root]

/-- The frames below the current context, the root first. -/
def below (s : Scope) : List Frame := s.root :: s.callers.flatten.reverse

/-- A scope laid out flat. -/
def flat (s : Scope) : FlatScope := ⟨s.chain.reverse, s.callBases⟩

theorem frames_flat (s : Scope) : s.flat.frames = s.below ++ s.current.reverse := by
  unfold flat chain below
  simp

theorem frames_flat_cons (root f : Frame) (outer : Context) (callers : List Context) :
    (flat ⟨root, f :: outer, callers⟩).frames = (flat ⟨root, outer, callers⟩).frames ++ [f] := by
  simp [flat, chain]

theorem length_below (s : Scope) : s.below.length = 1 + s.callers.flatten.length := by
  unfold below
  rw [List.length_cons, List.length_reverse, Nat.add_comm]

theorem depth_flat (s : Scope) : s.flat.depth = s.depth :=
  (List.length_reverse).trans s.length_chain

/-- The latest call begins where the current context does. -/
theorem getLast?_bases_flat (s : Scope) :
    s.flat.bases.getLast? = if s.callers = [] then none else some s.below.length := by
  rw [length_below]
  unfold flat callBases
  cases s.callers with
  | nil => rfl
  | cons caller callers => simp [callBases.bases]

theorem base_flat (s : Scope) : s.flat.base = s.below.length := by
  unfold FlatScope.base
  rw [getLast?_bases_flat]
  split
  · next hcallers => simp [below, hcallers]
  · rfl

theorem visible_flat (s : Scope) :
    s.flat.visible = (List.range' s.below.length s.current.length).reverse ++ [0] := by
  have hlength : s.depth - s.below.length = s.current.length := by
    rw [length_below]
    unfold depth
    omega
  unfold FlatScope.visible
  rw [base_flat, depth_flat, hlength]

end Scope

/-! ## Finding and changing a binding by its index -/

theorem Frame.modify_append (below : List Frame) (g : Frame) (above : List Frame)
    (f : Frame → Frame) : (below ++ g :: above).modify below.length f = below ++ f g :: above :=
  List.modifyTailIdx_add (List.modifyHead f) 0 below (g :: above)

/-- The frames of a context on top of others are searched by their indices from the last one down,
and the index that is found is the one of the frame that the context changes. -/
theorem Context.find?_reverse_range' (name : String) (below : List Frame) (c : Context)
    (above : List Frame) :
    let frames := below ++ c.reverse ++ above
    let bound := fun i => frames[i]?.bind (·.find? name)
    let first := (List.range' below.length c.length).reverse.find? fun i => (bound i).isSome
    (c.find? name = none ∧ first = none) ∨
      ∃ i v, c.find? name = some v ∧ first = some i ∧ bound i = some v ∧
        ∀ f, frames.modify i (·.modify name f) = below ++ (c.modify name f).reverse ++ above := by
  induction c generalizing above with
  | nil => exact .inl ⟨rfl, rfl⟩
  | cons g outer ih =>
    have hframes : below ++ (g :: outer).reverse ++ above
        = below ++ outer.reverse ++ (g :: above) := by
      simp
    have hlength : (below ++ outer.reverse).length = below.length + outer.length := by
      rw [List.length_append, List.length_reverse]
    have hlast : (below ++ outer.reverse ++ (g :: above))[below.length + outer.length]? = some g :=
      by rw [← hlength, List.getElem?_append_right (Nat.le_refl _), Nat.sub_self]; rfl
    have hindices : (List.range' below.length (g :: outer).length).reverse
        = (below.length + outer.length) :: (List.range' below.length outer.length).reverse := by
      rw [List.length_cons, List.range'_concat, Nat.one_mul, List.reverse_append]
      rfl
    dsimp only
    rw [hframes, hindices]
    cases hg : g.find? name with
    | some v =>
      refine .inr ⟨below.length + outer.length, v, ?_, ?_, ?_, fun f => ?_⟩
      · unfold find?
        rw [List.findSome?_cons, hg]
      · rw [List.find?_cons_of_pos]
        rw [hlast, Option.bind_some, hg]
        rfl
      · rw [hlast, Option.bind_some, hg]
      · rw [modify, if_pos (Frame.binds_iff.2 ⟨v, hg⟩), ← hlength, Frame.modify_append]
        simp
    | none =>
      have hunbound : ¬ g.binds name = true := by
        unfold Frame.binds
        rw [hg]
        exact Bool.false_ne_true
      rw [List.find?_cons_of_neg (by rw [hlast, Option.bind_some, hg]; exact Bool.false_ne_true)]
      have hfind : find? (g :: outer) name = find? outer name := by
        unfold find?
        rw [List.findSome?_cons, hg]
      rw [hfind]
      refine (ih (g :: above)).imp id fun ⟨i, v, hv, hfirst, hbound, hmodify⟩ => ?_
      refine ⟨i, v, hv, hfirst, hbound, fun f => ?_⟩
      rw [hmodify f, modify, if_neg hunbound]
      simp

namespace Scope

variable {s : Scope}

/-- Names are found in a flat chain by their indices as they are found in the scope, and the index
that is found is the one of the frame that the scope changes. -/
theorem find?_visible_flat (s : Scope) (name : String) :
    let first := s.flat.visible.find? fun i => (s.flat.bound name i).isSome
    (s.find? name = none ∧ first = none) ∨
      ∃ i v, s.find? name = some v ∧ first = some i ∧ s.flat.bound name i = some v ∧
        ∀ f, { s.flat with frames := s.flat.frames.modify i (·.modify name f) }
          = (s.modify name f).flat := by
  have hcontext := Context.find?_reverse_range' name s.below s.current []
  simp only [List.append_nil, ← frames_flat] at hcontext
  dsimp only
  rw [visible_flat, List.find?_append]
  obtain ⟨hnone, hfirst⟩ | ⟨i, v, hv, hfirst, hbound, hmodify⟩ := hcontext
  · have hroot : s.flat.bound name 0 = s.root.find? name := by
      unfold FlatScope.bound
      rw [frames_flat]
      rfl
    have hunbound : ¬ s.current.binds name = true := by
      intro hbinds
      obtain ⟨v, hv⟩ := Context.binds_iff.1 hbinds
      rw [hnone] at hv
      cases hv
    unfold find? FlatScope.bound at *
    rw [hnone, hfirst, Option.none_or, Option.none_or, List.find?_singleton, hroot]
    cases hv : s.root.find? name with
    | none => exact .inl ⟨rfl, rfl⟩
    | some v =>
      refine .inr ⟨0, v, rfl, rfl, hroot.trans hv, fun f => ?_⟩
      unfold modify
      rw [if_neg hunbound, frames_flat]
      simp [flat, chain, below, callBases]
  · refine .inr ⟨i, v, ?_, ?_, hbound, fun f => ?_⟩
    · unfold find?
      rw [hv]
      rfl
    · unfold FlatScope.bound
      rw [hfirst]
      rfl
    · unfold modify
      rw [hmodify f, if_pos (Context.binds_iff.2 ⟨v, hv⟩)]
      simp [flat, chain, below, callBases]

/-! ### Operations -/

theorem lookup_flat (s : Scope) (name : String) : s.flat.lookup name = s.lookup name := by
  have hfirst : s.flat.visible.findSome? (s.flat.bound name)
      = (s.flat.visible.find? fun i => (s.flat.bound name i).isSome).bind (s.flat.bound name) := by
    generalize s.flat.visible = indices
    induction indices with
    | nil => rfl
    | cons i indices ih =>
      rw [List.findSome?_cons, List.find?_cons, ih]
      cases hi : s.flat.bound name i with
      | none => rfl
      | some v => exact hi.symm
  unfold FlatScope.lookup lookup
  rw [hfirst]
  obtain ⟨hnone, hindex⟩ | ⟨i, v, hv, hindex, hbound, -⟩ := s.find?_visible_flat name
  · rw [hnone, hindex]
    rfl
  · rw [hv, hindex, Option.bind_some, hbound]

theorem change_flat (s : Scope) (name : String) (f : Value → Value) :
    s.flat.change name f = match s.lookup name with
      | .ok v => (.ok v, (s.modify name f).flat)
      | .error fault => (.error fault, s.flat) := by
  unfold FlatScope.change lookup
  obtain ⟨hnone, hindex⟩ | ⟨i, v, hv, hindex, hbound, hmodify⟩ := s.find?_visible_flat name
  · rw [hnone, hindex]
  · rw [hv, hindex]
    dsimp only
    rw [hbound]
    dsimp only
    rw [hmodify f]

theorem declare_flat (hvalid : s.Valid) (name : String) (v : Value) :
    s.flat.declare name v = match s.declare name v with
      | .ok t => (.ok (), t.flat)
      | .error fault => (.error fault, s.flat) := by
  obtain ⟨root, current, callers⟩ := s
  unfold FlatScope.declare declare
  cases current with
  | cons f outer =>
    rw [frames_flat_cons, List.getLast?_concat, List.dropLast_concat]
    dsimp only
    split
    · rfl
    · dsimp only
      rw [← frames_flat_cons]
      rfl
  | nil =>
    -- without a frame above the root there is no call, so the root is the last frame
    cases callers with
    | cons caller callers => exact absurd rfl hvalid.1
    | nil =>
      have hlast : (flat ⟨root, [], []⟩).frames.getLast? = some root := rfl
      rw [hlast]
      dsimp only
      split
      · rfl
      · rfl

theorem defineGlobal_flat (s : Scope) (name : String) (v : Value) :
    s.flat.defineGlobal name v = (s.defineGlobal name v).flat := by
  simp [FlatScope.defineGlobal, defineGlobal, flat, chain, callBases]

theorem push_flat (s : Scope) : s.flat.push = s.push.flat := by
  simp [FlatScope.push, push, flat, chain, callBases]

theorem pop_flat (hvalid : s.Valid) : s.flat.pop = s.pop.flat := by
  have hdepth : s.flat.depth = s.below.length + s.current.length := by
    unfold FlatScope.depth
    rw [frames_flat, List.length_append, List.length_reverse]
  unfold FlatScope.pop
  rw [hdepth, getLast?_bases_flat]
  obtain ⟨root, current, callers⟩ := s
  cases callers with
  | nil =>
    cases current with
    | nil => rfl
    | cons f outer =>
      have hfloor : (below ⟨root, f :: outer, []⟩).length + (f :: outer).length > 1 := by
        simp [below]
      rw [frames_flat_cons, List.dropLast_concat]
      exact if_pos hfloor
  | cons caller callers =>
    cases current with
    | nil => exact absurd rfl hvalid.1
    | cons f outer =>
      cases outer with
      | nil => simp [pop]
      | cons g outer =>
        have habove : (f :: g :: outer).length > 1 := by simp
        rw [frames_flat_cons, List.dropLast_concat]
        exact if_pos (Nat.add_lt_add_left habove _)

theorem enterCall_flat (s : Scope) : s.flat.enterCall = s.enterCall.flat := by
  unfold FlatScope.enterCall
  rw [depth_flat]
  simp [enterCall, flat, chain, callBases, callBases.bases, depth]
  omega

theorem exitCall_flat (s : Scope) : s.flat.exitCall = s.exitCall.flat := by
  unfold FlatScope.exitCall
  rw [getLast?_bases_flat, frames_flat]
  obtain ⟨root, current, callers⟩ := s
  cases callers with
  | nil => rfl
  | cons caller callers =>
    rw [if_neg (List.cons_ne_nil _ _)]
    dsimp only
    rw [List.take_left]
    simp [exitCall, flat, chain, below, callBases, callBases.bases]

end Scope

/-! ## Runs -/

namespace Scope

variable {s t : Scope}

theorem valid_of_callers (hvalid : s.Valid) (hcallers : t.callers = s.callers)
    (hcurrent : s.current ≠ [] → t.current ≠ []) : t.Valid := by
  unfold Valid at *
  rw [hcallers]
  cases h : s.callers with
  | nil => exact trivial
  | cons caller callers =>
    rw [h] at hvalid
    exact ⟨hcurrent hvalid.1, hvalid.2⟩

theorem valid_pop (hvalid : s.Valid) : s.pop.Valid := by
  obtain ⟨root, current, callers⟩ := s
  cases callers with
  | nil =>
    cases current with
    | nil => exact trivial
    | cons f outer => exact trivial
  | cons caller callers =>
    cases current with
    | nil => exact absurd rfl hvalid.1
    | cons f outer =>
      cases outer with
      | nil => exact hvalid
      | cons g outer => exact ⟨List.cons_ne_nil _ _, hvalid.2⟩

theorem valid_exitCall (hvalid : s.Valid) : s.exitCall.Valid := by
  obtain ⟨root, current, callers⟩ := s
  cases callers with
  | nil => exact hvalid
  | cons caller callers => exact hvalid.2

theorem valid_modify (hvalid : s.Valid) (name : String) (f : Value → Value) :
    (s.modify name f).Valid := by
  unfold modify
  split
  · refine valid_of_callers hvalid rfl fun hne => ?_
    cases hcurrent : s.current with
    | nil => exact absurd hcurrent hne
    | cons g outer =>
      unfold Context.modify
      split <;> exact List.cons_ne_nil _ _
  · exact valid_of_callers hvalid rfl id

end Scope

namespace ScopeOp

variable {s : Scope}

/-- The flat chain answers an operation as the scope does. -/
theorem onFlat_flat (hvalid : s.Valid) (op : ScopeOp) :
    op.onFlat s.flat = ((op.onScope s).1, (op.onScope s).2.flat) := by
  cases op with
  | push => exact congrArg (Prod.mk _) s.push_flat
  | pop => exact congrArg (Prod.mk _) (Scope.pop_flat hvalid)
  | enterCall => exact congrArg (Prod.mk _) s.enterCall_flat
  | exitCall => exact congrArg (Prod.mk _) s.exitCall_flat
  | defineGlobal name v => exact congrArg (Prod.mk _) (s.defineGlobal_flat name v)
  | declare name v =>
    simp only [onFlat, onScope, Scope.declare_flat hvalid]
    cases s.declare name v with
    | ok t => rfl
    | error fault => rfl
  | assign name v =>
    simp only [onFlat, onScope, Scope.assign, Scope.change_flat]
    cases s.lookup name with
    | ok w => rfl
    | error fault => rfl
  | lookup name => simp only [onFlat, onScope, Scope.lookup_flat]
  | change name f =>
    simp only [onFlat, onScope, Scope.change_flat]
    cases s.lookup name with
    | ok w => rfl
    | error fault => rfl

/-- Every operation leaves each call a frame of its own. -/
theorem valid_onScope (hvalid : s.Valid) (op : ScopeOp) : (op.onScope s).2.Valid := by
  cases op with
  | push => exact Scope.valid_push hvalid
  | pop => exact Scope.valid_pop hvalid
  | enterCall => exact Scope.valid_enterCall hvalid
  | exitCall => exact Scope.valid_exitCall hvalid
  | defineGlobal name v => exact Scope.valid_of_callers hvalid rfl id
  | lookup name => exact hvalid
  | declare name v =>
    simp only [onScope]
    cases h : s.declare name v with
    | ok t => exact (Scope.kept_declare h).valid hvalid
    | error fault => exact hvalid
  | assign name v =>
    simp only [onScope, Scope.assign]
    cases s.lookup name with
    | ok w => exact Scope.valid_modify hvalid name _
    | error fault => exact hvalid
  | change name f =>
    simp only [onScope]
    cases s.lookup name with
    | ok w => exact Scope.valid_modify hvalid name f
    | error fault => exact hvalid

theorem run_valid (hvalid : s.Valid) (ops : List ScopeOp) : (run onScope ops s).2.Valid := by
  induction ops generalizing s with
  | nil => exact hvalid
  | cons op ops ih => exact ih (valid_onScope hvalid op)

theorem run_onFlat (hvalid : s.Valid) (ops : List ScopeOp) :
    run onFlat ops s.flat = ((run onScope ops s).1, (run onScope ops s).2.flat) := by
  induction ops generalizing s with
  | nil => rfl
  | cons op ops ih =>
    unfold run
    rw [onFlat_flat hvalid op]
    dsimp only
    rw [ih (valid_onScope hvalid op)]

end ScopeOp

/-! ## What holds of every scope that is reached -/

/-- The second scope differs from the first in one visible frame, between `before` and `after`,
which binds a name to `v` and every other name as before. -/
structure Scope.Rebinds (s t : Scope) (before : List Frame) (f : Frame) (after : List Frame)
    (name : String) (v : Value) : Prop where
  visible : s.visible = before ++ f :: after
  changed : ∃ g, t.visible = before ++ g :: after ∧
    ∀ x, g.find? x = if x = name then some v else f.find? x
  callers : t.callers = s.callers

/-- The laws of a root frame under a stack of isolated contexts: the root and the top context are
visible and nothing else is.  A declaration binds in the innermost of these frames, and fails
without a change if that binds the name already.  An assignment, or a change in place, goes to the
binding that a lookup finds, and fails without a change if there is none.  The root frame and the
first frame of a call are never closed, and the end of a call takes away its context and nothing
else. -/
structure Scope.Isolates (s : Scope) : Prop where
  lookup : ∀ name, s.lookup name = match s.visible.findSome? (·.find? name) with
    | some v => .ok v
    | none => .error (.undeclared name)
  declare : ∀ name v, ∃ f outer, s.visible = f :: outer ∧
    if f.binds name then (ScopeOp.declare name v).onScope s = (.error (.redeclared name), s)
    else ∃ t, (ScopeOp.declare name v).onScope s = (.ok none, t) ∧ s.Rebinds t [] f outer name v
  change : ∀ name f, match s.lookup name with
    | .error fault => fault = .undeclared name ∧
      (ScopeOp.change name f).onScope s = (.error fault, s)
    | .ok v => ∃ before g after t, (∀ h ∈ before, h.find? name = none) ∧ g.find? name = some v ∧
      (ScopeOp.change name f).onScope s = (.ok (some v), t) ∧
      s.Rebinds t before g after name (f v)
  assign : ∀ name v, (ScopeOp.assign name v).onScope s =
    ((ScopeOp.change name fun _ => v).onScope s).map (·.map fun _ => none) id
  defineGlobal : ∀ name v, (s.defineGlobal name v).current = s.current ∧
    (s.defineGlobal name v).callers = s.callers ∧
    ∀ x, (s.defineGlobal name v).root.find? x = if x = name then some v else s.root.find? x
  push : s.push = { s with current := .empty :: s.current }
  pop : s.pop = if s.callers ≠ [] ∧ s.current.length = 1 then s
    else { s with current := s.current.tail }
  enterCall : s.enterCall = ⟨s.root, [.empty], s.current :: s.callers⟩
  exitCall : s.exitCall = match s.callers with
    | [] => s
    | caller :: callers => ⟨s.root, caller, callers⟩

/-- The innermost frame that binds a name is the one that a context changes. -/
theorem Context.exists_modify {c : Context} {name : String} {v : Value}
    (h : c.find? name = some v) :
    ∃ before g after, c = before ++ g :: after ∧ (∀ h ∈ before, h.find? name = none) ∧
      g.find? name = some v ∧
      ∀ f, c.modify name f = before ++ g.modify name f :: after := by
  induction c with
  | nil => cases h
  | cons g outer ih =>
    unfold find? at h
    rw [List.findSome?_cons] at h
    cases hg : g.find? name with
    | some w =>
      rw [hg] at h
      cases h
      refine ⟨[], g, outer, rfl, fun _ hmem => (List.not_mem_nil hmem).elim, hg, fun f => ?_⟩
      unfold modify
      exact if_pos (Frame.binds_iff.2 ⟨v, hg⟩)
    | none =>
      rw [hg] at h
      obtain ⟨before, g', after, hsplit, hbefore, hg', hmodify⟩ := ih h
      refine ⟨g :: before, g', after, congrArg (g :: ·) hsplit, ?_, hg', fun f => ?_⟩
      · intro h hmem
        obtain rfl | hmem := List.mem_cons.1 hmem
        · exact hg
        · exact hbefore h hmem
      · have hunbound : ¬ g.binds name = true := by simp [Frame.binds, hg]
        unfold modify
        rw [if_neg hunbound, hmodify f]
        rfl

namespace Scope

variable {s : Scope}

theorem rebinds_modify {name : String} {v : Value} (h : s.lookup name = .ok v)
    (f : Value → Value) :
    ∃ before g after, (∀ h ∈ before, h.find? name = none) ∧ g.find? name = some v ∧
      s.Rebinds (s.modify name f) before g after name (f v) := by
  have hmodified : ∀ {g : Frame}, g.find? name = some v → ∀ x,
      (g.modify name f).find? x = if x = name then some (f v) else g.find? x := by
    intro g hg x
    rw [Frame.find?_modify]
    split
    · next hx => rw [hx, hg]; rfl
    · rfl
  unfold lookup at h
  cases hfind : s.find? name with
  | none =>
    rw [hfind] at h
    cases h
  | some w =>
    rw [hfind] at h
    cases h
    unfold find? at hfind
    cases hcurrent : s.current.find? name with
    | some u =>
      rw [hcurrent] at hfind
      cases hfind
      obtain ⟨before, g, after, hsplit, hbefore, hg, hmodify⟩ := Context.exists_modify hcurrent
      have hvisible : s.visible = before ++ g :: (after ++ [s.root]) := by
        simp [visible, hsplit]
      refine ⟨before, g, after ++ [s.root], hbefore, hg, hvisible, ⟨_, ?_, hmodified hg⟩, ?_⟩
      · unfold modify visible
        rw [if_pos (Context.binds_iff.2 ⟨v, hcurrent⟩), hmodify f]
        simp
      · unfold modify
        split <;> rfl
    | none =>
      rw [hcurrent] at hfind
      have hunbound : ¬ s.current.binds name = true := by
        intro hbinds
        obtain ⟨u, hu⟩ := Context.binds_iff.1 hbinds
        rw [hcurrent] at hu
        cases hu
      refine ⟨s.current, s.root, [], List.findSome?_eq_none_iff.1 hcurrent, hfind, rfl,
        ⟨s.root.modify name f, ?_, hmodified hfind⟩, ?_⟩
      · unfold modify
        rw [if_neg hunbound]
        rfl
      · unfold modify
        split <;> rfl

/-- A declaration is decided by the innermost visible frame, and changes that one. -/
theorem declare_visible (s : Scope) (name : String) (v : Value) :
    ∃ f outer, s.visible = f :: outer ∧
      if f.binds name then s.declare name v = .error (.redeclared name)
      else ∃ t, s.declare name v = .ok t ∧ s.Rebinds t [] f outer name v := by
  obtain ⟨root, current, callers⟩ := s
  cases current with
  | cons f outer =>
    refine ⟨f, outer ++ [root], rfl, ?_⟩
    simp only [declare]
    split
    · rfl
    · exact ⟨_, rfl, rfl, ⟨_, rfl, f.find?_insert name v⟩, rfl⟩
  | nil =>
    refine ⟨root, [], rfl, ?_⟩
    simp only [declare]
    split
    · rfl
    · exact ⟨_, rfl, rfl, ⟨_, rfl, root.find?_insert name v⟩, rfl⟩

theorem isolates (hvalid : s.Valid) : s.Isolates where
  lookup name := by
    have hvisible : s.visible.findSome? (·.find? name) = s.find? name := by
      unfold visible find? Context.find?
      rw [List.findSome?_append, List.findSome?_singleton]
    rw [hvisible]
    rfl
  declare name v := by
    obtain ⟨f, outer, hvisible, hdeclare⟩ := s.declare_visible name v
    refine ⟨f, outer, hvisible, ?_⟩
    simp only [ScopeOp.onScope]
    split at hdeclare
    · next hbinds =>
      rw [if_pos hbinds, hdeclare]
      rfl
    · next hbinds =>
      obtain ⟨t, ht, hrebinds⟩ := hdeclare
      rw [if_neg hbinds, ht]
      exact ⟨t, rfl, hrebinds⟩
  change name f := by
    simp only [ScopeOp.onScope]
    cases hlookup : s.lookup name with
    | ok v =>
      obtain ⟨before, g, after, hbefore, hg, hrebinds⟩ := rebinds_modify hlookup f
      exact ⟨before, g, after, _, hbefore, hg, rfl, hrebinds⟩
    | error fault =>
      refine ⟨?_, rfl⟩
      unfold Scope.lookup at hlookup
      split at hlookup
      · cases hlookup
      · exact (Except.error.inj hlookup).symm
  assign name v := by
    simp only [ScopeOp.onScope, Scope.assign]
    cases s.lookup name with
    | ok w => rfl
    | error fault => rfl
  defineGlobal name v := ⟨rfl, rfl, s.root.find?_put name v⟩
  push := rfl
  pop := by
    obtain ⟨root, current, callers⟩ := s
    cases callers with
    | nil =>
      cases current with
      | nil => rfl
      | cons f outer => rfl
    | cons caller callers =>
      cases current with
      | nil => exact absurd rfl hvalid.1
      | cons f outer =>
        cases outer with
        | nil => rfl
        | cons g outer => simp [Scope.pop]
  enterCall := rfl
  exitCall := by
    obtain ⟨root, current, callers⟩ := s
    cases callers with
    | nil => rfl
    | cons caller callers => rfl

/-- A call begins above the frames of its caller, which are at least one more than those below. -/
theorem bounds_bases {c : Context} {callers : List Context} (h : c.Nested callers) :
    (callBases.bases callers).Pairwise (· < ·) ∧ ∀ base ∈ callBases.bases callers,
      1 ≤ base ∧ base ≤ callers.flatten.length + c.length := by
  induction callers generalizing c with
  | nil => exact ⟨.nil, fun _ hmem => (List.not_mem_nil hmem).elim⟩
  | cons caller callers ih =>
    obtain ⟨hne, hnested⟩ := h
    obtain ⟨hincreasing, hbounds⟩ := ih hnested
    have hc : 1 ≤ c.length := List.length_pos_iff.2 hne
    have hlength : (caller :: callers).flatten.length = callers.flatten.length + caller.length := by
      rw [List.flatten_cons, List.length_append, Nat.add_comm]
    unfold callBases.bases
    rw [hlength]
    refine ⟨?_, fun base hmem => ?_⟩
    · refine List.pairwise_append.2 ⟨hincreasing, List.pairwise_singleton _ _, ?_⟩
      intro base hmem last hlast
      have hle := (hbounds base hmem).2
      rw [List.mem_singleton.1 hlast]
      omega
    · obtain hmem | hmem := List.mem_append.1 hmem
      · have := hbounds base hmem
        omega
      · rw [List.mem_singleton.1 hmem]
        omega

theorem inBounds_flat (hvalid : s.Valid) : s.flat.InBounds := by
  obtain ⟨hincreasing, hbounds⟩ := bounds_bases hvalid
  refine ⟨hincreasing, fun base hmem => ⟨(hbounds base hmem).1, ?_⟩⟩
  have hle := (hbounds base hmem).2
  rw [depth_flat]
  unfold depth
  omega

end Scope

/-- Whatever operations are applied to a new scope, the flat chain answers each of them as the scope
does, ends as the scope laid out flat, and has its calls within bounds; and the scope obeys the laws
of isolated contexts. -/
theorem flat_run (ops : List ScopeOp) :
    let reached := ScopeOp.run ScopeOp.onScope ops .empty
    ScopeOp.run ScopeOp.onFlat ops .empty = (reached.1, reached.2.flat) ∧
      reached.2.Isolates ∧ reached.2.flat.InBounds := by
  have hempty : Scope.empty.Valid := trivial
  have hvalid := ScopeOp.run_valid hempty ops
  exact ⟨ScopeOp.run_onFlat hempty ops, Scope.isolates hvalid, Scope.inBounds_flat hvalid⟩

end MiniC
