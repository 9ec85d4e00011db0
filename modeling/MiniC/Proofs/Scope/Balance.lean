import MiniC.Proofs.Scope.Kept

/-!
# Balanced scopes

A scope as one chain of frames, the innermost first and the root last, with the places where calls
begin.  `s.Balanced added t` says that `t` has the frames of `s` and no other: as many of them, the
same calls, and the same names in each frame, except that the innermost one also binds `added`.
-/

namespace MiniC

namespace Scope

/-- All frames in one chain, the innermost first and the root last. -/
def chain (s : Scope) : List Frame := s.current ++ (s.callers.flatten ++ [s.root])

/-- For each active call, the latest last, how many frames there are below its own. -/
def callBases (s : Scope) : List Nat := bases s.callers
where
  bases : List Context → List Nat
    | [] => []
    | caller :: callers => bases callers ++ [1 + (caller :: callers).flatten.length]

theorem length_chain (s : Scope) : s.chain.length = s.depth := by
  unfold chain depth
  simp only [List.length_append, List.length_singleton]
  omega

end Scope

/-- Frames that bind the same names. -/
def Frame.SameNames (f g : Frame) : Prop := ∀ name, g.binds name = f.binds name

/-- Frames that bind the same names, except that the first ones may differ in a name that the second
chain adds. -/
inductive Frame.Extended (added : Option String) : List Frame → List Frame → Prop
  | cons {f g : Frame} {outer outer' : List Frame}
      (head : ∀ name, g.binds name = (f.binds name || decide (added = some name)))
      (fresh : ∀ name ∈ added, f.binds name = false)
      (tail : List.Forall₂ SameNames outer outer') : Extended added (f :: outer) (g :: outer')

/-- The second scope has the frames of the first: the depth and the bases of the calls are the same,
and each frame binds the names that it bound, but the innermost one binds `added` besides. -/
structure Scope.Balanced (added : Option String) (s t : Scope) : Prop where
  depth : t.depth = s.depth
  callBases : t.callBases = s.callBases
  names : Frame.Extended added s.chain t.chain

namespace Frame

variable {f g h : Frame}

theorem SameNames.trans (hfg : f.SameNames g) (hgh : g.SameNames h) : f.SameNames h :=
  fun name => (hgh name).trans (hfg name)

theorem Kept.sameNames (h : f.Kept True g) : f.SameNames g := by
  intro name
  have hrel := h.rel trivial name
  unfold binds
  generalize f.find? name = v at hrel
  generalize g.find? name = w at hrel
  cases hrel with
  | none => rfl
  | some h => rfl

theorem binds_insert (f : Frame) (name : String) (v : Value) (x : String) :
    (f.insert name v).binds x = (f.binds x || decide (some name = some x)) := by
  unfold binds
  rw [find?_insert]
  by_cases hx : x = name
  · simp [hx]
  · simp [hx, Ne.symm hx]

theorem forall₂_sameNames_refl (c : List Frame) : List.Forall₂ SameNames c c :=
  List.forall₂_same.2 fun _ _ _ => rfl

theorem forall₂_sameNames_trans {c d e : List Frame} (hcd : List.Forall₂ SameNames c d)
    (hde : List.Forall₂ SameNames d e) : List.Forall₂ SameNames c e := by
  induction hcd generalizing e with
  | nil => exact hde
  | cons h _ ih =>
    cases hde with
    | cons h' hrest => exact .cons (h.trans h') (ih hrest)

/-- What binds the same names one by one adds nothing. -/
theorem extended_none {c d : List Frame} (h : List.Forall₂ SameNames c d) (hne : c ≠ []) :
    Extended none c d := by
  cases h with
  | nil => exact absurd rfl hne
  | cons head tail =>
    refine .cons (fun name => ?_) (fun name hname => by cases hname) tail
    rw [head name]
    simp

end Frame

namespace Scope

variable {s t u : Scope} {added : Option String} {name : String} {v : Value}

theorem chain_ne_nil (s : Scope) : s.chain ≠ [] := by
  simp [chain]

/-- A closed scope is balanced and has no new name. -/
theorem Kept.balanced (h : s.Kept True t) : s.Balanced none t := by
  have hchain : List.Forall₂ Frame.SameNames s.chain t.chain := by
    unfold chain
    rw [h.callers]
    have hcurrent := (h.current.forall₂_closed trivial).imp fun _ _ h => h.sameNames
    have hroot : s.root.SameNames t.root := (h.root.mono fun _ => Or.inl trivial).sameNames
    have houter : List.Forall₂ Frame.SameNames (s.callers.flatten ++ [s.root])
        (s.callers.flatten ++ [t.root]) :=
      List.rel_append (Frame.forall₂_sameNames_refl _) (.cons hroot .nil)
    exact List.rel_append hcurrent houter
  refine ⟨?_, ?_, Frame.extended_none hchain s.chain_ne_nil⟩
  · rw [← length_chain, ← length_chain, hchain.length_eq]
  · unfold callBases
    rw [h.callers]

/-- A declaration adds its name to the innermost frame. -/
theorem declare_balanced (hvalid : s.Valid) (h : s.declare name v = .ok t) :
    s.Balanced (some name) t := by
  have hextended : ∀ (f : Frame) (outer : List Frame), ¬ f.binds name = true →
      Frame.Extended (some name) (f :: outer) (f.insert name v :: outer) := by
    intro f outer hunbound
    refine .cons (f.binds_insert name v) (fun x hx => ?_) (Frame.forall₂_sameNames_refl outer)
    cases hx
    exact Bool.eq_false_iff.2 hunbound
  obtain ⟨root, current, callers⟩ := s
  cases current with
  | cons f outer =>
    simp only [declare] at h
    split at h
    · cases h
    · next hunbound =>
      cases h
      exact ⟨rfl, rfl, hextended f _ hunbound⟩
  | nil =>
    -- without a frame above the root there is no call, so the root is the innermost frame
    cases callers with
    | cons caller callers => exact absurd rfl hvalid.1
    | nil =>
      simp only [declare] at h
      split at h
      · cases h
      · next hunbound =>
        cases h
        exact ⟨rfl, rfl, hextended root [] hunbound⟩

/-- What happens first adds nothing, what happens then adds a name. -/
theorem Balanced.after (hst : s.Balanced none t) (htu : t.Balanced added u) :
    s.Balanced added u := by
  refine ⟨htu.depth.trans hst.depth, htu.callBases.trans hst.callBases, ?_⟩
  have hnames := htu.names
  have hnames' := hst.names
  generalize s.chain = c at hnames'
  generalize t.chain = d at hnames hnames'
  generalize u.chain = e at hnames
  cases hnames' with
  | cons head _ tail =>
    cases hnames with
    | cons head' fresh' tail' =>
      have hsame : ∀ x, _ = _ := fun x => (head x).trans (Bool.or_false _)
      refine .cons (fun x => ?_) (fun x hx => ?_) (Frame.forall₂_sameNames_trans tail tail')
      · rw [head' x, hsame x]
      · rw [← hsame x]
        exact fresh' x hx

end Scope

end MiniC
