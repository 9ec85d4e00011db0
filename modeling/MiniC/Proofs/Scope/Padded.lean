import MiniC.Proofs.Scope.Frame

/-!
# Scopes with empty frames in them

`s.Padded extra extra' site t` relates two scopes that are the same but for empty frames at one
place: `s` has `extra` of them there and `t` has `extra'`.  The place is in the current context
under some frames, or in the context of a caller.  An empty frame is passed over by every search, so
each operation on scopes keeps the relation, except a declaration into an empty frame
(`Site.Opened`).
-/

namespace MiniC

/-! ## Contexts -/

namespace Context

variable {name : String} {change : Value → Value} {c d : Context}

/-- A context with empty frames around which it is the outer one. -/
def padded (extra : Nat) (outer : Context) : Context := List.replicate extra .empty ++ outer

theorem padded_succ (extra : Nat) (outer : Context) :
    padded (extra + 1) outer = .empty :: padded extra outer := by
  simp [padded, List.replicate_succ]

theorem padded_ne_nil (extra : Nat) {outer : Context} (h : outer ≠ []) :
    padded extra outer ≠ [] := by
  simp [padded, h]

theorem find?_append (c d : Context) (name : String) :
    find? (c ++ d) name = (c.find? name).or (d.find? name) :=
  List.findSome?_append

theorem find?_padded (extra : Nat) (outer : Context) (name : String) :
    (padded extra outer).find? name = outer.find? name := by
  induction extra with
  | zero => rfl
  | succ extra ih =>
    rw [padded_succ]
    exact ih

theorem binds_append (c d : Context) (name : String) :
    binds (c ++ d) name = (c.binds name || d.binds name) :=
  List.any_append

theorem binds_padded (extra : Nat) (outer : Context) (name : String) :
    (padded extra outer).binds name = outer.binds name := by
  induction extra with
  | zero => rfl
  | succ extra ih =>
    rw [padded_succ]
    exact ih

theorem modify_append_of_binds (h : c.binds name = true) (d : Context) :
    modify (c ++ d) name change = modify c name change ++ d := by
  induction c with
  | nil => cases h
  | cons f outer ih =>
    rw [List.cons_append, modify, modify]
    by_cases hf : f.binds name = true
    · rw [if_pos hf, if_pos hf]
      rfl
    · rw [if_neg hf, if_neg hf, List.cons_append, ih]
      simpa [binds, hf] using h

theorem modify_append_of_not_binds (h : ¬ c.binds name = true) (d : Context) :
    modify (c ++ d) name change = c ++ modify d name change := by
  induction c with
  | nil => rfl
  | cons f outer ih =>
    have hf : ¬ f.binds name = true := by
      intro hf
      apply h
      simp [binds, hf]
    rw [List.cons_append, modify, if_neg hf, ih, List.cons_append]
    intro houter
    apply h
    simpa [binds, hf] using houter

theorem modify_padded (extra : Nat) (outer : Context) (name : String) (change : Value → Value) :
    (padded extra outer).modify name change = padded extra (outer.modify name change) := by
  induction extra with
  | zero => rfl
  | succ extra ih =>
    rw [padded_succ, padded_succ, ← ih]
    rfl

theorem length_modify (c : Context) (name : String) (change : Value → Value) :
    (c.modify name change).length = c.length := by
  induction c with
  | nil => rfl
  | cons f outer ih =>
    rw [modify]
    split
    · rfl
    · rw [List.length_cons, List.length_cons, ih]

theorem modify_ne_nil (h : c ≠ []) : c.modify name change ≠ [] := by
  intro hnil
  apply h
  have hlength := c.length_modify name change
  rw [hnil] at hlength
  exact List.length_eq_zero_iff.1 hlength.symm

end Context

/-! ## Scopes -/

/-- Where in a scope empty frames have been added: under some frames of the current context, or in
the context of the caller. -/
inductive Site
  | under (frames : Nat)
  | caller (site : Site)

namespace Site

/-- The same place when a frame has been opened. -/
def push : Site → Site
  | under frames => under (frames + 1)
  | caller site => caller site

/-- A declaration does not go to an empty frame that one scope has and the other has not. -/
def Opened (extra extra' : Nat) : Site → Prop
  | under 0 => extra = 0 ∧ extra' = 0
  | under (_ + 1) | caller _ => True

theorem opened_push (extra extra' : Nat) (site : Site) : site.push.Opened extra extra' := by
  cases site <;> trivial

end Site

/-- The same scope, with one number of empty frames at a place and with another one.  In a call
there is a frame under them, the one that the call began with. -/
inductive Scope.Padded (extra extra' : Nat) : Site → Scope → Scope → Prop
  | under {frames : Nat} (root : Frame) (inner outer : Context) (callers : List Context)
      (hframes : inner.length = frames) (hvalid : callers ≠ [] → outer ≠ []) :
      Padded extra extra' (.under frames) ⟨root, inner ++ Context.padded extra outer, callers⟩
        ⟨root, inner ++ Context.padded extra' outer, callers⟩
  | caller {site : Site} {s t : Scope} (root : Frame) (current : Context)
      (h : Padded extra extra' site s t) :
      Padded extra extra' (.caller site) ⟨root, current, s.current :: s.callers⟩
        ⟨root, current, t.current :: t.callers⟩

/-- A frame is closed if there is another one in the same context, or outside of all calls. -/
theorem Scope.pop_cons (root : Frame) (f : Frame) {c : Context} {callers : List Context}
    (h : callers ≠ [] → c ≠ []) : (Scope.mk root (f :: c) callers).pop = ⟨root, c, callers⟩ := by
  cases callers with
  | nil => rfl
  | cons caller callers =>
    obtain ⟨g, rest, rfl⟩ := List.exists_cons_of_ne_nil (h (List.cons_ne_nil _ _))
    rfl

namespace Scope.Padded

variable {extra extra' : Nat} {site : Site} {s t : Scope}

theorem symm (h : s.Padded extra extra' site t) : t.Padded extra' extra site s := by
  induction h with
  | under root inner outer callers hframes hvalid =>
    exact .under root inner outer callers hframes hvalid
  | caller root current _ ih => exact .caller root current ih

theorem find?_eq (h : s.Padded extra extra' site t) (name : String) :
    s.find? name = t.find? name := by
  cases h with
  | under root inner outer callers _ _ =>
    simp only [find?, Context.find?_append, Context.find?_padded]
  | caller root current _ => rfl

theorem withRoot (h : s.Padded extra extra' site t) (root : Frame) :
    ({ s with root } : Scope).Padded extra extra' site { t with root } := by
  cases h with
  | under _ inner outer callers hframes hvalid =>
    exact .under root inner outer callers hframes hvalid
  | caller _ current h => exact .caller root current h

theorem modify (h : s.Padded extra extra' site t) (name : String) (change : Value → Value) :
    (s.modify name change).Padded extra extra' site (t.modify name change) := by
  cases h with
  | under root inner outer callers hframes hvalid =>
    unfold Scope.modify
    simp only [Context.binds_append, Context.binds_padded]
    by_cases hinner : inner.binds name = true
    · simp only [hinner, Bool.true_or, if_true, Context.modify_append_of_binds hinner]
      refine .under root _ outer callers ?_ hvalid
      rw [Context.length_modify, hframes]
    · by_cases houter : outer.binds name = true
      · simp only [houter, Bool.or_true, if_true, Context.modify_append_of_not_binds hinner,
          Context.modify_padded]
        exact .under root inner _ callers hframes fun hne => Context.modify_ne_nil (hvalid hne)
      · simp only [hinner, houter, Bool.or_self, Bool.false_eq_true, if_false]
        exact .under _ inner outer callers hframes hvalid
  | caller root current h =>
    unfold Scope.modify
    dsimp only
    split
    · exact .caller root _ h
    · exact .caller _ current h

/-- In an opened place a name can be declared in both scopes or in neither. -/
theorem declare (h : s.Padded extra extra' site t) (hopened : site.Opened extra extra')
    (name : String) (v : Value) :
    (∃ fault, s.declare name v = .error fault ∧ t.declare name v = .error fault) ∨
    ∃ s' t', s.declare name v = .ok s' ∧ t.declare name v = .ok t' ∧
      s'.Padded extra extra' site t' := by
  cases h with
  | @under frames root inner outer callers hframes hvalid =>
    cases inner with
    | cons f inner =>
      by_cases hbinds : f.binds name = true
      · exact Or.inl ⟨_, if_pos hbinds, if_pos hbinds⟩
      · refine Or.inr ⟨_, _, if_neg hbinds, if_neg hbinds, ?_⟩
        exact .under root (f.insert name v :: inner) outer callers hframes hvalid
    | nil =>
      -- nothing is above the place, so there is no empty frame in it
      cases hframes
      obtain ⟨rfl, rfl⟩ := hopened
      cases outer with
      | nil =>
        by_cases hbinds : root.binds name = true
        · exact Or.inl ⟨_, if_pos hbinds, if_pos hbinds⟩
        · refine Or.inr ⟨_, _, if_neg hbinds, if_neg hbinds, ?_⟩
          exact .under (root.insert name v) [] [] callers rfl hvalid
      | cons f outer =>
        by_cases hbinds : f.binds name = true
        · exact Or.inl ⟨_, if_pos hbinds, if_pos hbinds⟩
        · refine Or.inr ⟨_, _, if_neg hbinds, if_neg hbinds, ?_⟩
          exact .under root [] (f.insert name v :: outer) callers rfl fun _ =>
            List.cons_ne_nil _ _
  | caller root current h =>
    cases current with
    | nil =>
      by_cases hbinds : root.binds name = true
      · exact Or.inl ⟨_, if_pos hbinds, if_pos hbinds⟩
      · exact Or.inr ⟨_, _, if_neg hbinds, if_neg hbinds, .caller (root.insert name v) [] h⟩
    | cons f outer =>
      by_cases hbinds : f.binds name = true
      · exact Or.inl ⟨_, if_pos hbinds, if_pos hbinds⟩
      · exact Or.inr ⟨_, _, if_neg hbinds, if_neg hbinds, .caller root (f.insert name v :: outer) h⟩

/-! ### Frames and calls -/

theorem push (h : s.Padded extra extra' site t) : s.push.Padded extra extra' site.push t.push := by
  cases h with
  | under root inner outer callers hframes hvalid =>
    exact .under root (.empty :: inner) outer callers (congrArg (· + 1) hframes) hvalid
  | caller root current h => exact .caller root (.empty :: current) h

/-- What is under an opened frame keeps `pop` from meeting the last frame of a call. -/
theorem pop (h : s.Padded extra extra' site.push t) : s.pop.Padded extra extra' site t.pop := by
  cases site with
  | under frames =>
    cases h with
    | under root inner outer callers hframes hvalid =>
      obtain ⟨f, inner, rfl⟩ := List.exists_cons_of_length_eq_add_one hframes
      have hne : ∀ n : Nat, callers ≠ [] → inner ++ Context.padded n outer ≠ [] := by
        intro n hcallers
        apply List.append_ne_nil_of_right_ne_nil
        exact Context.padded_ne_nil n (hvalid hcallers)
      rw [List.cons_append, List.cons_append, pop_cons root f (hne extra),
        pop_cons root f (hne extra')]
      exact .under root inner outer callers (Nat.succ.inj hframes) hvalid
  | caller site =>
    cases h with
    | caller root current h =>
      match current with
      | [] => exact .caller root [] h
      | [f] => exact .caller root [f] h
      | _ :: f :: outer => exact .caller root (f :: outer) h

theorem enterCall (h : s.Padded extra extra' site t) :
    s.enterCall.Padded extra extra' (.caller site) t.enterCall := by
  have hroot : s.root = t.root := by
    cases h <;> rfl
  have hentered := Padded.caller s.root [.empty] h
  unfold Scope.enterCall
  rw [← hroot]
  exact hentered

theorem exitCall (h : s.Padded extra extra' (.caller site) t) :
    s.exitCall.Padded extra extra' site t.exitCall := by
  cases h with
  | caller root current h => exact h.withRoot root

/-! ### On top -/

/-- A frame opened in the second scope is one more empty frame. -/
theorem push_right (h : s.Padded extra extra' (.under 0) t) :
    s.Padded extra (extra' + 1) (.under 0) t.push := by
  cases h with
  | under root inner outer callers hframes hvalid =>
    obtain rfl := List.length_eq_zero_iff.1 hframes
    have hpush : (Scope.mk root (Context.padded extra' outer) callers).push =
        ⟨root, Context.padded (extra' + 1) outer, callers⟩ := by
      rw [Context.padded_succ]
      rfl
    rw [List.nil_append, List.nil_append, hpush]
    exact .under root [] outer callers rfl hvalid

/-- An empty frame on top of the second scope is taken away by `pop`. -/
theorem pop_right (h : s.Padded extra (extra' + 1) (.under 0) t) :
    s.Padded extra extra' (.under 0) t.pop := by
  cases h with
  | under root inner outer callers hframes hvalid =>
    obtain rfl := List.length_eq_zero_iff.1 hframes
    have hne := fun hcallers => Context.padded_ne_nil extra' (hvalid hcallers)
    rw [List.nil_append, List.nil_append, Context.padded_succ, pop_cons root .empty hne]
    exact .under root [] outer callers rfl hvalid

/-- Without empty frames there is one scope only, whose innermost call has a frame. -/
theorem padded_zero_iff :
    s.Padded 0 0 (.under 0) t ↔ s = t ∧ (s.callers ≠ [] → s.current ≠ []) := by
  constructor
  · intro h
    cases h with
    | under root inner outer callers hframes hvalid =>
      obtain rfl := List.length_eq_zero_iff.1 hframes
      exact ⟨rfl, hvalid⟩
  · rintro ⟨rfl, hvalid⟩
    exact .under s.root [] s.current s.callers rfl hvalid

theorem push_zero (h : s.Padded 0 0 (.under 0) t) : s.push.Padded 0 0 (.under 0) t.push := by
  obtain ⟨rfl, -⟩ := padded_zero_iff.1 h
  exact padded_zero_iff.2 ⟨rfl, fun _ => List.cons_ne_nil _ _⟩

theorem pop_zero (h : s.Padded 0 0 (.under 0) t) : s.pop.Padded 0 0 (.under 0) t.pop := by
  obtain ⟨rfl, hvalid⟩ := padded_zero_iff.1 h
  refine padded_zero_iff.2 ⟨rfl, ?_⟩
  unfold Scope.pop
  split
  · next heq =>
    intro hcallers
    exact absurd heq hcallers
  · exact fun _ => List.cons_ne_nil _ _
  · exact hvalid

end Scope.Padded

end MiniC
