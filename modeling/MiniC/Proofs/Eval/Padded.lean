import MiniC.Proofs.Eval.Steps
import MiniC.Proofs.Run.Refined
import MiniC.Proofs.Scope.Kept
import MiniC.Proofs.Scope.Padded

/-!
# Empty frames make no difference

`Machine.Padded` is a coupling: machines that are the same but for empty frames at one place cannot
be told apart.  `Run.Matches extra extra' r r'` says so of two runs that start on top of such
frames, whatever steps each of them needs; a frame that one of the two opens for itself is one more
empty frame.  Main statement: `empty_frame_unobservable`.
-/

namespace MiniC

/-- The same machine, with one number of empty frames at a place and with another one. -/
structure Machine.Padded (extra extra' : Nat) (site : Site) (m m' : Machine) : Prop where
  scope : m.scope.Padded extra extra' site m'.scope
  console : m.console = m'.console

/-- A machine in which only the context outside of all calls can be without a frame matches
itself. -/
theorem Machine.padded_zero {m : Machine} (hvalid : m.scope.Valid) : m.Padded 0 0 (.under 0) m := by
  refine ⟨Scope.Padded.padded_zero_iff.2 ⟨rfl, fun hcallers => ?_⟩, rfl⟩
  unfold Scope.Valid at hvalid
  obtain ⟨caller, callers, heq⟩ := List.exists_cons_of_ne_nil hcallers
  rw [heq] at hvalid
  exact hvalid.1

theorem Machine.Padded.eq {m m' : Machine} (h : m.Padded 0 0 (.under 0) m') : m = m' := by
  obtain ⟨scope, console⟩ := m
  obtain ⟨hscope, hconsole⟩ := h
  obtain ⟨rfl, -⟩ := Scope.Padded.padded_zero_iff.1 hscope
  cases hconsole
  rfl

theorem coupling_padded (extra extra' : Nat) :
    Coupling (Site.Opened extra extra') (Machine.Padded extra extra') where
  find h name := h.scope.find?_eq name
  console h := h.console
  withConsole h console := ⟨h.scope, rfl⟩
  store h _ _ path _ _ _ updated _ _ _ := ⟨h.scope.modify _ (·.setAt path updated), h.console⟩
  declare hopened name v := by
    apply Run.simulated_changeScope
    intro m m' h
    rcases h.scope.declare hopened name v with hfault | ⟨s, t, hs, ht, hst⟩
    · exact Or.inl hfault
    · exact Or.inr ⟨s, t, hs, ht, hst, h.console⟩
  frame {site _ _} h := ⟨site.push, Site.opened_push extra extra' site,
    ⟨h.scope.push, h.console⟩, fun h => ⟨h.scope.pop, h.console⟩⟩
  call {site _ _} h := ⟨.caller site, trivial, ⟨h.scope.enterCall, h.console⟩,
    fun h => ⟨h.scope.exitCall, h.console⟩⟩

namespace Run

variable {α β : Type} {extra extra' : Nat} {r r' s s' : Nat → Run α}

/-- With steps enough, two runs do the same when one starts on top of some empty frames and the
other on top of others. -/
structure Matches (extra extra' : Nat) (r r' : Nat → Run α) : Prop where
  forth : Refines (Machine.Padded extra extra' (.under 0)) r r'
  back : Refines (Machine.Padded extra' extra (.under 0)) r' r

/-- In a machine two runs come to the same outcome: both end or neither does, with the same value or
the same failure, and they leave the same frames and the same console. -/
def Equivalent (r r' : Nat → Run α) (m : Machine) : Prop := ∀ o, Ends r m o ↔ Ends r' m o

theorem Refines.ends {m : Machine} {o : Outcome α}
    (h : Refines (Machine.Padded 0 0 (.under 0)) r r') (hvalid : m.scope.Valid) (ho : Ends r m o) :
    Ends r' m o := by
  obtain ⟨delay, h⟩ := h
  obtain ⟨hends, steps, rfl⟩ := ho
  have hsimulated := h steps (steps + delay) (Nat.le_refl _) (Machine.padded_zero hvalid)
  exact ⟨hends, _, eq_of_simulated (hsimulated.mono fun _ _ h => h.eq) hends⟩

namespace Matches

theorem symm (h : Matches extra extra' r r') : Matches extra' extra r' r := ⟨h.back, h.forth⟩

theorem equivalent {m : Machine} (h : Matches 0 0 r r') (hvalid : m.scope.Valid) :
    Equivalent r r' m :=
  fun _ => ⟨h.forth.ends hvalid, h.back.ends hvalid⟩

/-! ### Combinators -/

theorem succ_left (hzero : r 0 = unfinished) (hsucc : ∀ steps, r (steps + 1) = s steps) :
    Matches extra extra' r r' ↔ Matches extra extra' s r' := by
  constructor
  · rintro ⟨forth, back⟩
    exact ⟨(refines_succ_left hzero hsucc).1 forth, (refines_succ_right hsucc).1 back⟩
  · rintro ⟨forth, back⟩
    exact ⟨(refines_succ_left hzero hsucc).2 forth, (refines_succ_right hsucc).2 back⟩

theorem succ_right (hzero : r' 0 = unfinished) (hsucc : ∀ steps, r' (steps + 1) = s' steps) :
    Matches extra extra' r r' ↔ Matches extra extra' r s' := by
  constructor
  · intro h
    exact ((succ_left hzero hsucc).1 h.symm).symm
  · intro h
    exact ((succ_left hzero hsucc).2 h.symm).symm

theorem andThen {first first' : Nat → Run Unit} (hfirst : Matches extra extra' first first')
    (hrest : Matches extra extra' r r') :
    Matches extra extra' (fun steps => first steps >>= fun _ => r steps)
      fun steps => first' steps >>= fun _ => r' steps :=
  ⟨hfirst.forth.andThen hrest.forth, hfirst.back.andThen hrest.back⟩

theorem branch {test test' : Nat → Run Bool} (htest : Matches extra extra' test test')
    (hr : Matches extra extra' r r') (hs : Matches extra extra' s s') :
    Matches extra extra'
      (fun steps => test steps >>= fun holds => if holds then r steps else s steps)
      fun steps => test' steps >>= fun holds => if holds then r' steps else s' steps :=
  ⟨htest.forth.branch hr.forth hs.forth, htest.back.branch hr.back hs.back⟩

theorem whileLoop {test test' : Nat → Run Bool} {body body' : Nat → Run Flow}
    {step step' : Nat → Run Unit} (htest : Matches extra extra' test test')
    (hbody : Matches extra extra' body body') (hstep : Matches extra extra' step step') :
    Matches extra extra'
      (fun steps => Run.whileLoop (test steps) (body steps) (step steps) steps)
      fun steps => Run.whileLoop (test' steps) (body' steps) (step' steps) steps :=
  ⟨htest.forth.whileLoop hbody.forth hstep.forth, htest.back.whileLoop hbody.back hstep.back⟩

/-- A change of the scope at the end that changes nothing. -/
theorem afterwards_id (r : Run α) : r.afterwards id = r := by
  funext m
  unfold afterwards
  cases r m <;> rfl

/-- A run in a frame of its own starts on top of one more empty frame. -/
theorem inFrame_left (h : Matches (extra + 1) extra' r r') :
    Matches extra extra' (fun steps => inFrame (r steps)) r' := by
  obtain ⟨⟨delay, forth⟩, ⟨delay', back⟩⟩ := h
  refine ⟨⟨delay, fun steps steps' hle m m' hm => ?_⟩, ⟨delay', fun steps steps' hle m m' hm => ?_⟩⟩
  · rw [← afterwards_id (r' steps')]
    refine simulated_afterwards (forth steps steps' hle) ?_ fun hn => ?_
    · exact ⟨hm.scope.symm.push_right.symm, hm.console⟩
    · exact ⟨hn.scope.symm.pop_right.symm, hn.console⟩
  · rw [← afterwards_id (r' steps)]
    refine simulated_afterwards (back steps steps' hle) ?_ fun hn => ?_
    · exact ⟨hm.scope.push_right, hm.console⟩
    · exact ⟨hn.scope.pop_right, hn.console⟩

theorem inFrame_right (h : Matches extra (extra' + 1) r r') :
    Matches extra extra' r fun steps => inFrame (r' steps) :=
  h.symm.inFrame_left.symm

/-- Without empty frames, what two runs declare in a frame of their own is the same. -/
theorem inFrame (h : Matches 0 0 r r') :
    Matches 0 0 (fun steps => Run.inFrame (r steps)) fun steps => Run.inFrame (r' steps) := by
  have hsimulated : ∀ {r r' : Run α}, Simulated (Machine.Padded 0 0 (.under 0)) r r' →
      Simulated (Machine.Padded 0 0 (.under 0)) (Run.inFrame r) (Run.inFrame r') := by
    intro r r' h m m' hm
    exact simulated_afterwards h ⟨hm.scope.push_zero, hm.console⟩
      fun hn => ⟨hn.scope.pop_zero, hn.console⟩
  obtain ⟨⟨delay, forth⟩, ⟨delay', back⟩⟩ := h
  exact ⟨⟨delay, fun steps steps' hle => hsimulated (forth steps steps' hle)⟩,
    ⟨delay', fun steps steps' hle => hsimulated (back steps steps' hle)⟩⟩

end Matches

/-! ## The evaluator on top of empty frames -/

variable {steps steps' : Nat}

theorem simulated_condition (hle : steps ≤ steps') (c : Expr) :
    Simulated (Machine.Padded extra extra' (.under 0)) (evalCondition (eval steps) c)
      (evalCondition (eval steps') c) :=
  Coupling.condition (fun e => ((coupling_padded extra extra').evaluates hle).eval e) c

theorem simulated_exec (hle : steps ≤ steps') {s : Statement}
    (hs : ∀ d, s ≠ .simple (.declaration d)) :
    Simulated (Machine.Padded extra extra' (.under 0)) (exec steps s) (exec steps' s) :=
  ((coupling_padded extra extra').evaluates hle).exec s fun d hd => absurd hd (hs d)

theorem simulated_inFrame (hle : steps ≤ steps') (s : Statement) :
    Simulated (Machine.Padded extra extra' (.under 0)) (inFrame (exec steps s))
      (inFrame (exec steps' s)) :=
  (coupling_padded extra extra').inFrame fun hopened =>
    ((coupling_padded extra extra').evaluates hle).exec s fun _ _ => hopened

theorem matches_self
    (h : ∀ {extra extra' steps steps'}, steps ≤ steps' →
      Simulated (Machine.Padded extra extra' (.under 0)) (r steps) (r steps')) :
    Matches extra extra' r r :=
  ⟨refines_of_le fun _ _ hle => h hle, refines_of_le fun _ _ hle => h hle⟩

theorem matches_condition (c : Expr) :
    Matches extra extra' (fun steps => evalCondition (eval steps) c)
      fun steps => evalCondition (eval steps) c :=
  matches_self fun hle => simulated_condition hle c

theorem matches_exec {s : Statement} (hs : ∀ d, s ≠ .simple (.declaration d)) :
    Matches extra extra' (exec · s) (exec · s) :=
  matches_self fun hle => simulated_exec hle hs

theorem matches_inFrame (s : Statement) :
    Matches extra extra' (fun steps => inFrame (exec steps s))
      fun steps => inFrame (exec steps s) :=
  matches_self fun hle => simulated_inFrame hle s

end Run

/-! ## Blocks of one statement, chains of branches -/

variable {extra extra' steps : Nat}

theorem Run.inSequence_singleton (exec : Statement → Run Flow) (s : Statement) :
    Run.inSequence exec [s] = exec s := by
  unfold Run.inSequence
  refine (congrArg (exec s >>= ·) (funext fun flow => ?_)).trans (bind_pure (exec s))
  cases flow <;> rfl

theorem exec_zero (s : Statement) : exec 0 s = Run.unfinished := by rw [exec]

theorem exec_block_succ (body : List Statement) (l : Lexeme) :
    exec (steps + 1) (.block body l) = Run.inFrame (Run.inSequence (exec steps) body) := by
  rw [exec]

theorem exec_block_singleton (s : Statement) (l : Lexeme) :
    exec (steps + 1) (.block [s] l) = Run.inFrame (exec steps s) := by
  rw [exec_block_succ, Run.inSequence_singleton]

theorem exec_else (s : Statement) (l : Lexeme) :
    exec (steps + 1) (.ifElse [] (some s) l) = Run.inFrame (exec steps s) := by
  rw [exec]
  exact pure_bind _ _

theorem exec_ifElse_cons (c : Expr) (s : Statement) (rest : List (Expr × Statement))
    (otherwise : Option Statement) (l : Lexeme) :
    exec (steps + 1) (.ifElse ((c, s) :: rest) otherwise l) =
      evalCondition (eval steps) c >>= fun holds =>
        if holds then Run.inFrame (exec steps s)
        else exec (steps + 1) (.ifElse rest otherwise l) := by
  simp only [exec, selectBranch, bind_assoc]
  refine congrArg (_ >>= ·) (funext fun holds => ?_)
  cases holds <;> rfl

/-- The lexeme of a chain of branches is not read. -/
theorem exec_ifElse_lexeme (branches : List (Expr × Statement)) (otherwise : Option Statement)
    (l l' : Lexeme) :
    exec steps (.ifElse branches otherwise l) = exec steps (.ifElse branches otherwise l') := by
  cases steps with
  | zero => rw [exec_zero, exec_zero]
  | succ steps => rw [exec, exec]

/-- A statement that is no declaration does the same in a block of its own. -/
theorem Run.matches_block {s : Statement} (l : Lexeme) (hs : ∀ d, s ≠ .simple (.declaration d)) :
    Matches extra extra' (exec · (.block [s] l)) (exec · s) := by
  apply (Matches.succ_left (exec_zero _) fun _ => exec_block_singleton s l).2
  apply Matches.inFrame_left
  exact matches_exec hs

/-- A chain of branches written out: all branches but the first stand in a block behind `else`. -/
inductive Statement.NestedIf (otherwise : Option Statement) :
    List (Expr × Statement) → Statement → Prop
  | last (c : Expr) (s : Statement) (l : Lexeme) :
      NestedIf otherwise [(c, s)] (.ifElse [(c, s)] otherwise l)
  | behind (c : Expr) (s : Statement) {rest : List (Expr × Statement)} {inner : Statement}
      (brace l : Lexeme) (h : NestedIf otherwise rest inner) :
      NestedIf otherwise ((c, s) :: rest) (.ifElse [(c, s)] (some (.block [inner] brace)) l)

namespace Statement.NestedIf

variable {otherwise : Option Statement} {branches : List (Expr × Statement)} {s : Statement}

/-- Each branch puts those behind it on top of two more frames: the one that the block behind `else`
runs in, and the one that the block opens. -/
theorem matches_ifElse (h : NestedIf otherwise branches s) (l : Lexeme) :
    Run.Matches extra extra' (exec · (.ifElse branches otherwise l)) (exec · s) := by
  induction h generalizing extra extra' with
  | last c s l' =>
    simp only [exec_ifElse_lexeme _ _ l l']
    exact Run.matches_exec (by simp)
  | @behind c s rest inner brace l' _ ih =>
    apply (Run.Matches.succ_left (exec_zero _) fun _ => exec_ifElse_cons c s rest otherwise l).2
    apply (Run.Matches.succ_right (exec_zero _) fun _ =>
      exec_ifElse_cons c s [] (some (.block [inner] brace)) l').2
    apply (Run.matches_condition c).branch (Run.matches_inFrame s)
    have hrest : Run.Matches extra (extra' + 1) (exec · (.ifElse rest otherwise l))
        (exec · (.block [inner] brace)) := by
      apply (Run.Matches.succ_right (exec_zero _) fun _ => exec_block_singleton inner brace).2
      apply Run.Matches.inFrame_right
      exact ih
    simp only [exec_else]
    apply Run.Matches.inFrame_right
    exact (Run.Matches.succ_left (exec_zero _) fun _ => rfl).1 hrest

end Statement.NestedIf

/-- An empty frame cannot be observed.  A statement that is no declaration comes to the same in a
block of its own, and a chain of branches to the same as the nested statement with a block behind
each `else`. -/
theorem empty_frame_unobservable {m : Machine} (hvalid : m.scope.Valid) :
    (∀ s l, (∀ d, s ≠ .simple (.declaration d)) →
      Run.Equivalent (exec · (.block [s] l)) (exec · s) m) ∧
    ∀ branches otherwise s l, Statement.NestedIf otherwise branches s →
      Run.Equivalent (exec · (.ifElse branches otherwise l)) (exec · s) m :=
  ⟨fun _ l hs => (Run.matches_block l hs).equivalent hvalid,
    fun _ _ _ l h => (h.matches_ifElse l).equivalent hvalid⟩

/-- In a call, a chain whose second branch is selected, the nested statement, and the nested
statement in a block. -/
theorem second_branch_unobservable :
    let l := Lexeme.absent
    let read (name : String) : Expr := .variable name [] l
    let set (n : Int64) : Statement :=
      .simple (.assignment ⟨"x", [], l⟩ .plain (.literal (.int n) l) l)
    let m (n : Int64) : Machine :=
      ⟨⟨.empty, [⟨[("x", .int n), ("y", .int 1)]⟩], [[]]⟩, ⟨⟨[]⟩, .unlimited⟩⟩
    let branches := [(read "x", set 1), (read "y", set 2)]
    let nested : Statement := .ifElse [(read "x", set 1)]
      (some (.block [.ifElse [(read "y", set 2)] (some (set 3)) l] l)) l
    (m 0).scope.Valid ∧ Statement.NestedIf (some (set 3)) branches nested ∧
      Run.Ends (exec · (.ifElse branches (some (set 3)) l)) (m 0) (.done .normal (m 2)) ∧
      Run.Ends (exec · nested) (m 0) (.done .normal (m 2)) ∧
      Run.Ends (exec · (.block [nested] l)) (m 0) (.done .normal (m 2)) := by
  intro l read set m branches nested
  have hvalid : (m 0).scope.Valid := ⟨by simp [m], trivial⟩
  obtain ⟨hblock, hchain⟩ := empty_frame_unobservable hvalid
  have hnested : Statement.NestedIf (some (set 3)) branches nested :=
    .behind (read "x") (set 1) l l (.last (read "y") (set 2) l)
  have hflat : Run.Ends (exec · (.ifElse branches (some (set 3)) l)) (m 0)
      (.done .normal (m 2)) := ⟨by simp, 5, rfl⟩
  have hends := (hchain branches (some (set 3)) nested l hnested _).1 hflat
  have hno : ∀ d, nested ≠ .simple (.declaration d) := by simp [nested]
  exact ⟨hvalid, hnested, hflat, hends, (hblock nested l hno _).2 hends⟩

end MiniC
