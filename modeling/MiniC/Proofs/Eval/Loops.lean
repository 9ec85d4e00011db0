import MiniC.Proofs.Eval.Jumps
import MiniC.Proofs.Eval.Padded

/-!
# The loops in terms of one another

A `do` loop is a round of its body in front of a `while` loop.  A `for` loop whose body does not
`continue` it is a block of its first clause and a `while` loop, in which the body and the step
stand in a block together.  In that block they run on top of frames that the `for` loop does not
open; as these are empty, the loops match nevertheless.  Main statement: `loops_agree`.
-/

namespace MiniC

namespace Run

/-! ## Rounds -/

/-- A round of a loop, and what comes behind it unless the body broke or returned. -/
def round (body next : Run Flow) : Run Flow := do
  match ← body with
  | .broke _ => pure .normal
  | .returned v l => pure (.returned v l)
  | .normal | .continued _ => next

/-- A run, and behind it a step if it ended normally. -/
def thenStep (body : Run Flow) (step : Run Unit) : Run Flow := do
  match ← body with
  | .normal =>
    step
    pure .normal
  | flow => pure flow

variable {R : Machine → Machine → Prop} {test test' : Run Bool}
  {first body body' next next' : Run Flow} {step : Run Unit} {rounds rounds' : Nat}

theorem whileLoop_succ :
    whileLoop test body step (rounds + 1) =
      test >>= fun holds =>
        if holds then round body (step >>= fun _ => whileLoop test body step rounds)
        else pure .normal := by
  rw [whileLoop]
  refine congrArg (test >>= ·) (funext fun holds => ?_)
  cases holds with
  | false => rfl
  | true =>
    refine congrArg (body >>= ·) (funext fun flow => ?_)
    cases flow <;> rfl

theorem doWhile_succ :
    doWhile body test (rounds + 1) =
      round body (test >>= fun holds =>
        if holds then doWhile body test rounds else pure .normal) := by
  rw [doWhile]
  refine congrArg (body >>= ·) (funext fun flow => ?_)
  cases flow <;> rfl

theorem Simulated.round (hbody : Simulated R body body') (hnext : Simulated R next next') :
    Simulated R (round body next) (Run.round body' next') := by
  refine hbody.bind fun flow => ?_
  cases flow with
  | broke _ => exact simulated_pure Flow.normal
  | returned v l => exact simulated_pure (Flow.returned v l)
  | normal | continued _ => exact hnext

/-- A `do` loop is simulated by a round in front of a `while` loop with as many rounds. -/
theorem simulated_doWhile_whileLoop (hfirst : Simulated R body first)
    (hbody : Simulated R body body') (htest : Simulated R test test') (hle : rounds ≤ rounds') :
    Simulated R (doWhile body test rounds)
      (round first (whileLoop test' body' (pure ()) rounds')) := by
  induction rounds generalizing first rounds' with
  | zero => exact simulated_unfinished _
  | succ rounds ih =>
    obtain ⟨rounds', rfl⟩ := Nat.exists_eq_add_one_of_ne_zero (Nat.ne_zero_of_lt hle)
    rw [doWhile_succ, whileLoop_succ]
    refine hfirst.round (htest.bind fun holds => ?_)
    cases holds with
    | false => exact simulated_pure Flow.normal
    | true => exact ih hbody (Nat.le_of_succ_le_succ hle)

/-- A round in front of a `while` loop is simulated by a `do` loop with one more round. -/
theorem simulated_whileLoop_doWhile (hfirst : Simulated R first body')
    (hbody : Simulated R body body') (htest : Simulated R test test') (hlt : rounds < rounds') :
    Simulated R (round first (whileLoop test body (pure ()) rounds))
      (doWhile body' test' rounds') := by
  induction rounds generalizing first rounds' with
  | zero =>
    obtain ⟨rounds', rfl⟩ := Nat.exists_eq_add_one_of_ne_zero (Nat.ne_zero_of_lt hlt)
    rw [doWhile_succ]
    exact hfirst.round (simulated_unfinished _)
  | succ rounds ih =>
    obtain ⟨rounds', rfl⟩ := Nat.exists_eq_add_one_of_ne_zero (Nat.ne_zero_of_lt hlt)
    rw [doWhile_succ, whileLoop_succ]
    refine hfirst.round (htest.bind fun holds => ?_)
    cases holds with
    | false => exact simulated_pure Flow.normal
    | true => exact ih hbody (Nat.lt_of_succ_lt_succ hlt)

/-! ## The step in the body -/

/-- What comes behind a run matters for the values only that it can end with. -/
theorem bind_congr_done {r : Run α} {f g : α → Run β}
    (h : ∀ value m n, r m = .done value n → f value = g value) : r >>= f = r >>= g := by
  funext m
  show Run.bind r f m = Run.bind r g m
  unfold Run.bind
  cases hr : r m with
  | done value n => exact congrFun (h value m n hr) n
  | failed f n => rfl
  | unfinished => rfl

/-- A step behind a run that never ends with a `continue` is part of the round. -/
theorem round_thenStep (hbody : ∀ l m n, body m ≠ .done (.continued l) n) :
    round (thenStep body step) next = round body (step >>= fun _ => next) := by
  unfold round thenStep
  rw [bind_assoc]
  refine bind_congr_done fun flow m n hflow => ?_
  cases flow with
  | continued l => exact absurd hflow (hbody l m n)
  | normal =>
    show (step >>= fun _ => pure Flow.normal) >>= _ = _
    rw [bind_assoc]
    rfl
  | broke l | returned v l => rfl

/-- A loop whose body is not continued runs its step at the end of each round. -/
theorem whileLoop_thenStep (hbody : ∀ l m n, body m ≠ .done (.continued l) n) :
    whileLoop test (thenStep body step) (pure ()) rounds = whileLoop test body step rounds := by
  induction rounds with
  | zero => rfl
  | succ rounds ih => rw [whileLoop_succ, whileLoop_succ, ih, pure_bind, round_thenStep hbody]

end Run

/-! ## The loops of the evaluator -/

/-- The statement that is a clause of a `for` loop on its own; an absent clause does nothing. -/
def Statement.ofClause : Option SimpleStatement → Statement
  | none => .empty
  | some s => .simple s

section Loops

open Run

variable {extra extra' steps steps' : Nat} (c : Expr) (b : Statement)

theorem exec_whileLoop_succ (l : Lexeme) :
    exec (steps + 1) (.whileLoop c b l) =
      whileLoop (evalCondition (eval steps) c) (inFrame (exec steps b)) (pure ()) steps := by
  rw [exec]

theorem exec_doWhile_succ (l : Lexeme) :
    exec (steps + 1) (.doWhile b c l) =
      doWhile (inFrame (exec steps b)) (evalCondition (eval steps) c) steps := by
  rw [exec]

/-- A `do` loop matches a round of its body in front of a `while` loop. -/
theorem matches_doWhile (l l' : Lexeme) :
    Matches extra extra' (exec · (.doWhile b c l)) fun steps =>
      round (inFrame (exec steps b)) (exec steps (.whileLoop c b l')) := by
  apply (Matches.succ_left (exec_zero _) fun _ => exec_doWhile_succ c b l).2
  constructor
  · -- the `while` statement takes a step of its own before its first round
    refine ⟨1, fun steps steps' hle => ?_⟩
    obtain ⟨steps', rfl⟩ := Nat.exists_eq_add_one_of_ne_zero (Nat.ne_zero_of_lt hle)
    have hle' : steps ≤ steps' := Nat.le_of_succ_le_succ hle
    dsimp only
    rw [exec_whileLoop_succ]
    apply simulated_doWhile_whileLoop
    · exact simulated_inFrame (Nat.le_succ_of_le hle') b
    · exact simulated_inFrame hle' b
    · exact simulated_condition hle' c
    · exact hle'
  · refine refines_of_le fun steps steps' hle => ?_
    cases steps with
    | zero =>
      rw [exec_zero]
      exact simulated_unfinished _
    | succ steps =>
      have hle' : steps ≤ steps' := Nat.le_of_succ_le hle
      rw [exec_whileLoop_succ]
      apply simulated_whileLoop_doWhile
      · exact simulated_inFrame hle b
      · exact simulated_inFrame hle' b
      · exact simulated_condition hle' c
      · exact hle

theorem exec_forLoop_succ (first step : Option SimpleStatement) (l : Lexeme) :
    exec (steps + 1) (.forLoop first c step b l) =
      inFrame (execOptional (eval steps) (invoke steps) first >>= fun _ =>
        whileLoop (evalCondition (eval steps) c) (inFrame (exec steps b))
          (execOptional (eval steps) (invoke steps) step) steps) := by
  rw [exec]

theorem exec_ofClause (s : Option SimpleStatement) :
    exec (steps + 1) (.ofClause s) =
      execOptional (eval steps) (invoke steps) s >>= fun _ => pure .normal := by
  cases s with
  | none =>
    rw [Statement.ofClause, exec]
    rfl
  | some s =>
    rw [Statement.ofClause, exec]
    rfl

/-- A clause, and behind it a statement. -/
theorem inSequence_ofClause (s : Option SimpleStatement) (t : Statement) :
    inSequence (exec (steps + 1)) [.ofClause s, t] =
      execOptional (eval steps) (invoke steps) s >>= fun _ => exec (steps + 1) t := by
  rw [← inSequence_singleton (exec (steps + 1)) t]
  conv => lhs; rw [inSequence, exec_ofClause]
  exact Run.bind_assoc _ _ _

/-- A block of one statement, and behind it a clause. -/
theorem inSequence_thenStep (s : Option SimpleStatement) (l : Lexeme) :
    inSequence (exec (steps + 1)) [.block [b] l, .ofClause s] =
      thenStep (inFrame (exec steps b)) (execOptional (eval steps) (invoke steps) s) := by
  rw [inSequence, exec_block_singleton, inSequence_singleton, exec_ofClause]
  rfl

/-- A statement in which no `continue` is exposed never ends with one. -/
theorem inFrame_ne_continued (hb : ∀ l, ¬ (Statement.continueLoop l).Exposed b) (l : Lexeme)
    (m n : Machine) : inFrame (exec steps b) m ≠ .done (.continued l) n := by
  intro h
  unfold inFrame afterwards at h
  cases hrun : exec steps b { m with scope := m.scope.push } with
  | done flow k =>
    rw [hrun] at h
    cases h
    exact hb l (exec_jumps hrun)
  | failed f k =>
    rw [hrun] at h
    cases h
  | unfinished =>
    rw [hrun] at h
    cases h

/-- A clause that declares nothing runs on top of any empty frames. -/
theorem simulated_optional (hle : steps ≤ steps') (s : Option SimpleStatement)
    (hs : ∀ d, s = some (.declaration d) → (Site.under 0).Opened extra extra') :
    Simulated (Machine.Padded extra extra' (.under 0)) (execOptional (eval steps) (invoke steps) s)
      (execOptional (eval steps') (invoke steps') s) := by
  have hevaluates := (coupling_padded extra extra').evaluates hle
  exact Coupling.optional hevaluates.eval hevaluates.invoke (coupling_padded extra extra') s hs

/-- The first clause may be a declaration, as the frame of the loop is the same on both sides. -/
theorem matches_first (first : Option SimpleStatement) :
    Matches 0 0 (fun steps => execOptional (eval steps) (invoke steps) first)
      fun steps => execOptional (eval steps) (invoke steps) first := by
  constructor
  all_goals
    apply refines_of_le
    intro steps steps' hle
    exact simulated_optional hle first fun _ _ => ⟨rfl, rfl⟩

variable {step : Option SimpleStatement} (hstep : ∀ d, step ≠ some (.declaration d))

include hstep

/-- The body and the step of a `for` loop match the block of both, in which they run on top of two
frames more. -/
theorem matches_body (l l' : Lexeme) :
    Matches extra extra'
      (fun steps => thenStep (inFrame (exec steps b))
        (execOptional (eval steps) (invoke steps) step))
      fun steps => inFrame (exec steps (.block [.block [b] l, .ofClause step] l')) := by
  apply Matches.inFrame_right
  apply (Matches.succ_right (exec_zero _) fun _ => exec_block_succ _ l').2
  apply Matches.inFrame_right
  apply (Matches.succ_right rfl fun _ => inSequence_thenStep b step l).2
  apply matches_self
  intro extra extra' steps steps' hle
  refine (simulated_inFrame hle b).bind fun flow => ?_
  cases flow with
  | normal =>
    refine Simulated.bind ?_ fun _ => simulated_pure Flow.normal
    exact simulated_optional hle step fun d hd => absurd hd (hstep d)
  | broke l => exact simulated_pure (Flow.broke l)
  | continued l => exact simulated_pure (Flow.continued l)
  | returned v l => exact simulated_pure (Flow.returned v l)

/-- A `for` loop matches the block of its first clause and a `while` loop. -/
theorem matches_forLoop (hb : ∀ l, ¬ (Statement.continueLoop l).Exposed b)
    (first : Option SimpleStatement) (l l₁ l₂ l₃ l₄ : Lexeme) :
    Matches 0 0 (exec · (.forLoop first c step b l))
      (exec · (.block [.ofClause first,
        .whileLoop c (.block [.block [b] l₁, .ofClause step] l₂) l₃] l₄)) := by
  apply (Matches.succ_left (exec_zero _) fun _ => exec_forLoop_succ c b first step l).2
  apply (Matches.succ_right (exec_zero _) fun _ => exec_block_succ _ l₄).2
  -- both open a frame for the first clause
  apply Matches.inFrame
  apply (Matches.succ_right rfl fun _ => inSequence_ofClause first _).2
  apply (matches_first first).andThen
  simp only [exec_whileLoop_succ, ← whileLoop_thenStep (inFrame_ne_continued b hb)]
  apply (matches_condition c).whileLoop (matches_body b hstep l₁ l₂)
  exact matches_self fun _ => simulated_pure ()

end Loops

/-- The loops in terms of one another.  A `do` loop comes to the same as one round of its body in a
fresh frame and, unless that broke or returned, a `while` loop.  A `for` loop whose step is no
declaration and whose body has no `continue` outside of its own loops comes to the same as a block
of the first clause and a `while` loop, the body of which is a block of the body in braces and the
step. -/
theorem loops_agree {m : Machine} (hvalid : m.scope.Valid) (c : Expr) (b : Statement) :
    (∀ l l', Run.Equivalent (exec · (.doWhile b c l))
      (fun steps => Run.round (Run.inFrame (exec steps b)) (exec steps (.whileLoop c b l'))) m) ∧
    ∀ first step, (∀ d, step ≠ some (.declaration d)) →
      (∀ l, ¬ (Statement.continueLoop l).Exposed b) → ∀ l l₁ l₂ l₃ l₄,
        Run.Equivalent (exec · (.forLoop first c step b l))
          (exec · (.block [.ofClause first,
            .whileLoop c (.block [.block [b] l₁, .ofClause step] l₂) l₃] l₄)) m := by
  refine ⟨fun l l' => ?_, fun first step hstep hb l l₁ l₂ l₃ l₄ => ?_⟩
  · exact (matches_doWhile c b l l').equivalent hvalid
  · exact (matches_forLoop c b hstep hb first l l₁ l₂ l₃ l₄).equivalent hvalid

/-- In a call, loops whose body breaks if `i` is set and adds to `x` otherwise.  A `do` loop runs it
twice; a `for` loop that counts `i` in a variable of its own leaves it in the second round. -/
theorem breaking_loops_agree :
    let l := Lexeme.absent
    let read (name : String) : Expr := .variable name [] l
    let add (name : String) (n : Int64) : SimpleStatement :=
      .assignment ⟨name, [], l⟩ (.compound .add) (.literal (.int n) l) l
    let m (n : Int64) : Machine :=
      ⟨⟨.empty, [⟨[("x", .int n), ("i", .int 0)]⟩], [[]]⟩, ⟨⟨[]⟩, .unlimited⟩⟩
    let c : Expr := .binary .less (read "x") (.literal (.int 3) l) l
    let b : Statement := .ifElse [(read "i", .breakLoop l)] (some (.simple (add "x" 2))) l
    let first : Option SimpleStatement :=
      some (.declaration ⟨.int, ⟨"i", [], l⟩, some (.literal (.int 0) l)⟩)
    let step : Option SimpleStatement := some (add "i" 1)
    (m 0).scope.Valid ∧ (∀ d, step ≠ some (.declaration d)) ∧
      (∀ l', ¬ (Statement.continueLoop l').Exposed b) ∧
      Run.Ends (exec · (.doWhile b c l)) (m 0) (.done .normal (m 4)) ∧
      Run.Ends (fun steps => Run.round (Run.inFrame (exec steps b)) (exec steps (.whileLoop c b l)))
        (m 0) (.done .normal (m 4)) ∧
      Run.Ends (exec · (.forLoop first c step b l)) (m 0) (.done .normal (m 2)) ∧
      Run.Ends (exec · (.block [.ofClause first,
        .whileLoop c (.block [.block [b] l, .ofClause step] l) l] l)) (m 0)
        (.done .normal (m 2)) := by
  intro l read add m c b first step
  have hvalid : (m 0).scope.Valid := ⟨by simp [m], trivial⟩
  have hstep : ∀ d, step ≠ some (.declaration d) := by simp [step, add]
  have hb : ∀ l', ¬ (Statement.continueLoop l').Exposed b := by
    intro l' h
    simp only [b] at h
    cases h with
    | branch ht h =>
      obtain ⟨-, rfl⟩ := Prod.mk.inj (List.mem_singleton.1 ht)
      cases h
    | otherwise h => cases h
  have hdo : Run.Ends (exec · (.doWhile b c l)) (m 0) (.done .normal (m 4)) := ⟨by simp, 6, rfl⟩
  have hfor : Run.Ends (exec · (.forLoop first c step b l)) (m 0) (.done .normal (m 2)) :=
    ⟨by simp, 6, rfl⟩
  obtain ⟨hdoes, hfors⟩ := loops_agree hvalid c b
  exact ⟨hvalid, hstep, hb, hdo, (hdoes l l _).1 hdo, hfor,
    (hfors first step hstep hb l l l l l _).1 hfor⟩

end MiniC
