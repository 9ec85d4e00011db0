import MiniC.Proofs.Parse.Cited
import MiniC.Proofs.Parse.Does

/-!
# Calls descend

What a rule does is what its running parser does, if the calls that come first are answered by the
running parsers, whatever becomes of other calls.  There is a lemma for each rule, which follows the
running parser call by call, and one for each loop: a round ends the loop or leaves fewer lexemes.
Main statements: `iteration_continues` and `Rule.body_does`.
-/

namespace MiniC

open Parse

/-! ## The running parsers -/

/-- A parser leaves an end of what it is given. -/
theorem Parsed.Cites.suffix {stop : Stop} {ts rest : List Lexeme} {P : α → Prop} {p : Parsed n α}
    {x : α} (h : p.Cites stop (fun _ => True) ts P) (hp : p.Gives x rest) : rest <:+ ts := by
  have hcites := h fun _ _ => trivial
  cases p with
  | error e left => exact hp.elim
  | ok y left shorter =>
    obtain ⟨-, rfl⟩ := hp
    exact hcites.1

theorem Listed.cites (item : Listed α) (stop : Stop) (us : List Lexeme) :
    (item.parser stop us).Cites stop (fun _ => True) us fun _ => True := by
  cases item with
  | expression => exact (cites_expression us).mono fun _ _ => trivial
  | parameter => exact (cites_parameter us).mono fun _ _ => trivial

theorem Loop.cites {stop : Stop} {ts : List Lexeme} (l : Loop σ α) (state : σ) :
    (l.parser state stop ts).Cites stop (fun _ => True) ts fun _ => True := by
  cases l with
  | operators level =>
    exact (cites_operators level state ts fun _ _ => trivial).mono fun _ _ => trivial
  | separated item closing =>
    exact ((cites_itemsFrom closing ts fun us _ => item.cites stop us).map fun _ _ => trivial).relax
  | subscripts => exact (cites_indices ts).map fun _ _ => trivial
  | statements => exact ((cites_statements ts).map fun _ _ => trivial).relax
  | branches => exact (cites_elseChain ts).map fun _ _ => trivial
  | items => exact (cites_items ts).map fun _ _ => trivial

theorem Rule.cites {stop : Stop} {ts : List Lexeme} (r : Rule α) :
    (r.parser stop ts).Cites stop (fun _ => True) ts fun _ => True := by
  have hcites : ∀ {β : Type} {P : β → Prop} {p : Parsed ts.length β},
      p.Cites stop (fun _ => True) ts P → p.relax.Cites stop (fun _ => True) ts fun _ => True :=
    fun h => (h.mono fun _ _ => trivial).relax
  cases r with
  | symbol | keyword => exact hcites (cites_eat _ ts)
  | identifier => exact hcites (cites_identifier ts)
  | valueType => exact hcites (cites_valueType ts)
  | expression => exact hcites (cites_expression ts)
  | binary level => exact hcites (cites_binary level ts)
  | unary => exact hcites (cites_unary ts)
  | primary => exact hcites (cites_primary ts)
  | cast => exact hcites (cites_cast ts)
  | list => exact hcites (cites_list ts)
  | call => exact hcites (cites_call ts)
  | place => exact hcites (cites_place ts)
  | subscripts => exact (cites_indices ts).mono fun _ _ => trivial
  | separated item closing =>
    exact hcites (cites_commaSeparated closing ts fun us _ => item.cites stop us)
  | declaration => exact hcites (cites_declaration ts)
  | assignment => exact hcites (cites_assignment ts)
  | simpleStatement => exact hcites (cites_simpleStatement ts)
  | parenthesized => exact hcites (cites_parenthesized ts)
  | statement => exact hcites (cites_statement ts)
  | block => exact hcites (cites_block ts)
  | branch => exact hcites (cites_branch ts)
  | ifElse => exact hcites (cites_ifElse ts)
  | forLoop => exact hcites (cites_forLoop ts)
  | whileLoop => exact hcites (cites_whileLoop ts)
  | doWhile => exact hcites (cites_doWhile ts)
  | returnValue => exact hcites (cites_returnValue ts)
  | parameter => exact hcites (cites_parameter ts)
  | function => exact hcites (cites_function ts)
  | program => exact (cites_items ts).map fun _ _ => trivial
  | loop l state => exact l.cites state

/-- A rule is run as its parser says. -/
theorem Rule.run_does {s : Stream} (r : Rule α) (ts : List Lexeme) :
    r.run.Does s ts (r.parser s.stop ts) := by
  have hcites := @Rule.cites α s.stop ts r
  have hparse : (s.leaving ts).parse r.parser =
      ((r.parser s.stop ts).outcome, (s.leaving ts).afterParsing (r.parser s.stop ts)) := by
    unfold Stream.parse
    rw [Stream.stop_leaving, Stream.readable_leaving]
  cases hp : r.parser s.stop ts with
  | error e rest =>
    rw [hp] at hparse
    refine .inl ⟨e, ?_, rfl⟩
    unfold Rule.run
    rw [hparse]
    rfl
  | ok x rest hs =>
    rw [hp] at hcites hparse
    refine .inr ⟨x, rest, ?_, hcites.suffix ⟨rfl, rfl⟩, rfl⟩
    unfold Rule.run
    rw [hparse]
    dsimp only [Parsed.outcome, Stream.afterParsing]
    rw [Stream.unreadable_leaving]
    rfl

theorem Rule.parser_operand (stop : Stop) (level : Level) (ts : List Lexeme) :
    (Rule.operand level).parser stop ts = (Parse.operand stop level ts).relax := by
  cases level <;> rw [Parse.operand] <;> rfl

theorem Rule.rank_lt (r : Rule α) : r.rank < 12 := by
  cases r with
  | loop l state => cases l <;> simp [rank]
  | binary level => cases level <;> decide
  | _ => simp [rank]

/-! ## Calls that come first -/

/-- Calls of a rank below `rank` on `ts`, and all calls on less of it, are answered as the running
parsers answer them. -/
def AnsweredBelow (call : {β : Type} → Rule β → Descent β) (s : Stream) (rank : Nat)
    (ts : List Lexeme) : Prop :=
  ∀ ⦃β : Type⦄ (r : Rule β) (us : List Lexeme), us <:+ ts →
    us.length < ts.length ∨ us.length = ts.length ∧ r.rank < rank →
    call r (s.leaving us) = r.run (s.leaving us)

namespace AnsweredBelow

open Parsed Descent

variable {call : {β : Type} → Rule β → Descent β} {s : Stream} {rank : Nat} {l : Lexeme}
  {ts us : List Lexeme} {α β γ : Type} {r : Rule β}
  {R : γ → List Lexeme → Except SyntaxError (α × List Lexeme) → Prop} {k : β → Descent γ}

/-- On less all calls are answered. -/
theorem rest (h : AnsweredBelow call s rank ts) (hus : us <:+ ts) (hlt : us.length < ts.length) :
    AnsweredBelow call s 12 us :=
  fun _ r us' hus' hprecedes => h r us' (hus'.trans hus) (.inl (by omega))

theorem of_suffix (h : AnsweredBelow call s 12 ts) (hus : us <:+ ts) :
    AnsweredBelow call s 12 us := by
  intro _ r us' hus' _
  rcases Nat.lt_or_eq_of_le (hus'.trans hus).length_le with hlt | heq
  · exact h r us' (hus'.trans hus) (.inl hlt)
  · exact h r us' (hus'.trans hus) (.inr ⟨heq, r.rank_lt⟩)

/-- Behind the current lexeme all calls are answered. -/
theorem tail (h : AnsweredBelow call s rank (l :: ts)) : AnsweredBelow call s 12 ts :=
  h.rest (List.suffix_cons l ts) (Nat.lt_succ_self _)

theorem does (h : AnsweredBelow call s rank ts) (r : Rule β) (hr : r.rank < rank) :
    (call r).Does s ts (r.parser s.stop ts) :=
  (r.run_does ts).of_suffix (List.suffix_refl ts) (h r ts (List.suffix_refl ts) (.inr ⟨rfl, hr⟩))

variable {p : Parsed ts.length β}

theorem consumes (h : AnsweredBelow call s rank ts) (hp : r.parser s.stop ts = p.relax)
    (hr : r.rank < rank) : (call r).Does s ts p := by
  have hdoes := h.does r hr
  rw [hp] at hdoes
  exact hdoes.of_relax

/-- After a call that consumes, all calls are answered. -/
theorem followedBy (h : AnsweredBelow call s rank ts) (hp : r.parser s.stop ts = p.relax)
    (hr : r.rank < rank)
    {next : β → (rest : List Lexeme) → rest.length < ts.length → Parsed (rest.length + 1) α}
    (hk : ∀ x rest hs, AnsweredBelow call s 12 rest →
      (k x).Answers s rest R (next x rest hs).result) :
    (call r >>= k).Answers s ts R (p.followedBy next).result :=
  (h.consumes hp hr).followedBy fun x rest hs hrest => hk x rest hs (h.rest hrest hs)

theorem andThen (h : AnsweredBelow call s rank ts) (hp : r.parser s.stop ts = p.relax)
    (hr : r.rank < rank)
    {next : β → (rest : List Lexeme) → rest.length < ts.length → Parsed rest.length α}
    (hk : ∀ x rest hs, AnsweredBelow call s 12 rest →
      (k x).Answers s rest R (next x rest hs).result) :
    (call r >>= k).Answers s ts R (p.andThen next).result :=
  (h.consumes hp hr).andThen fun x rest hs hrest => hk x rest hs (h.rest hrest hs)

end AnsweredBelow

section

open Parsed Descent

variable {call : {β : Type} → Rule β → Descent β} {s : Stream} {ts : List Lexeme}

theorem token_of_endOfInput {l : Lexeme} (h : l.kind = .endOfInput) : l.token = .endOfInput := by
  unfold Lexeme.kind at h
  cases htoken : l.token with
  | endOfInput => rfl
  | floatLiteral | intLiteral | stringLiteral | identifier | keyword | symbol =>
    rw [htoken] at h
    cases h

/-! ## Lexemes -/

theorem body_identifier (hlast : s.last.kind = .endOfInput) :
    (Rule.identifier.body call).Does s ts (Parse.identifier s.stop ts) := by
  rw [Rule.body]
  cases ts with
  | nil =>
    refine does_expect_nil ?_
    unfold Lexeme.name?
    rw [token_of_endOfInput hlast]
  | cons l ts =>
    unfold Parse.identifier
    dsimp only
    cases htoken : l.token with
    | identifier name => exact does_expect_some (by rw [Lexeme.name?, htoken])
    | _ => exact does_expect_none (by rw [Lexeme.name?, htoken])

theorem does_returnType (hlast : s.last.kind = .endOfInput) :
    (expect Lexeme.returnType? .returnType).Does s ts (Parse.returnType s.stop ts) := by
  cases ts with
  | nil =>
    refine does_expect_nil ?_
    unfold Lexeme.returnType?
    rw [hlast]
    rfl
  | cons l ts =>
    unfold Parse.returnType
    dsimp only
    cases htype : TypeName.ofKind? l.kind with
    | some type => exact does_expect_some htype
    | none => exact does_expect_none htype

theorem body_valueType (hlast : s.last.kind = .endOfInput) :
    (Rule.valueType.body call).Does s ts (Parse.valueType s.stop ts) := by
  rw [Rule.body]
  cases ts with
  | nil =>
    refine does_expect_nil ?_
    unfold Lexeme.valueType? Lexeme.returnType?
    rw [hlast]
    rfl
  | cons l ts =>
    have haccept : l.valueType? = (TypeName.ofKind? l.kind).filter (· ≠ .void) := rfl
    unfold Parse.valueType
    dsimp only
    cases htype : TypeName.ofKind? l.kind with
    | some type =>
      rw [htype] at haccept
      dsimp only
      by_cases hvoid : type = .void
      · rw [if_pos hvoid]
        exact does_expect_none (by simp [haccept, hvoid])
      · rw [if_neg hvoid]
        exact does_expect_some (by simp [haccept, hvoid])
    | none =>
      rw [htype] at haccept
      exact does_expect_none haccept

theorem does_assignOp (hlast : s.last.kind = .endOfInput) :
    (expect Lexeme.assignOp? .assignOp).Does s ts (Parse.assignOp s.stop ts) := by
  cases ts with
  | nil =>
    refine does_expect_nil ?_
    unfold Lexeme.assignOp?
    rw [hlast]
    rfl
  | cons l ts =>
    unfold Parse.assignOp
    dsimp only
    cases hop : AssignOp.ofKind? l.kind with
    | some op => exact does_expect_some (by rw [Lexeme.assignOp?, hop, Option.map_some])
    | none => exact does_expect_none (by rw [Lexeme.assignOp?, hop, Option.map_none])

/-! ## Expressions -/

theorem body_binary {level : Level} (h : AnsweredBelow call s (Rule.binary level).rank ts) :
    ((Rule.binary level).body call).Does s ts (Parse.binary s.stop level ts) := by
  rw [Rule.body, Parse.binary]
  have hrank : (Rule.operand level).rank < (Rule.binary level).rank := by
    cases level <;> decide
  refine h.followedBy (Rule.parser_operand s.stop level ts) hrank fun left rest _ h => ?_
  exact h.does (.loop (.operators level) left) (Rule.rank_lt _)

theorem body_unary (hlast : s.last.kind = .endOfInput) (h : AnsweredBelow call s 3 ts) :
    (Rule.unary.body call).Does s ts (Parse.unary s.stop ts) := by
  rw [Rule.body]
  cases ts with
  | nil =>
    rw [Parse.unary]
    refine answers_peek_nil (fun _ => result_refuse) fun hstop => ?_
    rw [hlast]
    have hprimary := h.consumes (r := .primary) (p := Parse.primary s.stop []) rfl (by decide)
    rw [Parse.primary] at hprimary
    exact hprimary
  | cons l ts =>
    rw [Parse.unary]
    refine answers_peek_cons ?_
    cases hop : UnaryOp.ofKind? l.kind with
    | some op =>
      refine answers_advance ?_
      exact ((h.tail.consumes rfl (by decide)).map fun _ => rfl).relax
    | none => exact h.consumes (r := .primary) rfl (by decide)

theorem body_primary (hlast : s.last.kind = .endOfInput) (h : AnsweredBelow call s 2 ts) :
    (Rule.primary.body call).Does s ts (Parse.primary s.stop ts) := by
  rw [Rule.body]
  cases ts with
  | nil =>
    rw [Parse.primary]
    refine answers_peek_nil (fun _ => result_refuse) fun hstop => ?_
    rw [token_of_endOfInput hlast, hlast]
    exact answers_refuse
  | cons l ts =>
    rw [Parse.primary]
    refine answers_peek_cons ?_
    cases hv : literal? l.token with
    | some v => exact answers_advance (answers_pure rfl)
    | none =>
      dsimp only
      generalize hk : l.kind = k
      cases k with
      | symbol x =>
        cases x with
        | leftParen =>
          refine answers_peek_one (fun e he => by rw [he]; rfl) fun next hnext => ?_
          rw [hnext]
          dsimp only
          by_cases htype : (TypeName.ofKind? next.kind).isSome = true
          · rw [if_pos htype, if_pos htype]
            exact h.consumes (r := .cast) rfl (by decide)
          · rw [if_neg htype, if_neg htype, Parse.parenthesized]
            refine (does_advance_eat hk).andThen fun _ us hs hus => ?_
            refine (h.rest hus hs).andThen (r := .expression) rfl (by decide) fun x us' _ h => ?_
            exact (h.consumes rfl (by decide)).map fun _ => rfl
        | leftBrace => exact h.consumes (r := .list) rfl (by decide)
        | _ => exact answers_unexpected rfl
      | identifier =>
        refine answers_peek_one (fun e he => by rw [he]; rfl) fun next hnext => ?_
        rw [hnext]
        dsimp only
        by_cases hparen : next.kind = .symbol .leftParen
        · rw [if_pos hparen, if_pos hparen]
          exact (h.consumes (r := .call) rfl (by decide)).map fun _ => rfl
        · rw [if_neg hparen, if_neg hparen]
          exact (h.consumes (r := .place) rfl (by decide)).map fun _ => rfl
      | _ => exact answers_unexpected rfl

theorem body_parenthesized (h : AnsweredBelow call s 1 ts) :
    (Rule.parenthesized.body call).Does s ts (Parse.parenthesized s.stop ts) := by
  rw [Rule.body, Parse.parenthesized]
  refine h.andThen rfl (by decide) fun _ us _ h => ?_
  refine h.andThen (r := .expression) rfl (by decide) fun x us' _ h => ?_
  exact (h.consumes rfl (by decide)).map fun _ => rfl

theorem body_cast (h : AnsweredBelow call s 1 ts) :
    (Rule.cast.body call).Does s ts (Parse.cast s.stop ts) := by
  rw [Rule.body, Parse.cast]
  refine h.andThen rfl (by decide) fun l us _ h => ?_
  refine h.andThen rfl (by decide) fun type us' _ h => ?_
  refine h.andThen rfl (by decide) fun _ us'' _ h => ?_
  exact (h.consumes rfl (by decide)).map fun _ => rfl

theorem body_list (h : AnsweredBelow call s 1 ts) :
    (Rule.list.body call).Does s ts (Parse.list s.stop ts) := by
  rw [Rule.body, Parse.list]
  refine h.andThen rfl (by decide) fun l us _ h => ?_
  exact (h.consumes rfl (Rule.rank_lt _)).map fun _ => rfl

theorem body_call (h : AnsweredBelow call s 1 ts) :
    (Rule.call.body call).Does s ts (Parse.call s.stop ts) := by
  rw [Rule.body, Parse.call]
  refine h.andThen rfl (by decide) fun (name, l) us _ h => ?_
  refine h.andThen rfl (by decide) fun _ us' _ h => ?_
  exact (h.consumes rfl (Rule.rank_lt _)).map fun _ => rfl

theorem body_place (h : AnsweredBelow call s 1 ts) :
    (Rule.place.body call).Does s ts (Parse.place s.stop ts) := by
  rw [Rule.body, Parse.place]
  refine h.followedBy rfl (by decide) fun (name, l) us _ h => ?_
  exact (h.does .subscripts (by decide)).map fun _ => rfl

theorem body_subscripts (h : AnsweredBelow call s 1 ts) :
    (Rule.subscripts.body call).Does s ts (indices s.stop ts) := by
  rw [Rule.body]
  have hloop := h.does (.loop .subscripts []) Nat.one_pos
  rwa [Rule.parser, Loop.parser, map_nil_append] at hloop

theorem body_separated {item : Listed α} {closing : Symbol} (hlast : s.last.kind = .endOfInput)
    (h : AnsweredBelow call s 11 ts) :
    ((Rule.separated item closing).body call).Does s ts
      (commaSeparated s.stop closing ts fun us _ => item.parser s.stop us) := by
  rw [Rule.body]
  have hloop := h.consumes (r := .loop (.separated item closing) []) rfl (Nat.lt_succ_self 10)
  rw [map_nil_append] at hloop
  unfold commaSeparated
  cases ts with
  | nil =>
    refine answers_peek_nil (fun e hstop => by rw [hstop]; rfl) fun hstop => ?_
    rw [hlast, if_neg (by rintro ⟨⟩), hstop]
    rw [hstop] at hloop
    exact hloop
  | cons l ts =>
    refine answers_peek_cons ?_
    unfold ifNext
    dsimp only
    by_cases hl : l.kind = .symbol closing
    · rw [if_pos hl, if_pos hl]
      exact answers_advance (answers_pure rfl)
    · rw [if_neg hl, if_neg hl]
      exact hloop

/-! ## Statements -/

theorem body_declaration (hlast : s.last.kind = .endOfInput) (h : AnsweredBelow call s 1 ts) :
    (Rule.declaration.body call).Does s ts (Parse.declaration s.stop ts) := by
  rw [Rule.body]
  unfold Parse.declaration
  refine h.andThen rfl (by decide) fun type us _ h => ?_
  refine h.followedBy (r := .place) rfl (by decide) fun target us' _ h => ?_
  refine (does_optionalAfter hlast (by rintro ⟨⟩) fun rest hrest => ?_).map fun _ => rfl
  exact (h.of_suffix hrest).consumes rfl (by decide)

theorem body_assignment (hlast : s.last.kind = .endOfInput) (h : AnsweredBelow call s 2 ts) :
    (Rule.assignment.body call).Does s ts (Parse.assignment s.stop ts) := by
  rw [Rule.body]
  unfold Parse.assignment
  refine h.andThen (r := .place) rfl (by decide) fun target us _ h => ?_
  refine (does_assignOp hlast).andThen fun (op, l) us' _ hus' => ?_
  exact ((h.of_suffix hus').consumes (r := .expression) rfl (by decide)).map fun _ => rfl

theorem body_simpleStatement (hlast : s.last.kind = .endOfInput)
    (h : AnsweredBelow call s 3 ts) :
    (Rule.simpleStatement.body call).Does s ts (Parse.simpleStatement s.stop ts) := by
  rw [Rule.body]
  unfold Parse.simpleStatement
  cases ts with
  | nil =>
    refine answers_peek_nil (fun _ => result_refuse) fun hstop => ?_
    rw [hlast]
    exact answers_refuse
  | cons l ts =>
    refine answers_peek_cons ?_
    dsimp only
    by_cases hname : l.kind = .identifier
    · rw [if_pos hname, if_pos hname]
      refine answers_peek_one (fun e he => by rw [he]; rfl) fun next hnext => ?_
      rw [hnext]
      dsimp only
      by_cases hparen : next.kind = .symbol .leftParen
      · rw [if_pos hparen, if_pos hparen]
        exact (h.consumes (r := .call) rfl (by decide)).map fun _ => rfl
      · rw [if_neg hparen, if_neg hparen]
        exact h.consumes (r := .assignment) rfl (by decide)
    · rw [if_neg hname, if_neg hname]
      by_cases htype : l.kind.isValueType = true
      · rw [if_pos htype, if_pos htype]
        exact (h.consumes (r := .declaration) rfl (by decide)).map fun _ => rfl
      · rw [if_neg htype, if_neg htype]
        exact answers_unexpected rfl

theorem does_optionalSimple (hlast : s.last.kind = .endOfInput) (closing : Symbol)
    (h : AnsweredBelow call s 12 ts) :
    (optionalThrough closing (call (.symbol closing)) (call .simpleStatement)).Does s ts
      (optionalSimple s.stop closing ts) :=
  does_optionalThrough hlast (fun _ hus => (h.of_suffix hus).consumes rfl (Rule.rank_lt _))
    (h.consumes rfl (Rule.rank_lt _))

theorem body_returnValue (hlast : s.last.kind = .endOfInput) (h : AnsweredBelow call s 1 ts) :
    (Rule.returnValue.body call).Does s ts (Parse.returnValue s.stop ts) := by
  rw [Rule.body]
  unfold Parse.returnValue
  refine h.andThen rfl (by decide) fun l us _ h => ?_
  rw [← result_map_through s.stop .semicolon us (expression s.stop us) (Statement.returnValue · l)]
  refine (does_optionalThrough hlast (fun us' hus' => ?_) ?_).map fun _ => rfl
  · exact (h.of_suffix hus').consumes rfl (by decide)
  · exact h.consumes rfl (by decide)

theorem body_block (h : AnsweredBelow call s 1 ts) :
    (Rule.block.body call).Does s ts (Parse.block s.stop ts) := by
  rw [Rule.body, Parse.block]
  refine h.andThen rfl (by decide) fun l us _ h => ?_
  have hloop := h.consumes (r := .loop .statements []) rfl (Rule.rank_lt _)
  rw [map_nil_append] at hloop
  exact hloop.map fun _ => rfl

theorem body_branch (h : AnsweredBelow call s 2 ts) :
    (Rule.branch.body call).Does s ts (Parse.branch s.stop ts) := by
  rw [Rule.body, Parse.branch]
  refine h.andThen (r := .parenthesized) rfl (by decide) fun c us _ h => ?_
  exact (h.consumes (r := .statement) rfl (by decide)).map fun _ => rfl

theorem body_ifElse (h : AnsweredBelow call s 1 ts) :
    (Rule.ifElse.body call).Does s ts (Parse.ifElse s.stop ts) := by
  rw [Rule.body, Parse.ifElse]
  refine h.andThen rfl (by decide) fun l us _ h => ?_
  refine h.followedBy (r := .branch) rfl (by decide) fun first us' _ h => ?_
  have hchain := (h.does (.loop .branches [first]) (Rule.rank_lt _)).map
    (k := fun c => pure (Statement.ifElse c.1 c.2 l)) fun _ => rfl
  rw [Rule.parser, Loop.parser, map_map] at hchain
  exact hchain

theorem body_forLoop (hlast : s.last.kind = .endOfInput) (h : AnsweredBelow call s 1 ts) :
    (Rule.forLoop.body call).Does s ts (Parse.forLoop s.stop ts) := by
  rw [Rule.body, Parse.forLoop]
  refine h.andThen rfl (by decide) fun l us₁ _ h => ?_
  refine h.andThen rfl (by decide) fun _ us₂ _ h => ?_
  refine (does_optionalSimple hlast .semicolon h).andThen fun first us₃ _ hus₃ => ?_
  refine (h.of_suffix hus₃).andThen (r := .expression) rfl (by decide) fun c us₄ _ h => ?_
  refine h.andThen rfl (by decide) fun _ us₅ _ h => ?_
  refine (does_optionalSimple hlast .rightParen h).andThen fun step us₆ _ hus₆ => ?_
  exact ((h.of_suffix hus₆).consumes (r := .statement) rfl (by decide)).map fun _ => rfl

theorem body_whileLoop (h : AnsweredBelow call s 1 ts) :
    (Rule.whileLoop.body call).Does s ts (Parse.whileLoop s.stop ts) := by
  rw [Rule.body, Parse.whileLoop]
  refine h.andThen rfl (by decide) fun l us _ h => ?_
  rw [Parse.branch, map_andThen]
  refine h.andThen (r := .parenthesized) rfl (by decide) fun c us' _ h => ?_
  rw [map_map]
  exact (h.consumes (r := .statement) rfl (by decide)).map fun _ => rfl

theorem body_doWhile (h : AnsweredBelow call s 1 ts) :
    (Rule.doWhile.body call).Does s ts (Parse.doWhile s.stop ts) := by
  rw [Rule.body, Parse.doWhile]
  refine h.andThen rfl (by decide) fun l us₁ _ h => ?_
  refine h.andThen (r := .statement) rfl (by decide) fun body us₂ _ h => ?_
  refine h.andThen rfl (by decide) fun _ us₃ _ h => ?_
  refine h.andThen (r := .parenthesized) rfl (by decide) fun c us₄ _ h => ?_
  exact (h.consumes rfl (by decide)).map fun _ => rfl

/-- A keyword and a semicolon. -/
theorem does_jump {l : Lexeme} {w : Keyword} {k : Lexeme → Statement}
    (h : AnsweredBelow call s 4 (l :: ts)) (hl : l.kind = .keyword w) :
    (advance >>= fun l => call (.symbol .semicolon) >>= fun _ => pure (k l)).Does s (l :: ts)
      ((jump s.stop w (l :: ts)).map k) := by
  unfold jump
  rw [map_andThen]
  refine (does_advance_eat hl).andThen fun l us hs hus => ?_
  rw [map_map]
  exact ((h.rest hus hs).consumes rfl (by decide)).map fun _ => rfl

theorem body_statement (hlast : s.last.kind = .endOfInput) (h : AnsweredBelow call s 4 ts) :
    (Rule.statement.body call).Does s ts (Parse.statement s.stop ts) := by
  rw [Rule.body]
  have hsimple : (call .simpleStatement >>= fun x => call (.symbol .semicolon) >>= fun _ =>
      pure (Statement.simple x)).Does s ts
      ((Parse.simpleStatement s.stop ts).andThen fun x rest _ =>
        (Parse.eat s.stop (.symbol .semicolon) rest).map fun _ => Statement.simple x) := by
    refine h.andThen (r := .simpleStatement) rfl (by decide) fun x us _ h => ?_
    exact (h.consumes rfl (by decide)).map fun _ => rfl
  cases ts with
  | nil =>
    rw [Parse.statement]
    refine answers_peek_nil (fun _ => result_refuse) fun hstop => ?_
    rw [hlast, hstop]
    rw [hstop] at hsimple
    exact hsimple
  | cons l ts =>
    rw [Parse.statement]
    refine answers_peek_cons ?_
    dsimp only
    generalize hk : l.kind = k
    cases k with
    | symbol x =>
      cases x with
      | leftBrace => exact (h.consumes (r := .block) rfl (by decide)).map fun _ => rfl
      | semicolon => exact answers_advance (answers_pure rfl)
      | _ => exact hsimple
    | keyword w =>
      cases w with
      | «if» => exact h.consumes (r := .ifElse) rfl (by decide)
      | «for» => exact h.consumes (r := .forLoop) rfl (by decide)
      | «while» => exact h.consumes (r := .whileLoop) rfl (by decide)
      | «do» => exact h.consumes (r := .doWhile) rfl (by decide)
      | «break» => exact does_jump h hk
      | «continue» => exact does_jump h hk
      | «return» => exact h.consumes (r := .returnValue) rfl (by decide)
      | _ => exact hsimple
    | _ => exact hsimple

/-! ## Programs -/

theorem body_parameter (h : AnsweredBelow call s 1 ts) :
    (Rule.parameter.body call).Does s ts (Parse.parameter s.stop ts) := by
  rw [Rule.body]
  unfold Parse.parameter
  refine h.andThen rfl (by decide) fun type us _ h => ?_
  exact (h.consumes (r := .place) rfl (by decide)).map fun _ => rfl

theorem body_function (hlast : s.last.kind = .endOfInput) (h : AnsweredBelow call s 1 ts) :
    (Rule.function.body call).Does s ts (Parse.function s.stop ts) := by
  rw [Rule.body]
  unfold Parse.function
  refine (does_returnType hlast).andThen fun returns us₁ hs hus₁ => ?_
  refine (h.rest hus₁ hs).andThen (r := .place) rfl (by decide) fun name us₂ _ h => ?_
  refine h.andThen rfl (by decide) fun _ us₃ _ h => ?_
  refine h.andThen (r := .separated .parameter .rightParen) rfl (Rule.rank_lt _)
    fun parameters us₄ _ h => ?_
  exact (h.consumes (r := .block) rfl (by decide)).map fun _ => rfl

theorem body_program (h : AnsweredBelow call s 3 ts) :
    (Rule.program.body call).Does s ts ((items s.stop ts).map Program.mk) := by
  rw [Rule.body]
  have hloop := h.does (.loop .items []) (Nat.lt_succ_self 2)
  rw [Rule.parser, Loop.parser, map_nil_append] at hloop
  exact hloop.map fun _ => rfl

/-! ## Loops -/

/-- A round of a loop that began with `n` lexemes.  Either it leaves fewer, and the result is what
the loop makes of them from the new state, or it ends the loop with the result. -/
def Continues {σ : Type} (l : Loop σ α) (stop : Stop) (n : Nat) (next : σ ⊕ α) (us : List Lexeme)
    (res : Except SyntaxError (α × List Lexeme)) : Prop :=
  match next with
  | .inl state => us.length < n ∧ res = (l.parser state stop us).result
  | .inr x => res = .ok (x, us)

theorem item_does {item : Listed α} (h : AnsweredBelow call s 10 ts) :
    (call item.rule).Does s ts (item.parser s.stop ts) := by
  cases item with
  | expression => exact h.consumes (r := .expression) rfl (by decide)
  | parameter => exact h.consumes (r := .parameter) rfl (by decide)

theorem iteration_operators {level : Level} {left : Expr} (hlast : s.last.kind = .endOfInput)
    (h : AnsweredBelow call s 0 ts) :
    ((Loop.operators level).iteration call left).Answers s ts
      (Continues (.operators level) s.stop ts.length) (operators s.stop level left ts).result := by
  rw [Loop.iteration]
  cases ts with
  | nil =>
    rw [operators]
    refine answers_peek_nil (fun _ => result_atEnd) fun hstop => ?_
    rw [hlast]
    exact answers_pure (result_atEnd_ended hstop)
  | cons l ts =>
    rw [operators]
    refine answers_peek_cons ?_
    cases hop : BinaryOp.ofKind? l.kind with
    | none => exact answers_pure rfl
    | some op =>
      dsimp only
      by_cases hlevel : op.level = level
      · rw [if_pos hlevel, if_pos hlevel, result_relax, result_relax]
        refine answers_advance ?_
        refine h.tail.followedBy (Rule.parser_operand s.stop level ts) (Rule.rank_lt _)
          fun right rest hs _ => ?_
        exact answers_pure ⟨Nat.lt_succ_of_lt hs, rfl⟩
      · rw [if_neg hlevel, if_neg hlevel]
        exact answers_pure rfl

theorem iteration_separated {item : Listed α} {closing : Symbol} {xs : List α}
    (hlast : s.last.kind = .endOfInput) (h : AnsweredBelow call s 10 ts) :
    ((Loop.separated item closing).iteration call xs).Answers s ts
      (Continues (.separated item closing) s.stop ts.length)
      ((Loop.separated item closing).parser xs s.stop ts).result := by
  rw [Loop.iteration, Loop.parser, result_relax, itemsFrom, map_andThen]
  refine (item_does h).andThen fun x us hs hus => ?_
  cases us with
  | nil =>
    dsimp only
    rw [map_refuse]
    refine answers_nil advance_nil (fun _ => result_refuse) fun hstop => ?_
    rw [hlast, if_neg (by rintro ⟨⟩), if_neg (by rintro ⟨⟩)]
    exact answers_fail (result_refuse_ended hstop)
  | cons l us =>
    refine answers_advance ?_
    dsimp only
    by_cases hcomma : l.kind = .symbol .comma
    · rw [if_pos hcomma, if_pos hcomma, map_relax, result_relax, map_cons_map_append]
      exact answers_pure ⟨Nat.lt_of_succ_lt hs, (result_relax _).symm⟩
    · rw [if_neg hcomma, if_neg hcomma]
      by_cases hclosing : l.kind = .symbol closing
      · rw [if_pos hclosing, if_pos hclosing]
        exact answers_pure rfl
      · rw [if_neg hclosing, if_neg hclosing]
        exact answers_fail rfl

theorem iteration_subscripts {is : List (Option Expr)} (hlast : s.last.kind = .endOfInput)
    (h : AnsweredBelow call s 0 ts) :
    (Loop.subscripts.iteration call is).Answers s ts (Continues .subscripts s.stop ts.length)
      (Loop.subscripts.parser is s.stop ts).result := by
  rw [Loop.iteration, Loop.parser]
  cases ts with
  | nil =>
    rw [indices, map_atEnd, map_append_leaving]
    refine answers_peek_nil (fun _ => result_atEnd) fun hstop => ?_
    rw [hlast, if_neg (by rintro ⟨⟩)]
    exact answers_pure (result_atEnd_ended hstop)
  | cons l ts =>
    rw [indices]
    refine answers_peek_cons ?_
    by_cases hl : l.kind = .symbol .leftBracket
    · rw [if_pos hl, if_pos hl, map_relax, map_relax, result_relax, result_relax, map_followedBy]
      refine answers_advance ?_
      have hindex : (optionalThrough .rightBracket (call (.symbol .rightBracket))
          (call .expression)).Does s ts (index s.stop ts) := by
        rw [index]
        exact does_optionalThrough hlast
          (fun _ hus => (h.tail.of_suffix hus).consumes rfl (by decide))
          (h.tail.consumes rfl (by decide))
      refine hindex.followedBy fun i us hs _ => answers_pure ⟨Nat.lt_succ_of_lt hs, ?_⟩
      rw [map_cons_map_append]
      rfl
    · rw [if_neg hl, if_neg hl, map_append_leaving]
      exact answers_pure rfl

theorem iteration_statements {ss : List Statement} (hlast : s.last.kind = .endOfInput)
    (hts : ∀ l ∈ ts, l.kind ≠ .endOfInput) (h : AnsweredBelow call s 5 ts) :
    (Loop.statements.iteration call ss).Answers s ts (Continues .statements s.stop ts.length)
      (Loop.statements.parser ss s.stop ts).result := by
  rw [Loop.iteration, Loop.parser, result_relax]
  cases ts with
  | nil =>
    rw [statements, map_refuse]
    refine answers_peek_nil (fun _ => result_refuse) fun hstop => ?_
    rw [hlast, if_neg (by rintro ⟨⟩), if_pos rfl]
    exact answers_refuse
  | cons l ts =>
    rw [statements]
    refine answers_peek_cons ?_
    by_cases hl : l.kind = .symbol .rightBrace
    · rw [if_pos hl, if_pos hl, map_append_leaving]
      exact answers_advance (answers_pure rfl)
    · rw [if_neg hl, if_neg hl, if_neg (hts l List.mem_cons_self), map_andThen]
      refine h.andThen (r := .statement) rfl (by decide) fun x us hs _ => answers_pure ⟨hs, ?_⟩
      rw [map_cons_map_append]
      exact (result_relax _).symm

theorem iteration_branches {bs : List (Expr × Statement)} (hlast : s.last.kind = .endOfInput)
    (h : AnsweredBelow call s 0 ts) :
    (Loop.branches.iteration call bs).Answers s ts (Continues .branches s.stop ts.length)
      (Loop.branches.parser bs s.stop ts).result := by
  have hnone : ∀ us, ((leaving ([], (none : Option Statement)) us).map fun c => (bs ++ c.1, c.2)) =
      leaving (bs, none) us := by
    intro us
    unfold leaving map
    dsimp only
    rw [List.append_nil]
  rw [Loop.iteration, Loop.parser]
  cases ts with
  | nil =>
    rw [elseChain, map_atEnd, hnone]
    refine answers_peek_nil (fun _ => result_atEnd) fun hstop => ?_
    rw [hlast, if_neg (by rintro ⟨⟩)]
    exact answers_pure (result_atEnd_ended hstop)
  | cons l ts =>
    rw [elseChain]
    refine answers_peek_cons ?_
    by_cases hl : l.kind = .keyword .else
    · rw [if_pos hl, if_pos hl, map_relax, map_relax, result_relax, result_relax]
      refine answers_advance ?_
      have hotherwise : (call .statement >>= fun s => pure (.inr (bs, some s))).Answers s ts
          (Continues .branches s.stop (l :: ts).length)
          (((Parse.statement s.stop ts).map fun s => ([], some s)).map
            fun c => (bs ++ c.1, c.2)).result := by
        rw [map_map]
        refine (h.tail.consumes (r := .statement) rfl (by decide)).last fun x rest => ?_
        refine answers_pure ?_
        dsimp only
        rw [List.append_nil]
        rfl
      cases ts with
      | nil =>
        refine answers_peek_nil (fun e hstop => by rw [hstop]; rfl) fun hstop => ?_
        rw [hlast, if_neg (by rintro ⟨⟩), hstop]
        rw [hstop] at hotherwise
        exact hotherwise
      | cons l' ts =>
        refine answers_peek_cons ?_
        unfold ifNext
        dsimp only
        by_cases hif : l'.kind = .keyword .if
        · rw [if_pos hif, if_pos hif, map_relax, result_relax, map_followedBy]
          refine answers_advance ?_
          refine h.tail.tail.followedBy (r := .branch) rfl (by decide) fun b us hs _ => ?_
          refine answers_pure ⟨Nat.lt_succ_of_lt (Nat.lt_succ_of_lt hs), ?_⟩
          rw [map_map, Loop.parser]
          simp only [List.append_assoc, List.singleton_append]
        · rw [if_neg hif, if_neg hif]
          exact hotherwise
    · rw [if_neg hl, if_neg hl, hnone]
      exact answers_pure rfl

theorem iteration_items {is : List Item} (hlast : s.last.kind = .endOfInput)
    (hts : ∀ l ∈ ts, l.kind ≠ .endOfInput) (h : AnsweredBelow call s 2 ts) :
    (Loop.items.iteration call is).Answers s ts (Continues .items s.stop ts.length)
      (Loop.items.parser is s.stop ts).result := by
  rw [Loop.iteration, Loop.parser]
  cases ts with
  | nil =>
    rw [items, map_atEnd, map_append_leaving]
    refine answers_peek_nil (fun _ => result_atEnd) fun hstop => ?_
    rw [hlast, if_pos rfl]
    exact answers_pure (result_atEnd_ended hstop)
  | cons l ts =>
    rw [items, map_relax, result_relax, map_followedBy]
    refine answers_peek_cons ?_
    rw [if_neg (hts l List.mem_cons_self)]
    unfold item
    refine answers_kindBehindBrackets (fun e he => by rw [he]; rfl) fun next hnext => ?_
    rw [hnext]
    dsimp only
    refine Does.followedBy ?_ fun i us hs _ => answers_pure ⟨hs, ?_⟩
    · by_cases hparen : next = .symbol .leftParen
      · rw [if_pos hparen, if_pos hparen]
        exact (h.consumes (r := .function) rfl (by decide)).map fun _ => rfl
      · rw [if_neg hparen, if_neg hparen, global, map_andThen]
        refine h.andThen (r := .declaration) rfl (by decide) fun d us _ h => ?_
        rw [map_map]
        exact (h.consumes rfl (by decide)).map fun _ => rfl
    · rw [map_cons_map_append]
      rfl

theorem iteration_continues {σ : Type} (l : Loop σ α) (state : σ)
    (hlast : s.last.kind = .endOfInput) (hts : ∀ l ∈ ts, l.kind ≠ .endOfInput)
    (h : AnsweredBelow call s (Rule.loop l state).rank ts) :
    (l.iteration call state).Answers s ts (Continues l s.stop ts.length)
      (l.parser state s.stop ts).result := by
  cases l with
  | operators level => exact iteration_operators hlast h
  | separated item closing => exact iteration_separated hlast h
  | subscripts => exact iteration_subscripts hlast h
  | statements => exact iteration_statements hlast hts h
  | branches => exact iteration_branches hlast h
  | items => exact iteration_items hlast hts h

/-- A loop goes round with fewer lexemes, so its own call comes first. -/
theorem body_loop {σ : Type} (l : Loop σ α) (state : σ) (hlast : s.last.kind = .endOfInput)
    (hts : ∀ l ∈ ts, l.kind ≠ .endOfInput)
    (h : AnsweredBelow call s (Rule.loop l state).rank ts) :
    ((Rule.loop l state).body call).Does s ts (l.parser state s.stop ts) := by
  rw [Rule.body]
  rcases iteration_continues l state hlast hts h with
    ⟨e, hround, hres⟩ | ⟨next, us, hround, hus, hnext⟩
  · exact .inl ⟨e, bind_of_error hround, hres⟩
  · cases next with
    | inl state' =>
      obtain ⟨hlt, hres⟩ := hnext
      have hmore := (h.rest hus hlt).does (.loop l state') (Rule.rank_lt _)
      unfold Does at hmore ⊢
      rw [hres]
      exact hmore.of_suffix hus (bind_of_ok hround)
    | inr x => exact .inr ⟨x, us, bind_of_ok hround, hus, hnext⟩

/-- What a rule does is what its running parser does, whatever becomes of calls that do not come
first. -/
theorem Rule.body_does (r : Rule α) (hlast : s.last.kind = .endOfInput)
    (hts : ∀ l ∈ ts, l.kind ≠ .endOfInput) (h : AnsweredBelow call s r.rank ts) :
    (r.body call).Does s ts (r.parser s.stop ts) := by
  cases r with
  | symbol => exact (does_eat hlast (by rintro ⟨⟩) ts).relax
  | keyword => exact (does_eat hlast (by rintro ⟨⟩) ts).relax
  | identifier => exact (body_identifier hlast).relax
  | valueType => exact (body_valueType hlast).relax
  | expression =>
    rw [Rule.body]
    exact (h.consumes (r := .binary .logical) rfl (by decide)).relax
  | binary level => exact (body_binary h).relax
  | unary => exact (body_unary hlast h).relax
  | primary => exact (body_primary hlast h).relax
  | cast => exact (body_cast h).relax
  | list => exact (body_list h).relax
  | call => exact (body_call h).relax
  | place => exact (body_place h).relax
  | subscripts => exact body_subscripts h
  | separated item closing => exact (body_separated hlast h).relax
  | declaration => exact (body_declaration hlast h).relax
  | assignment => exact (body_assignment hlast h).relax
  | simpleStatement => exact (body_simpleStatement hlast h).relax
  | parenthesized => exact (body_parenthesized h).relax
  | statement => exact (body_statement hlast h).relax
  | block => exact (body_block h).relax
  | branch => exact (body_branch h).relax
  | ifElse => exact (body_ifElse h).relax
  | forLoop => exact (body_forLoop hlast h).relax
  | whileLoop => exact (body_whileLoop h).relax
  | doWhile => exact (body_doWhile h).relax
  | returnValue => exact (body_returnValue hlast h).relax
  | parameter => exact (body_parameter h).relax
  | function => exact (body_function hlast h).relax
  | program => exact body_program h
  | loop l state => exact body_loop l state hlast hts h

end

end MiniC
