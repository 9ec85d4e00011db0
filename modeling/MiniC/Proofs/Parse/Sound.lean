import MiniC.Proofs.Parse.Gives
import MiniC.Proofs.Parse.Grammar

/-!
# Parsers read what the grammar derives

A parser that succeeds has read lexemes that the grammar derives its value from, followed by the
rest that it leaves.  The parsers are followed in their own recursion.  Main statement:
`reads_items`.
-/

namespace MiniC

open Grammar

/-- Whatever is given was read off the front of some lexemes, and `Is` says what was read. -/
def Parsed.Reads (Is : List Lexeme → α → Prop) (ts : List Lexeme) {n : Nat} (p : Parsed n α) :
    Prop :=
  ∀ ⦃x rest⦄, p.Gives x rest → ∃ ls, ts = ls ++ rest ∧ Is ls x

namespace Parse

open Parsed

variable {α : Type} {stop : Stop}

/-! ## Lists of items -/

theorem reads_itemsFrom {Is : List Lexeme → α → Prop} {closing : Symbol} {ts rest : List Lexeme}
    {item : (us : List Lexeme) → us.length ≤ ts.length → Parsed us.length α} {xs : List α}
    (hitem : ∀ us h, (item us h).Reads Is us)
    (h : (itemsFrom stop closing ts item).Gives xs rest) :
    ∃ ls r, ts = ls ++ r :: rest ∧ IsItemsFrom Is ls xs ∧ r.kind = .symbol closing := by
  rw [itemsFrom] at h
  obtain ⟨x, left, hleft, hx, h⟩ := gives_andThen.1 h
  obtain ⟨ls, hts, hls⟩ := hitem _ _ hx
  cases left with
  | nil => exact absurd h not_gives_refuse
  | cons l us =>
    dsimp only at h
    split at h
    · next hcomma =>
      obtain ⟨ys, hys, rfl⟩ := gives_map.1 (gives_relax.1 h)
      have hshorter : us.length < ts.length := Nat.lt_of_succ_lt hleft
      obtain ⟨ls', r, rfl, hls', hr⟩ := reads_itemsFrom (fun us h => hitem us _) hys
      exact ⟨ls ++ l :: ls', r, by simp [hts], .more hls hcomma hls', hr⟩
    · split at h
      · next hclosing =>
        obtain ⟨rfl, rfl⟩ := h
        exact ⟨ls, l, hts, .one hls, hclosing⟩
      · exact absurd h not_gives_error
termination_by ts.length
decreasing_by exact hshorter

theorem reads_commaSeparated {Is : List Lexeme → α → Prop} {closing : Symbol}
    {ts rest : List Lexeme}
    {item : (us : List Lexeme) → us.length ≤ ts.length → Parsed us.length α} {xs : List α}
    (hitem : ∀ us h, (item us h).Reads Is us)
    (h : (commaSeparated stop closing ts item).Gives xs rest) :
    ∃ ls r, ts = ls ++ r :: rest ∧ IsSeparated Is ls xs ∧ r.kind = .symbol closing := by
  rcases gives_ifNext h with ⟨l, left, -, rfl, hl, rfl, rfl⟩ | ⟨-, h⟩
  · exact ⟨[], l, rfl, .none, hl⟩
  · obtain ⟨ls, r, hts, hls, hr⟩ := reads_itemsFrom hitem h
    exact ⟨ls, r, hts, .some hls, hr⟩

/-! ## Expressions -/

mutual

theorem reads_binary (level : Level) (ts : List Lexeme) :
    (binary stop level ts).Reads (IsExpr (.binary level)) ts := by
  unfold binary
  intro e rest h
  obtain ⟨left, us, hus, hleft, he⟩ := gives_followedBy.1 h
  obtain ⟨ls, rfl, hls⟩ := reads_operand level ts hleft
  obtain ⟨ls', rfl, hls'⟩ := reads_operators level left us he
  exact ⟨ls ++ ls', by simp, .level hls hls'⟩
termination_by 16 * ts.length + (2 * level.looseness + 4)
decreasing_by all_goals omega

theorem reads_operand (level : Level) (ts : List Lexeme) :
    (operand stop level ts).Reads (IsExpr (.operand level)) ts := by
  unfold operand
  cases level with
  | multiplicative => exact reads_unary ts
  | additive => exact reads_binary .multiplicative ts
  | relational => exact reads_binary .additive ts
  | bitwise => exact reads_binary .relational ts
  | logical => exact reads_binary .bitwise ts
termination_by 16 * ts.length + (2 * level.looseness + 3)
decreasing_by all_goals (try simp only [Level.looseness]); omega

theorem reads_operators (level : Level) (left : Expr) (ts : List Lexeme) :
    (operators stop level left ts).Reads (IsOperators level left) ts := by
  unfold operators
  cases ts with
  | nil =>
    intro e rest h
    obtain ⟨-, rfl, rfl⟩ := gives_atEnd.1 h
    exact ⟨[], rfl, .none⟩
  | cons l us =>
    intro e rest h
    dsimp only at h
    split at h
    · obtain ⟨rfl, rfl⟩ := h
      exact ⟨[], rfl, .none⟩
    · next op hop =>
      split at h
      · next hlevel =>
        obtain ⟨right, us', hus', hright, he⟩ :=
          gives_followedBy.1 (gives_relax.1 (gives_relax.1 h))
        obtain ⟨ls, rfl, hls⟩ := reads_operand level us hright
        obtain ⟨ls', rfl, hls'⟩ := reads_operators level _ us' he
        exact ⟨l :: (ls ++ ls'), by simp, .some hop hlevel hls hls'⟩
      · obtain ⟨rfl, rfl⟩ := h
        exact ⟨[], rfl, .none⟩
termination_by 16 * ts.length + 13
decreasing_by
  all_goals (try simp only [List.length_cons] at *)
  · cases level <;> simp only [Level.looseness] <;> omega
  · omega

theorem reads_unary (ts : List Lexeme) : (unary stop ts).Reads (IsExpr .unary) ts := by
  unfold unary
  cases ts with
  | nil => exact fun e rest h => absurd h not_gives_refuse
  | cons l us =>
    intro e rest h
    dsimp only at h
    split at h
    · next op hop =>
      obtain ⟨x, hx, rfl⟩ := gives_map.1 (gives_relax.1 h)
      obtain ⟨ls, rfl, hls⟩ := reads_unary us hx
      exact ⟨l :: ls, rfl, .operator hop hls⟩
    · obtain ⟨ls, hts, hls⟩ := reads_primary (l :: us) h
      exact ⟨ls, hts, .primary hls⟩
termination_by 16 * ts.length + 2
decreasing_by all_goals simp only [List.length_cons]; omega

theorem reads_primary (ts : List Lexeme) : (primary stop ts).Reads (IsExpr .primary) ts := by
  unfold primary
  cases ts with
  | nil => exact fun e rest h => absurd h not_gives_refuse
  | cons l us =>
    intro e rest h
    dsimp only at h
    split at h
    · next v hv =>
      obtain ⟨rfl, rfl⟩ := h
      exact ⟨[l], rfl, .literal hv⟩
    · split at h
      · split at h
        · exact absurd h not_gives_error
        · split at h
          · exact reads_cast (l :: us) h
          · obtain ⟨ls, hts, hl, he, hr⟩ := reads_condition (l :: us) h
            exact ⟨_, hts, .parenthesized hl he hr⟩
      · exact reads_list (l :: us) h
      · split at h
        · exact absurd h not_gives_error
        · split at h
          · obtain ⟨c, hc, rfl⟩ := gives_map.1 h
            obtain ⟨ls, hts, hl, hp, hxs, hr⟩ := reads_call (l :: us) hc
            exact ⟨_, hts, .call hl hp hxs hr⟩
          · obtain ⟨p, hp, rfl⟩ := gives_map.1 h
            obtain ⟨ls, hts, hl, his⟩ := reads_place (l :: us) hp
            exact ⟨_, hts, .variable hl his⟩
      · exact absurd h not_gives_error
termination_by 16 * ts.length + 1
decreasing_by all_goals simp only [List.length_cons]; omega

theorem reads_cast (ts : List Lexeme) : (cast stop ts).Reads (IsExpr .primary) ts := by
  unfold cast
  intro e rest h
  obtain ⟨l, us, hus, gl, h⟩ := gives_andThen.1 h
  obtain ⟨type, us', hus', htype, h⟩ := gives_andThen.1 h
  obtain ⟨r, us'', hus'', gr, h⟩ := gives_andThen.1 h
  obtain ⟨x, hx, rfl⟩ := gives_map.1 h
  obtain ⟨rfl, hl⟩ := gives_eat.1 gl
  obtain ⟨t, rfl, ht, hvoid⟩ := gives_valueType.1 htype
  obtain ⟨rfl, hr⟩ := gives_eat.1 gr
  obtain ⟨ls, rfl, hls⟩ := reads_unary us'' hx
  exact ⟨l :: t :: r :: ls, rfl, .cast hl ht hvoid hr hls⟩
termination_by 16 * ts.length
decreasing_by all_goals omega

/-- What stands in parentheses, as an operand or as a condition. -/
theorem reads_condition (ts : List Lexeme) : (parenthesized stop ts).Reads IsCondition ts := by
  unfold parenthesized
  intro e rest h
  obtain ⟨l, us, hus, gl, h⟩ := gives_andThen.1 h
  obtain ⟨x, us', hus', hx, h⟩ := gives_andThen.1 h
  obtain ⟨r, gr, rfl⟩ := gives_map.1 h
  obtain ⟨rfl, hl⟩ := gives_eat.1 gl
  obtain ⟨ls, rfl, hls⟩ := reads_binary .logical us hx
  obtain ⟨rfl, hr⟩ := gives_eat.1 gr
  exact ⟨l :: (ls ++ [r]), by simp, .mk hl hls hr⟩
termination_by 16 * ts.length
decreasing_by all_goals (try simp only [Level.looseness]); omega

theorem reads_list (ts : List Lexeme) : (list stop ts).Reads (IsExpr .primary) ts := by
  unfold list
  intro e rest h
  obtain ⟨l, us, hus, gl, h⟩ := gives_andThen.1 h
  obtain ⟨xs, hxs, rfl⟩ := gives_map.1 h
  obtain ⟨rfl, hl⟩ := gives_eat.1 gl
  obtain ⟨ls, r, rfl, hls, hr⟩ :=
    reads_commaSeparated (fun us' _ => reads_binary .logical us') hxs
  exact ⟨l :: (ls ++ [r]), by simp, .list hl hls hr⟩
termination_by 16 * ts.length
decreasing_by all_goals (try simp only [Level.looseness]); omega

theorem reads_call (ts : List Lexeme) : (call stop ts).Reads IsCall ts := by
  unfold call
  intro c rest h
  obtain ⟨⟨name, l⟩, us, hus, gl, h⟩ := gives_andThen.1 h
  obtain ⟨p, us', hus', gp, h⟩ := gives_andThen.1 h
  obtain ⟨xs, hxs, rfl⟩ := gives_map.1 h
  obtain ⟨rfl, hl⟩ := gives_identifier.1 gl
  obtain ⟨rfl, hp⟩ := gives_eat.1 gp
  obtain ⟨ls, r, rfl, hls, hr⟩ :=
    reads_commaSeparated (fun us'' _ => reads_binary .logical us'') hxs
  exact ⟨l :: p :: (ls ++ [r]), by simp, .mk hl hp hls hr⟩
termination_by 16 * ts.length
decreasing_by all_goals (try simp only [Level.looseness]); omega

theorem reads_place (ts : List Lexeme) : (place stop ts).Reads IsPlace ts := by
  unfold place
  intro p rest h
  obtain ⟨⟨name, l⟩, us, hus, gl, h⟩ := gives_followedBy.1 h
  obtain ⟨is, his, rfl⟩ := gives_map.1 h
  obtain ⟨rfl, hl⟩ := gives_identifier.1 gl
  obtain ⟨ls, rfl, hls⟩ := reads_indices us his
  exact ⟨l :: ls, rfl, .mk hl hls⟩
termination_by 16 * ts.length
decreasing_by all_goals omega

theorem reads_indices (ts : List Lexeme) : (indices stop ts).Reads IsIndices ts := by
  unfold indices
  cases ts with
  | nil =>
    intro is rest h
    obtain ⟨-, rfl, rfl⟩ := gives_atEnd.1 h
    exact ⟨[], rfl, .none⟩
  | cons l us =>
    intro is rest h
    dsimp only at h
    split at h
    · next hl =>
      obtain ⟨i, us', hus', hi, h⟩ := gives_followedBy.1 (gives_relax.1 (gives_relax.1 h))
      obtain ⟨is', his, rfl⟩ := gives_map.1 h
      obtain ⟨ls', rfl, hls'⟩ := reads_indices us' his
      rcases reads_index us hi with ⟨r, rfl, hr, rfl⟩ | ⟨x, ls, r, rfl, hls, hr, rfl⟩
      · exact ⟨l :: r :: ls', rfl, .empty hl hr hls'⟩
      · exact ⟨l :: (ls ++ r :: ls'), by simp, .index hl hls hr hls'⟩
    · obtain ⟨rfl, rfl⟩ := h
      exact ⟨[], rfl, .none⟩
termination_by 16 * ts.length + 13
decreasing_by all_goals simp only [List.length_cons] at *; omega

/-- A closing bracket, or an expression and a closing bracket. -/
theorem reads_index (ts : List Lexeme) {i : Option Expr} {rest : List Lexeme}
    (h : (index stop ts).Gives i rest) :
    (∃ r, ts = r :: rest ∧ r.kind = .symbol .rightBracket ∧ i = none) ∨
      ∃ x ls r, ts = ls ++ r :: rest ∧ IsExpr .expression ls x ∧
        r.kind = .symbol .rightBracket ∧ i = some x := by
  rw [index] at h
  rcases gives_ifNext h with ⟨r, us, hus, rfl, hr, rfl, rfl⟩ | ⟨-, h⟩
  · exact Or.inl ⟨r, rfl, hr, rfl⟩
  · obtain ⟨x, us, hus, hx, h⟩ := gives_andThen.1 h
    obtain ⟨r, gr, rfl⟩ := gives_map.1 h
    obtain ⟨ls, rfl, hls⟩ := reads_binary .logical ts hx
    obtain ⟨rfl, hr⟩ := gives_eat.1 gr
    exact Or.inr ⟨x, ls, r, rfl, hls, hr, rfl⟩
termination_by 16 * ts.length + 13
decreasing_by all_goals (try simp only [Level.looseness]); omega

end

theorem reads_expression (ts : List Lexeme) : (expression stop ts).Reads (IsExpr .expression) ts :=
  reads_binary .logical ts

/-! ## Simple statements -/

theorem reads_declaration (ts : List Lexeme) : (declaration stop ts).Reads IsDeclaration ts := by
  unfold declaration
  intro d rest h
  obtain ⟨type, us, hus, gtype, h⟩ := gives_andThen.1 h
  obtain ⟨p, us', hus', gp, h⟩ := gives_followedBy.1 h
  obtain ⟨o, go, rfl⟩ := gives_map.1 h
  obtain ⟨t, rfl, ht, hvoid⟩ := gives_valueType.1 gtype
  obtain ⟨ls, rfl, hls⟩ := reads_place us gp
  rcases gives_optionalAfter go with ⟨l, left, x, rfl, hl, gx, rfl⟩ | ⟨rfl, rfl⟩
  · obtain ⟨ls', rfl, hls'⟩ := reads_expression left gx
    exact ⟨t :: (ls ++ l :: ls'), by simp, .initialized ht hvoid hls hl hls'⟩
  · exact ⟨t :: ls, rfl, .plain ht hvoid hls⟩

theorem reads_assignment (ts : List Lexeme) : (assignment stop ts).Reads IsSimple ts := by
  unfold assignment
  intro s rest h
  obtain ⟨p, us, hus, gp, h⟩ := gives_andThen.1 h
  obtain ⟨⟨op, l⟩, us', hus', gop, h⟩ := gives_andThen.1 h
  obtain ⟨x, gx, rfl⟩ := gives_map.1 h
  obtain ⟨ls, rfl, hls⟩ := reads_place ts gp
  obtain ⟨rfl, hop⟩ := gives_assignOp.1 gop
  obtain ⟨ls', rfl, hls'⟩ := reads_expression us' gx
  exact ⟨ls ++ l :: ls', by simp, .assignment hls hop hls'⟩

theorem reads_simpleStatement (ts : List Lexeme) :
    (simpleStatement stop ts).Reads IsSimple ts := by
  unfold simpleStatement
  cases ts with
  | nil => exact fun s rest h => absurd h not_gives_refuse
  | cons l us =>
    intro s rest h
    dsimp only at h
    split at h
    · split at h
      · exact absurd h not_gives_error
      · split at h
        · obtain ⟨c, gc, rfl⟩ := gives_map.1 h
          obtain ⟨ls, hts, hls⟩ := reads_call (l :: us) gc
          exact ⟨ls, hts, .call hls⟩
        · exact reads_assignment (l :: us) h
    · split at h
      · obtain ⟨d, gd, rfl⟩ := gives_map.1 h
        obtain ⟨ls, hts, hls⟩ := reads_declaration (l :: us) gd
        exact ⟨ls, hts, .declaration hls⟩
      · exact absurd h not_gives_error

theorem reads_optionalSimple {closing : Symbol} {ts rest : List Lexeme}
    {s : Option SimpleStatement} (h : (optionalSimple stop closing ts).Gives s rest) :
    ∃ ls r, ts = ls ++ r :: rest ∧ IsOptional IsSimple ls s ∧ r.kind = .symbol closing := by
  rcases gives_ifNext h with ⟨r, left, -, rfl, hr, rfl, rfl⟩ | ⟨-, h⟩
  · exact ⟨[], r, rfl, .none, hr⟩
  · obtain ⟨s, us, hus, gs, h⟩ := gives_andThen.1 h
    obtain ⟨r, gr, rfl⟩ := gives_map.1 h
    obtain ⟨ls, rfl, hls⟩ := reads_simpleStatement ts gs
    obtain ⟨rfl, hr⟩ := gives_eat.1 gr
    exact ⟨ls, r, rfl, .some hls, hr⟩

theorem reads_returnValue (ts : List Lexeme) :
    (returnValue stop ts).Reads (fun ls s => IsStatement ls s ∧ s.isOpen = false) ts := by
  unfold returnValue
  intro s rest h
  obtain ⟨l, us, hus, gl, g⟩ := gives_andThen.1 h
  obtain ⟨rfl, hl⟩ := gives_eat.1 gl
  rcases gives_ifNext g with ⟨semi, left, -, rfl, hsemi, rfl, rfl⟩ | ⟨-, g⟩
  · exact ⟨[l, semi], rfl, .returnValue hl .none hsemi, rfl⟩
  · obtain ⟨x, us', hus', gx, g⟩ := gives_andThen.1 g
    obtain ⟨semi, gsemi, rfl⟩ := gives_map.1 g
    obtain ⟨ls, rfl, hls⟩ := reads_expression us gx
    obtain ⟨rfl, hsemi⟩ := gives_eat.1 gsemi
    exact ⟨l :: (ls ++ [semi]), by simp, .returnValue hl (.some hls) hsemi, rfl⟩

/-! ## Statements

A parser of statements takes an `else` wherever it can, so none is left after a statement that it
could belong to. -/

/-- The current lexeme is no `else`. -/
def NoElse (ts : List Lexeme) : Prop := ∀ l us, ts = l :: us → l.kind ≠ .keyword .else

theorem noElse_of_kind_ne {l : Lexeme} {us : List Lexeme} (h : l.kind ≠ .keyword .else) :
    NoElse (l :: us) := by
  rintro l' us' ⟨⟩
  exact h

/-- What is read as a statement leaves no `else` that belongs to it. -/
def ReadsStatement (ts : List Lexeme) {n : Nat} (p : Parsed n Statement) : Prop :=
  ∀ ⦃s rest⦄, p.Gives s rest →
    ∃ ls, ts = ls ++ rest ∧ IsStatement ls s ∧ (s.isOpen = true → NoElse rest)

/-- A statement that is closed needs nothing of what follows. -/
theorem readsStatement_of_closed {ts : List Lexeme} {n : Nat} {p : Parsed n Statement}
    (h : p.Reads (fun ls s => IsStatement ls s ∧ s.isOpen = false) ts) : ReadsStatement ts p := by
  intro s rest hs
  obtain ⟨ls, hts, hls, hclosed⟩ := h hs
  exact ⟨ls, hts, hls, fun hopen => by rw [hclosed] at hopen; cases hopen⟩

/-- What an `else` chain follows is closed if the chain is not empty: the chain begins with
`else`. -/
theorem isOpen_of_noElse {s : Statement} {ls rest : List Lexeme}
    {more : List (Expr × Statement)} {otherwise : Option Statement}
    (hmore : IsElseChain ls more otherwise) (h : s.isOpen = true → NoElse (ls ++ rest)) :
    ls = [] ∨ s.isOpen = false := by
  cases hopen : s.isOpen with
  | false => exact Or.inr rfl
  | true =>
    cases hmore with
    | none => exact Or.inl rfl
    | elseIf he | last he => exact absurd he (h hopen _ _ rfl)

/-- What does not begin with `if` is none. -/
theorem isIf_of_kind_ne {s : Statement} {ts ls rest : List Lexeme} (hls : IsStatement ls s)
    (hts : ts = ls ++ rest) (h : ∀ l left, ts = l :: left → l.kind ≠ .keyword .if) :
    s.isIf = false := by
  cases hls with
  | ifElse hl => exact absurd hl (h _ _ hts)
  | empty | simple | block | forLoop | whileLoop | doWhile | breakLoop | continueLoop
  | returnValue => rfl

mutual

theorem reads_statement (ts : List Lexeme) : ReadsStatement ts (statement stop ts) := by
  unfold statement
  cases ts with
  | nil => exact fun s rest h => absurd h not_gives_refuse
  | cons l us =>
    dsimp only
    split
    · refine readsStatement_of_closed fun s rest h => ?_
      obtain ⟨⟨body, b⟩, gbody, rfl⟩ := gives_map.1 h
      obtain ⟨ls, r, hts, hb, hls, hr⟩ := reads_block (l :: us) gbody
      exact ⟨b :: (ls ++ [r]), by simp [hts], .block hb hls hr, rfl⟩
    · exact reads_ifElse (l :: us)
    · exact reads_forLoop (l :: us)
    · exact reads_whileLoop (l :: us)
    · exact readsStatement_of_closed (reads_doWhile (l :: us))
    · refine readsStatement_of_closed fun s rest h => ?_
      obtain ⟨b, gb, rfl⟩ := gives_map.1 h
      obtain ⟨semi, hts, hb, hsemi⟩ := gives_jump.1 gb
      exact ⟨[b, semi], hts, .breakLoop hb hsemi, rfl⟩
    · refine readsStatement_of_closed fun s rest h => ?_
      obtain ⟨b, gb, rfl⟩ := gives_map.1 h
      obtain ⟨semi, hts, hb, hsemi⟩ := gives_jump.1 gb
      exact ⟨[b, semi], hts, .continueLoop hb hsemi, rfl⟩
    · exact readsStatement_of_closed (reads_returnValue (l :: us))
    · next hl =>
      refine readsStatement_of_closed fun s rest h => ?_
      obtain ⟨rfl, rfl⟩ := h
      exact ⟨[l], rfl, .empty hl, rfl⟩
    · refine readsStatement_of_closed fun s rest h => ?_
      obtain ⟨s, us', hus', gs, h⟩ := gives_andThen.1 h
      obtain ⟨semi, gsemi, rfl⟩ := gives_map.1 h
      obtain ⟨ls, hts, hls⟩ := reads_simpleStatement (l :: us) gs
      obtain ⟨rfl, hsemi⟩ := gives_eat.1 gsemi
      exact ⟨ls ++ [semi], by simp [hts], .simple hls hsemi, rfl⟩
termination_by 4 * ts.length + 1
decreasing_by all_goals simp only [List.length_cons]; omega

theorem reads_block (ts : List Lexeme) {body : List Statement} {l : Lexeme} {rest : List Lexeme}
    (h : (block stop ts).Gives (body, l) rest) :
    ∃ ls r, ts = l :: (ls ++ r :: rest) ∧ l.kind = .symbol .leftBrace ∧ IsStatements ls body ∧
      r.kind = .symbol .rightBrace := by
  unfold block at h
  obtain ⟨l', us, hus, gl, h⟩ := gives_andThen.1 h
  obtain ⟨body', gbody, heq⟩ := gives_map.1 h
  obtain ⟨rfl, hl⟩ := gives_eat.1 gl
  obtain ⟨ls, r, rfl, hls, hr⟩ := reads_statements us gbody
  cases heq
  exact ⟨ls, r, rfl, hl, hls, hr⟩
termination_by 4 * ts.length
decreasing_by all_goals omega

/-- Statements through a closing brace. -/
theorem reads_statements (ts : List Lexeme) : ∀ ⦃body rest⦄, (statements stop ts).Gives body rest →
    ∃ ls r, ts = ls ++ r :: rest ∧ IsStatements ls body ∧ r.kind = .symbol .rightBrace := by
  unfold statements
  cases ts with
  | nil => exact fun body rest h => absurd h not_gives_refuse
  | cons l us =>
    intro body rest h
    dsimp only at h
    split at h
    · next hl =>
      obtain ⟨rfl, rfl⟩ := h
      exact ⟨[], l, rfl, .none, hl⟩
    · obtain ⟨s, us', hus', gs, h⟩ := gives_andThen.1 h
      obtain ⟨body', gbody, rfl⟩ := gives_map.1 h
      obtain ⟨ls, hts, hls, -⟩ := reads_statement (l :: us) gs
      obtain ⟨ls', r, rfl, hls', hr⟩ := reads_statements us' gbody
      exact ⟨ls ++ ls', r, by simp [hts], .more hls hls', hr⟩
termination_by 4 * ts.length + 2
decreasing_by all_goals simp only [List.length_cons] at *; omega

theorem reads_branch (ts : List Lexeme) {c : Expr} {s : Statement} {rest : List Lexeme}
    (h : (branch stop ts).Gives (c, s) rest) :
    ∃ cs ls, ts = cs ++ (ls ++ rest) ∧ IsCondition cs c ∧ IsStatement ls s ∧
      (s.isOpen = true → NoElse rest) := by
  unfold branch at h
  obtain ⟨c', us, hus, gc, h⟩ := gives_andThen.1 h
  obtain ⟨s', gs, heq⟩ := gives_map.1 h
  obtain ⟨cs, rfl, hcs⟩ := reads_condition ts gc
  obtain ⟨ls, rfl, hls, hopen⟩ := reads_statement us gs
  cases heq
  exact ⟨cs, ls, rfl, hcs, hls, hopen⟩
termination_by 4 * ts.length + 2
decreasing_by all_goals omega

theorem reads_ifElse (ts : List Lexeme) : ReadsStatement ts (ifElse stop ts) := by
  unfold ifElse
  intro s rest h
  obtain ⟨l, us, hus, gl, h⟩ := gives_andThen.1 h
  obtain ⟨⟨c, s⟩, us', hus', gs, h⟩ := gives_followedBy.1 h
  obtain ⟨⟨more, otherwise⟩, gmore, rfl⟩ := gives_map.1 h
  obtain ⟨rfl, hl⟩ := gives_eat.1 gl
  obtain ⟨cs, ls, rfl, hcs, hls, hopen⟩ := reads_branch us gs
  obtain ⟨ls', rfl, hmore, hrest⟩ := reads_elseChain us' gmore
  refine ⟨l :: (cs ++ (ls ++ ls')), by simp, ?_, hrest _ l⟩
  exact .ifElse hl hcs hls hmore (isOpen_of_noElse hmore hopen)
termination_by 4 * ts.length
decreasing_by all_goals omega

/-- What is read as an `else` chain leaves no `else` that belongs to the `if`. -/
theorem reads_elseChain (ts : List Lexeme) :
    ∀ ⦃more otherwise rest⦄, (elseChain stop ts).Gives (more, otherwise) rest →
      ∃ ls, ts = ls ++ rest ∧ IsElseChain ls more otherwise ∧
        ∀ branches l, (Statement.ifElse branches otherwise l).isOpen = true → NoElse rest := by
  unfold elseChain
  cases ts with
  | nil =>
    intro more otherwise rest h
    obtain ⟨-, heq, rfl⟩ := gives_atEnd.1 h
    cases heq
    exact ⟨[], rfl, .none, fun _ _ _ _ _ h => by cases h⟩
  | cons e us =>
    intro more otherwise rest h
    dsimp only at h
    split at h
    · next he =>
      have h := gives_ifNext (gives_relax.1 (gives_relax.1 h))
      rcases h with ⟨i, us', hus', rfl, hi, h⟩ | ⟨hif, h⟩
      · obtain ⟨⟨c, s⟩, us'', hus'', gs, h⟩ := gives_followedBy.1 (gives_relax.1 h)
        obtain ⟨⟨more', otherwise'⟩, gmore, heq⟩ := gives_map.1 h
        cases heq
        obtain ⟨cs, ls, rfl, hcs, hls, hopen⟩ := reads_branch us' gs
        obtain ⟨ls', rfl, hmore, hrest⟩ := reads_elseChain us'' gmore
        refine ⟨e :: i :: (cs ++ (ls ++ ls')), by simp, ?_, hrest⟩
        exact .elseIf he hi hcs hls hmore (isOpen_of_noElse hmore hopen)
      · obtain ⟨s, gs, heq⟩ := gives_map.1 h
        cases heq
        obtain ⟨ls, hus, hls, hopen⟩ := reads_statement us gs
        exact ⟨e :: ls, by simp [hus], .last he hls (isIf_of_kind_ne hls hus hif),
          fun _ _ => hopen⟩
    · next he =>
      obtain ⟨heq, rfl⟩ := h
      cases heq
      exact ⟨[], rfl, .none, fun _ _ _ => noElse_of_kind_ne he⟩
termination_by 4 * ts.length + 3
decreasing_by all_goals simp only [List.length_cons] at *; omega

theorem reads_forLoop (ts : List Lexeme) : ReadsStatement ts (forLoop stop ts) := by
  unfold forLoop
  intro s rest h
  obtain ⟨l, us, hus, gl, h⟩ := gives_andThen.1 h
  obtain ⟨p, us₁, hus₁, gp, h⟩ := gives_andThen.1 h
  obtain ⟨first, us₂, hus₂, gfirst, h⟩ := gives_andThen.1 h
  obtain ⟨c, us₃, hus₃, gc, h⟩ := gives_andThen.1 h
  obtain ⟨semi', us₄, hus₄, gsemi', h⟩ := gives_andThen.1 h
  obtain ⟨step, us₅, hus₅, gstep, h⟩ := gives_andThen.1 h
  obtain ⟨body, gbody, rfl⟩ := gives_map.1 h
  obtain ⟨rfl, hl⟩ := gives_eat.1 gl
  obtain ⟨rfl, hp⟩ := gives_eat.1 gp
  obtain ⟨fs, semi, rfl, hfirst, hsemi⟩ := reads_optionalSimple gfirst
  obtain ⟨cs, rfl, hc⟩ := reads_expression us₂ gc
  obtain ⟨rfl, hsemi'⟩ := gives_eat.1 gsemi'
  obtain ⟨ss, r, rfl, hstep, hr⟩ := reads_optionalSimple gstep
  obtain ⟨ls, rfl, hls, hopen⟩ := reads_statement us₅ gbody
  exact ⟨l :: p :: (fs ++ semi :: (cs ++ semi' :: (ss ++ r :: ls))), by simp,
    .forLoop hl hp hfirst hsemi hc hsemi' hstep hr hls, hopen⟩
termination_by 4 * ts.length
decreasing_by all_goals omega

theorem reads_whileLoop (ts : List Lexeme) : ReadsStatement ts (whileLoop stop ts) := by
  unfold whileLoop
  intro s rest h
  obtain ⟨l, us, hus, gl, h⟩ := gives_andThen.1 h
  obtain ⟨⟨c, body⟩, gbody, rfl⟩ := gives_map.1 h
  obtain ⟨rfl, hl⟩ := gives_eat.1 gl
  obtain ⟨cs, ls, rfl, hcs, hls, hopen⟩ := reads_branch us gbody
  exact ⟨l :: (cs ++ ls), by simp, .whileLoop hl hcs hls, hopen⟩
termination_by 4 * ts.length
decreasing_by all_goals omega

theorem reads_doWhile (ts : List Lexeme) :
    (doWhile stop ts).Reads (fun ls s => IsStatement ls s ∧ s.isOpen = false) ts := by
  unfold doWhile
  intro s rest h
  obtain ⟨l, us, hus, gl, h⟩ := gives_andThen.1 h
  obtain ⟨body, us₁, hus₁, gbody, h⟩ := gives_andThen.1 h
  obtain ⟨w, us₂, hus₂, gw, h⟩ := gives_andThen.1 h
  obtain ⟨c, us₃, hus₃, gc, h⟩ := gives_andThen.1 h
  obtain ⟨semi, gsemi, rfl⟩ := gives_map.1 h
  obtain ⟨rfl, hl⟩ := gives_eat.1 gl
  obtain ⟨ls, rfl, hls, -⟩ := reads_statement us gbody
  obtain ⟨rfl, hw⟩ := gives_eat.1 gw
  obtain ⟨cs, rfl, hcs⟩ := reads_condition us₂ gc
  obtain ⟨rfl, hsemi⟩ := gives_eat.1 gsemi
  exact ⟨l :: (ls ++ w :: (cs ++ [semi])), by simp, .doWhile hl hls hw hcs hsemi, rfl⟩
termination_by 4 * ts.length
decreasing_by all_goals omega

end

/-! ## Programs -/

theorem reads_parameter (ts : List Lexeme) : (parameter stop ts).Reads IsParameter ts := by
  intro x rest h
  obtain ⟨type, us, hus, gtype, h⟩ := gives_andThen.1 h
  obtain ⟨p, gp, rfl⟩ := gives_map.1 h
  obtain ⟨t, rfl, ht, hvoid⟩ := gives_valueType.1 gtype
  obtain ⟨ls, rfl, hls⟩ := reads_place us gp
  exact ⟨t :: ls, rfl, .mk ht hvoid hls⟩

theorem reads_function (ts : List Lexeme) : (function stop ts).Reads IsFunction ts := by
  intro f rest h
  obtain ⟨returns, us, hus, greturns, h⟩ := gives_andThen.1 h
  obtain ⟨p, us₁, hus₁, gp, h⟩ := gives_andThen.1 h
  obtain ⟨l, us₂, hus₂, gl, h⟩ := gives_andThen.1 h
  obtain ⟨parameters, us₃, hus₃, gparameters, h⟩ := gives_andThen.1 h
  obtain ⟨⟨body, b⟩, gbody, rfl⟩ := gives_map.1 h
  obtain ⟨t, rfl, ht⟩ := gives_returnType.1 greturns
  obtain ⟨ls, rfl, hls⟩ := reads_place us gp
  obtain ⟨rfl, hl⟩ := gives_eat.1 gl
  obtain ⟨ps, r, rfl, hps, hr⟩ := reads_commaSeparated (fun us _ => reads_parameter us) gparameters
  obtain ⟨bs, e, rfl, hb, hbs, he⟩ := reads_block us₃ gbody
  exact ⟨t :: (ls ++ l :: (ps ++ r :: b :: (bs ++ [e]))), by simp,
    .mk ht hls hl hps hr hb hbs he⟩

theorem reads_global (ts : List Lexeme) : (global stop ts).Reads IsGlobal ts := by
  intro d rest h
  obtain ⟨d, us, hus, gd, h⟩ := gives_andThen.1 h
  obtain ⟨semi, gsemi, rfl⟩ := gives_map.1 h
  obtain ⟨ls, rfl, hls⟩ := reads_declaration ts gd
  obtain ⟨rfl, hsemi⟩ := gives_eat.1 gsemi
  exact ⟨ls ++ [semi], by simp, .mk hls hsemi⟩

theorem reads_item (ts : List Lexeme) : (item stop ts).Reads IsItem ts := by
  intro i rest h
  unfold item at h
  split at h
  · exact absurd h not_gives_error
  · split at h
    · obtain ⟨f, gf, rfl⟩ := gives_map.1 h
      obtain ⟨ls, hts, hls⟩ := reads_function ts gf
      exact ⟨ls, hts, .function hls⟩
    · obtain ⟨d, gd, rfl⟩ := gives_map.1 h
      obtain ⟨ls, hts, hls⟩ := reads_global ts gd
      exact ⟨ls, hts, .global hls⟩

/-- Items are read up to the end of input. -/
theorem reads_items (ts : List Lexeme) : ∀ ⦃is rest⦄, (items stop ts).Gives is rest →
    (∃ last, stop = .ok last) ∧ IsItems ts is := by
  unfold items
  cases ts with
  | nil =>
    intro is rest h
    obtain ⟨hstop, rfl, rfl⟩ := gives_atEnd.1 h
    exact ⟨hstop, .none⟩
  | cons l us =>
    intro is rest h
    obtain ⟨i, us', hus', gi, h⟩ := gives_followedBy.1 (gives_relax.1 h)
    obtain ⟨is', gis, rfl⟩ := gives_map.1 h
    obtain ⟨ls, hts, hls⟩ := reads_item (l :: us) gi
    obtain ⟨hstop, his⟩ := reads_items us' gis
    exact ⟨hstop, hts ▸ .more hls his⟩
termination_by ts.length
decreasing_by assumption

end Parse

end MiniC
