import MiniC.Proofs.Lexeme.Delivered
import MiniC.Proofs.Syntax.Lexemes

/-!
# Parsing cites the source

What a parser yields keeps lexemes that were read, a lexeme that it finds unexpected is the one in
front of what it leaves, or the end of input, and a lexical error is the one that ended the lexemes.
`p.Cites stop src ts P` says so of a result of parsing `ts`: if all of `ts` is in `src`, then `P`
holds of the value.  It goes through the combinators, and the parsers are followed in their own
recursion.  Main statements: `Program.ofSource_lexemes`, `Program.ofSource_lexical` and
`Program.ofSource_unexpected`.
-/

namespace MiniC

/-- All lexemes of a tree are in `src`. -/
abbrev LexemesIn {α : Type} (lexemes : α → List Lexeme) (src : Lexeme → Prop) (x : α) : Prop :=
  ∀ l ∈ lexemes x, src l

namespace Parsed

variable {α β : Type} {m n : Nat} {stop : Stop} {src : Lexeme → Prop} {ts us : List Lexeme}
  {P : α → Prop} {Q : β → Prop}

/-- A result of parsing `ts` leaves an end of it.  A value satisfies `P`, if all of `ts` is in
`src`, an unexpected lexeme stands in front of what is left, or is the end of input, and a lexical
error is the one that stands after `ts`. -/
def Cites (stop : Stop) (src : Lexeme → Prop) (ts : List Lexeme) (P : α → Prop)
    (p : Parsed n α) : Prop :=
  (∀ l ∈ ts, src l) →
    match p with
    | .ok value rest _ => rest <:+ ts ∧ P value
    | .error (.unexpected l _) rest => l :: rest <:+ ts ∨ stop = .ok l ∧ rest = []
    | .error (.lexical e) _ => stop = .error e

theorem cites_lexical {e : LexicalError} (h : stop = .error e) (rest : List Lexeme) :
    (error (.lexical e) rest : Parsed n α).Cites stop src ts P := fun _ => h

theorem cites_unexpected (l : Lexeme) (expected : Expected) (rest : List Lexeme) :
    (error (.unexpected l expected) rest : Parsed n α).Cites stop src (l :: rest) P :=
  fun _ => Or.inl (List.suffix_refl _)

theorem cites_leaving {value : α} {rest : List Lexeme} (hrest : rest <:+ ts)
    (h : (∀ l ∈ ts, src l) → P value) : (leaving value rest).Cites stop src ts P :=
  fun hts => ⟨hrest, h hts⟩

theorem Cites.relax {p : Parsed n α} (h : p.Cites stop src ts P) :
    p.relax.Cites stop src ts P := by
  cases p with
  | ok value rest shorter => exact h
  | error e rest => cases e <;> exact h

/-- What is cited from an end of a text is cited from the text. -/
theorem Cites.of_suffix {p : Parsed n α} (h : p.Cites stop src us P) (hus : us <:+ ts) :
    p.Cites stop src ts P := by
  intro hts
  have hcites := h fun l hl => hts l (hus.subset hl)
  cases p with
  | ok value rest shorter => exact ⟨hcites.1.trans hus, hcites.2⟩
  | error e rest =>
    cases e with
    | lexical e => exact hcites
    | unexpected l expected => exact hcites.imp_left fun hrest => hrest.trans hus

/-- Behind a lexeme that was read. -/
theorem cites_behind {p : Parsed n α} {l : Lexeme} (h : src l → p.Cites stop src ts P) :
    p.Cites stop src (l :: ts) P :=
  fun hts => (h (hts l List.mem_cons_self)).of_suffix (List.suffix_cons l ts) hts

theorem Cites.map {p : Parsed n α} {f : α → β} (h : p.Cites stop src ts P)
    (hf : ∀ value, P value → Q (f value)) : (p.map f).Cites stop src ts Q := by
  intro hts
  have hcites := h hts
  cases p with
  | ok value rest shorter => exact ⟨hcites.1, hf value hcites.2⟩
  | error e rest => cases e <;> exact hcites

theorem Cites.mono {p : Parsed n α} {Q : α → Prop} (h : p.Cites stop src ts P)
    (hPQ : ∀ value, P value → Q value) : p.Cites stop src ts Q := by
  intro hts
  have hcites := h hts
  cases p with
  | ok value rest shorter => exact hcites.imp_right (hPQ value)
  | error e rest => cases e <;> exact hcites

theorem Cites.followedBy {p : Parsed n α}
    {next : α → (rest : List Lexeme) → rest.length < n → Parsed (rest.length + 1) β}
    (h : p.Cites stop src ts P)
    (hnext : ∀ value rest shorter, P value → (next value rest shorter).Cites stop src rest Q) :
    (p.followedBy next).Cites stop src ts Q := by
  intro hts
  have hcites := h hts
  cases p with
  | error e rest => cases e <;> exact hcites
  | ok value rest shorter =>
    have hvalue := (hnext value rest shorter hcites.2).of_suffix hcites.1 hts
    unfold Parsed.followedBy
    dsimp only
    generalize next value rest shorter = q at hvalue
    cases q with
    | ok value' left noLonger => exact hvalue
    | error e left => cases e <;> exact hvalue

theorem Cites.andThen {p : Parsed n α}
    {next : α → (rest : List Lexeme) → rest.length < n → Parsed rest.length β}
    (h : p.Cites stop src ts P)
    (hnext : ∀ value rest shorter, P value → (next value rest shorter).Cites stop src rest Q) :
    (p.andThen next).Cites stop src ts Q :=
  h.followedBy fun value rest shorter hvalue => (hnext value rest shorter hvalue).relax

end Parsed

namespace Parse

open Parsed

variable {α : Type} {stop : Stop} {src : Lexeme → Prop} {P : α → Prop}

/-! ## Small parsers -/

theorem cites_refuse {n : Nat} (expected : Expected) :
    (refuse stop expected : Parsed n α).Cites stop src [] P := by
  cases stop with
  | error e => exact cites_lexical rfl []
  | ok last => exact fun _ => Or.inr ⟨rfl, rfl⟩

theorem stop_of_currentKind {ts : List Lexeme} {e : LexicalError}
    (h : currentKind stop ts = .error e) : stop = .error e := by
  cases ts with
  | cons l rest => cases h
  | nil =>
    cases stop with
    | ok last => cases h
    | error e' =>
      cases h
      rfl

theorem cites_atEnd {n : Nat} {next : Parsed n α} (h : next.Cites stop src [] P) :
    (atEnd stop next).Cites stop src [] P := by
  cases stop with
  | error e => exact cites_lexical rfl []
  | ok last => exact h

theorem cites_ifNext (k : TokenKind) (ts : List Lexeme)
    {yes : (rest : List Lexeme) → rest.length < ts.length → Parsed (rest.length + 1) α}
    {no : Unit → Parsed ts.length α}
    (hyes : ∀ rest shorter, (yes rest shorter).Cites stop src rest P)
    (hno : (no ()).Cites stop src ts P) : (ifNext stop k ts yes no).Cites stop src ts P := by
  cases ts with
  | nil =>
    cases stop with
    | error e => exact cites_lexical rfl []
    | ok last => exact hno
  | cons l rest =>
    unfold ifNext
    dsimp only
    split
    · exact (hyes rest _).of_suffix (List.suffix_cons l rest)
    · exact hno

theorem cites_optionalAfter (k : TokenKind) (ts : List Lexeme)
    {following : (rest : List Lexeme) → Parsed rest.length α}
    (h : ∀ rest, (following rest).Cites stop src rest P) :
    (optionalAfter stop k ts following).Cites stop src ts fun o => ∀ x ∈ o, P x := by
  have hnone : ∀ x ∈ (none : Option α), P x := fun x hx => by cases hx
  cases ts with
  | nil => exact cites_atEnd (cites_leaving (List.suffix_refl _) fun _ => hnone)
  | cons l rest =>
    unfold optionalAfter
    dsimp only
    split
    · refine Cites.relax (Cites.relax (Cites.of_suffix ?_ (List.suffix_cons l rest)))
      refine (h rest).map fun x hx y hy => ?_
      cases hy
      exact hx
    · exact cites_leaving (List.suffix_refl _) fun _ => hnone

theorem cites_eat (k : TokenKind) (ts : List Lexeme) :
    (eat stop k ts).Cites stop src ts src := by
  cases ts with
  | nil => exact cites_refuse _
  | cons l rest =>
    unfold eat
    dsimp only
    split
    · exact cites_leaving (List.suffix_cons l rest) fun hts => hts l List.mem_cons_self
    · exact cites_unexpected l _ rest

theorem cites_identifier (ts : List Lexeme) :
    (identifier stop ts).Cites stop src ts fun name => src name.2 := by
  cases ts with
  | nil => exact cites_refuse _
  | cons l rest =>
    unfold identifier
    dsimp only
    split
    · exact cites_leaving (List.suffix_cons l rest) fun hts => hts l List.mem_cons_self
    · exact cites_unexpected l _ rest

theorem cites_valueType (ts : List Lexeme) :
    (valueType stop ts).Cites stop src ts fun _ => True := by
  cases ts with
  | nil => exact cites_refuse _
  | cons l rest =>
    unfold valueType
    dsimp only
    split
    · split
      · exact cites_unexpected l _ rest
      · exact cites_leaving (List.suffix_cons l rest) fun _ => trivial
    · exact cites_unexpected l _ rest

theorem cites_returnType (ts : List Lexeme) :
    (returnType stop ts).Cites stop src ts fun _ => True := by
  cases ts with
  | nil => exact cites_refuse _
  | cons l rest =>
    unfold returnType
    dsimp only
    split
    · exact cites_leaving (List.suffix_cons l rest) fun _ => trivial
    · exact cites_unexpected l _ rest

theorem cites_assignOp (ts : List Lexeme) :
    (assignOp stop ts).Cites stop src ts fun op => src op.2 := by
  cases ts with
  | nil => exact cites_refuse _
  | cons l rest =>
    unfold assignOp
    dsimp only
    split
    · exact cites_leaving (List.suffix_cons l rest) fun hts => hts l List.mem_cons_self
    · exact cites_unexpected l _ rest

theorem cites_itemsFrom (closing : Symbol) (ts : List Lexeme)
    {item : (us : List Lexeme) → us.length ≤ ts.length → Parsed us.length α}
    (hitem : ∀ us h, (item us h).Cites stop src us P) :
    (itemsFrom stop closing ts item).Cites stop src ts fun xs => ∀ x ∈ xs, P x := by
  rw [itemsFrom]
  refine (hitem ts _).andThen fun value left hleft hvalue => ?_
  cases left with
  | nil => exact cites_refuse _
  | cons l rest =>
    have hshorter : rest.length < ts.length := Nat.lt_of_succ_lt hleft
    dsimp only
    split
    · refine Cites.relax (Cites.of_suffix ?_ (List.suffix_cons l rest))
      refine (cites_itemsFrom closing rest fun us h => hitem us _).map fun xs hxs => ?_
      exact List.forall_mem_cons.2 ⟨hvalue, hxs⟩
    · split
      · exact cites_leaving (List.suffix_cons l rest) fun _ => List.forall_mem_singleton.2 hvalue
      · exact cites_unexpected l _ rest
termination_by ts.length
decreasing_by exact hshorter

theorem cites_commaSeparated (closing : Symbol) (ts : List Lexeme)
    {item : (us : List Lexeme) → us.length ≤ ts.length → Parsed us.length α}
    (hitem : ∀ us h, (item us h).Cites stop src us P) :
    (commaSeparated stop closing ts item).Cites stop src ts fun xs => ∀ x ∈ xs, P x :=
  cites_ifNext _ ts
    (fun rest _ => cites_leaving (List.suffix_refl rest) fun _ => List.forall_mem_nil _)
    (cites_itemsFrom closing ts hitem)

/-! ## Expressions -/

theorem cites_all_expressions {closing : Symbol} (ts : List Lexeme)
    (hitem : ∀ us, us.length ≤ ts.length →
      (binary stop .logical us).Cites stop src us (LexemesIn Expr.lexemes src)) :
    (commaSeparated stop closing ts fun us _ => binary stop .logical us).Cites stop src ts
      (LexemesIn Expr.lexemesAll src) := by
  refine (cites_commaSeparated closing ts hitem).mono fun xs hxs l hl => ?_
  rw [Expr.lexemesAll_eq] at hl
  obtain ⟨x, hx, hl⟩ := List.mem_flatMap.1 hl
  exact hxs x hx l hl

mutual

theorem cites_binary (level : Level) (ts : List Lexeme) :
    (binary stop level ts).Cites stop src ts (LexemesIn Expr.lexemes src) := by
  unfold binary
  refine (cites_operand level ts).followedBy fun left rest hn hleft => ?_
  exact cites_operators level left rest hleft
termination_by 16 * ts.length + (2 * level.looseness + 4)
decreasing_by all_goals omega

theorem cites_operand (level : Level) (ts : List Lexeme) :
    (operand stop level ts).Cites stop src ts (LexemesIn Expr.lexemes src) := by
  unfold operand
  cases level with
  | multiplicative => exact cites_unary ts
  | additive => exact cites_binary .multiplicative ts
  | relational => exact cites_binary .additive ts
  | bitwise => exact cites_binary .relational ts
  | logical => exact cites_binary .bitwise ts
termination_by 16 * ts.length + (2 * level.looseness + 3)
decreasing_by all_goals (try simp only [Level.looseness]); omega

theorem cites_operators (level : Level) (left : Expr) (ts : List Lexeme)
    (hleft : LexemesIn Expr.lexemes src left) :
    (operators stop level left ts).Cites stop src ts (LexemesIn Expr.lexemes src) := by
  unfold operators
  cases ts with
  | nil => exact cites_atEnd (cites_leaving (List.suffix_refl _) fun _ => hleft)
  | cons l rest =>
    have hstop : (leaving left (l :: rest)).Cites stop src (l :: rest)
        (LexemesIn Expr.lexemes src) :=
      cites_leaving (List.suffix_refl _) fun _ => hleft
    dsimp only
    split
    · exact hstop
    · split
      · refine Cites.relax (Cites.relax (cites_behind fun hl => ?_))
        refine (cites_operand level rest).followedBy fun right rest' hn hright => ?_
        refine cites_operators level _ rest' ?_
        exact List.forall_mem_cons.2 ⟨hl, List.forall_mem_append.2 ⟨hleft, hright⟩⟩
      · exact hstop
termination_by 16 * ts.length + 13
decreasing_by
  all_goals (try simp only [List.length_cons] at *)
  · cases level <;> simp only [Level.looseness] <;> omega
  · omega

theorem cites_unary (ts : List Lexeme) :
    (unary stop ts).Cites stop src ts (LexemesIn Expr.lexemes src) := by
  unfold unary
  cases ts with
  | nil => exact cites_refuse _
  | cons l rest =>
    dsimp only
    split
    · refine Cites.relax (cites_behind fun hl => ?_)
      exact (cites_unary rest).map fun x hx => List.forall_mem_cons.2 ⟨hl, hx⟩
    · exact cites_primary (l :: rest)
termination_by 16 * ts.length + 2
decreasing_by all_goals simp only [List.length_cons]; omega

theorem cites_primary (ts : List Lexeme) :
    (primary stop ts).Cites stop src ts (LexemesIn Expr.lexemes src) := by
  unfold primary
  cases ts with
  | nil => exact cites_refuse _
  | cons l rest =>
    dsimp only
    split
    · refine cites_leaving (List.suffix_cons l rest) fun hts => ?_
      exact List.forall_mem_singleton.2 (hts l List.mem_cons_self)
    · split
      · split
        · next h => exact cites_lexical (stop_of_currentKind h) _
        · split
          · exact cites_cast (l :: rest)
          · exact cites_parenthesized (l :: rest)
      · exact cites_list (l :: rest)
      · split
        · next h => exact cites_lexical (stop_of_currentKind h) _
        · split
          · exact (cites_call (l :: rest)).map fun _ h => h
          · exact (cites_place (l :: rest)).map fun _ h => h
      · exact cites_unexpected l _ rest
termination_by 16 * ts.length + 1
decreasing_by all_goals simp only [List.length_cons]; omega

theorem cites_cast (ts : List Lexeme) :
    (cast stop ts).Cites stop src ts (LexemesIn Expr.lexemes src) := by
  unfold cast
  refine (cites_eat _ ts).andThen fun l rest hn hl => ?_
  refine (cites_valueType rest).andThen fun type rest' hn' _ => ?_
  refine (cites_eat _ rest').andThen fun r rest'' hn'' _ => ?_
  exact (cites_unary rest'').map fun x hx => List.forall_mem_cons.2 ⟨hl, hx⟩
termination_by 16 * ts.length
decreasing_by all_goals omega

theorem cites_parenthesized (ts : List Lexeme) :
    (parenthesized stop ts).Cites stop src ts (LexemesIn Expr.lexemes src) := by
  unfold parenthesized
  refine (cites_eat _ ts).andThen fun l rest hn _ => ?_
  refine (cites_binary .logical rest).andThen fun inner rest' hn' hinner => ?_
  exact (cites_eat _ rest').map fun _ _ => hinner
termination_by 16 * ts.length
decreasing_by all_goals (try simp only [Level.looseness]); omega

theorem cites_list (ts : List Lexeme) :
    (list stop ts).Cites stop src ts (LexemesIn Expr.lexemes src) := by
  unfold list
  refine (cites_eat _ ts).andThen fun l rest hn hl => ?_
  refine (cites_all_expressions rest fun us hus => ?_).map fun xs hxs => ?_
  · exact cites_binary .logical us
  · exact List.forall_mem_cons.2 ⟨hl, hxs⟩
termination_by 16 * ts.length
decreasing_by all_goals (try simp only [Level.looseness]); omega

theorem cites_call (ts : List Lexeme) :
    (call stop ts).Cites stop src ts (LexemesIn Call.lexemes src) := by
  unfold call
  refine (cites_identifier ts).andThen fun name rest hn hname => ?_
  refine (cites_eat _ rest).andThen fun l rest' hn' _ => ?_
  refine (cites_all_expressions rest' fun us hus => ?_).map fun xs hxs => ?_
  · exact cites_binary .logical us
  · exact List.forall_mem_cons.2 ⟨hname, hxs⟩
termination_by 16 * ts.length
decreasing_by all_goals (try simp only [Level.looseness]); omega

theorem cites_place (ts : List Lexeme) :
    (place stop ts).Cites stop src ts (LexemesIn Place.lexemes src) := by
  unfold place
  refine (cites_identifier ts).followedBy fun name rest hn hname => ?_
  exact (cites_indices rest).map fun is his => List.forall_mem_cons.2 ⟨hname, his⟩
termination_by 16 * ts.length
decreasing_by all_goals omega

theorem cites_indices (ts : List Lexeme) :
    (indices stop ts).Cites stop src ts (LexemesIn Expr.lexemesIndices src) := by
  unfold indices
  cases ts with
  | nil => exact cites_atEnd (cites_leaving (List.suffix_refl _) fun _ => List.forall_mem_nil _)
  | cons l rest =>
    dsimp only
    split
    · refine Cites.relax (Cites.relax (Cites.of_suffix ?_ (List.suffix_cons l rest)))
      refine (cites_index rest).followedBy fun i rest' hn hi => ?_
      refine (cites_indices rest').map fun is his => ?_
      cases i with
      | none => exact his
      | some e => exact List.forall_mem_append.2 ⟨hi, his⟩
    · exact cites_leaving (List.suffix_refl _) fun _ => List.forall_mem_nil _
termination_by 16 * ts.length + 13
decreasing_by all_goals simp only [List.length_cons] at *; omega

theorem cites_index (ts : List Lexeme) :
    (index stop ts).Cites stop src ts (LexemesIn Expr.lexemesOption src) := by
  unfold index
  refine cites_ifNext _ ts (fun rest _ => ?_) ?_
  · exact cites_leaving (List.suffix_refl _) fun _ => List.forall_mem_nil _
  · refine (cites_binary .logical ts).andThen fun i rest hn hi => ?_
    exact (cites_eat _ rest).map fun _ _ => hi
termination_by 16 * ts.length + 13
decreasing_by all_goals (try simp only [Level.looseness]); omega

end

theorem cites_expression (ts : List Lexeme) :
    (expression stop ts).Cites stop src ts (LexemesIn Expr.lexemes src) :=
  cites_binary .logical ts

/-! ## Simple statements -/

theorem cites_declaration (ts : List Lexeme) :
    (declaration stop ts).Cites stop src ts (LexemesIn Declaration.lexemes src) := by
  unfold declaration
  refine (cites_valueType ts).andThen fun type rest _ _ => ?_
  refine (cites_place rest).followedBy fun target rest' _ htarget => ?_
  refine (cites_optionalAfter _ rest' cites_expression).map fun initial hinitial => ?_
  refine List.forall_mem_append.2 ⟨htarget, ?_⟩
  cases initial with
  | none => exact List.forall_mem_nil _
  | some e => exact hinitial e rfl

theorem cites_assignment (ts : List Lexeme) :
    (assignment stop ts).Cites stop src ts (LexemesIn SimpleStatement.lexemes src) := by
  unfold assignment
  refine (cites_place ts).andThen fun target rest _ htarget => ?_
  refine (cites_assignOp rest).andThen fun op rest' _ hop => ?_
  refine (cites_expression rest').map fun value hvalue => ?_
  exact List.forall_mem_cons.2 ⟨hop, List.forall_mem_append.2 ⟨htarget, hvalue⟩⟩

theorem cites_simpleStatement (ts : List Lexeme) :
    (simpleStatement stop ts).Cites stop src ts (LexemesIn SimpleStatement.lexemes src) := by
  unfold simpleStatement
  cases ts with
  | nil => exact cites_refuse _
  | cons l rest =>
    dsimp only
    split
    · split
      · next h => exact cites_lexical (stop_of_currentKind h) _
      · split
        · exact (cites_call (l :: rest)).map fun _ h => h
        · exact cites_assignment (l :: rest)
    · split
      · exact (cites_declaration (l :: rest)).map fun _ h => h
      · exact cites_unexpected l _ rest

theorem cites_optionalSimple (closing : Symbol) (ts : List Lexeme) :
    (optionalSimple stop closing ts).Cites stop src ts
      (LexemesIn SimpleStatement.lexemesOption src) := by
  unfold optionalSimple
  refine cites_ifNext _ ts (fun rest _ => ?_) ?_
  · exact cites_leaving (List.suffix_refl _) fun _ => List.forall_mem_nil _
  · refine (cites_simpleStatement ts).andThen fun s rest _ hs => ?_
    exact (cites_eat _ rest).map fun _ _ => hs

theorem cites_condition (ts : List Lexeme) :
    (condition stop ts).Cites stop src ts (LexemesIn Expr.lexemes src) :=
  cites_parenthesized ts

theorem cites_jump (k : Keyword) (ts : List Lexeme) : (jump stop k ts).Cites stop src ts src := by
  unfold jump
  refine (cites_eat _ ts).andThen fun l rest _ hl => ?_
  exact (cites_eat _ rest).map fun _ _ => hl

theorem cites_returnValue (ts : List Lexeme) :
    (returnValue stop ts).Cites stop src ts (LexemesIn Statement.lexemes src) := by
  unfold returnValue
  refine (cites_eat _ ts).andThen fun l rest _ hl => ?_
  refine (cites_ifNext _ rest (fun rest' _ => ?_) ?_)
  · exact cites_leaving (List.suffix_refl _) fun _ => List.forall_mem_singleton.2 hl
  · refine (cites_expression rest).andThen fun x rest' _ hx => ?_
    exact (cites_eat _ rest').map fun _ _ => List.forall_mem_cons.2 ⟨hl, hx⟩

/-! ## Statements -/

mutual

theorem cites_statement (ts : List Lexeme) :
    (statement stop ts).Cites stop src ts (LexemesIn Statement.lexemes src) := by
  unfold statement
  cases ts with
  | nil => exact cites_refuse _
  | cons l rest =>
    dsimp only
    split
    · exact (cites_block (l :: rest)).map fun _ h => List.forall_mem_cons.2 h
    · exact cites_ifElse (l :: rest)
    · exact cites_forLoop (l :: rest)
    · exact cites_whileLoop (l :: rest)
    · exact cites_doWhile (l :: rest)
    · exact (cites_jump .break (l :: rest)).map fun _ h => List.forall_mem_singleton.2 h
    · exact (cites_jump .continue (l :: rest)).map fun _ h => List.forall_mem_singleton.2 h
    · exact cites_returnValue (l :: rest)
    · exact cites_leaving (List.suffix_cons l rest) fun _ => List.forall_mem_nil _
    · refine Cites.andThen (cites_simpleStatement (l :: rest)) fun s rest' _ hs => ?_
      exact (cites_eat _ rest').map fun _ _ => hs
termination_by 4 * ts.length + 1
decreasing_by all_goals simp only [List.length_cons]; omega

theorem cites_block (ts : List Lexeme) :
    (block stop ts).Cites stop src ts fun b =>
      src b.2 ∧ LexemesIn Statement.lexemesAll src b.1 := by
  unfold block
  refine (cites_eat _ ts).andThen fun l rest hn hl => ?_
  exact (cites_statements rest).map fun _ h => ⟨hl, h⟩
termination_by 4 * ts.length
decreasing_by all_goals omega

theorem cites_statements (ts : List Lexeme) :
    (statements stop ts).Cites stop src ts (LexemesIn Statement.lexemesAll src) := by
  unfold statements
  cases ts with
  | nil => exact cites_refuse _
  | cons l rest =>
    dsimp only
    split
    · exact cites_leaving (List.suffix_cons l rest) fun _ => List.forall_mem_nil _
    · refine Cites.andThen (cites_statement (l :: rest)) fun s rest' hn hs => ?_
      exact (cites_statements rest').map fun _ h => List.forall_mem_append.2 ⟨hs, h⟩
termination_by 4 * ts.length + 2
decreasing_by all_goals simp only [List.length_cons] at *; omega

theorem cites_branch (ts : List Lexeme) :
    (branch stop ts).Cites stop src ts fun b =>
      ∀ l ∈ b.1.lexemes ++ b.2.lexemes, src l := by
  unfold branch
  refine (cites_condition ts).andThen fun c rest hn hc => ?_
  exact (cites_statement rest).map fun _ h => List.forall_mem_append.2 ⟨hc, h⟩
termination_by 4 * ts.length + 2
decreasing_by all_goals omega

theorem cites_ifElse (ts : List Lexeme) :
    (ifElse stop ts).Cites stop src ts (LexemesIn Statement.lexemes src) := by
  unfold ifElse
  refine (cites_eat _ ts).andThen fun l rest hn hl => ?_
  refine (cites_branch rest).followedBy fun first rest' hn' hfirst => ?_
  refine (cites_elseChain rest').map fun chain hchain => ?_
  obtain ⟨hmore, hotherwise⟩ := List.forall_mem_append.1 hchain
  refine List.forall_mem_cons.2 ⟨hl, List.forall_mem_append.2 ⟨?_, hotherwise⟩⟩
  exact List.forall_mem_append.2 ⟨hfirst, hmore⟩
termination_by 4 * ts.length
decreasing_by all_goals omega

theorem cites_elseChain (ts : List Lexeme) :
    (elseChain stop ts).Cites stop src ts fun chain =>
      ∀ l ∈ Statement.lexemesBranches chain.1 ++ Statement.lexemesOtherwise chain.2, src l := by
  unfold elseChain
  cases ts with
  | nil => exact cites_atEnd (cites_leaving (List.suffix_refl _) fun _ => List.forall_mem_nil _)
  | cons l rest =>
    dsimp only
    split
    · refine Cites.relax (Cites.relax (Cites.of_suffix ?_ (List.suffix_cons l rest)))
      refine cites_ifNext _ rest (fun rest' hn => ?_) ?_
      · refine Cites.relax ((cites_branch rest').followedBy fun b rest'' hn' hb => ?_)
        refine (cites_elseChain rest'').map fun chain hchain => ?_
        obtain ⟨hmore, hotherwise⟩ := List.forall_mem_append.1 hchain
        exact List.forall_mem_append.2 ⟨List.forall_mem_append.2 ⟨hb, hmore⟩, hotherwise⟩
      · exact (cites_statement rest).map fun _ h => h
    · exact cites_leaving (List.suffix_refl _) fun _ => List.forall_mem_nil _
termination_by 4 * ts.length + 3
decreasing_by all_goals simp only [List.length_cons] at *; omega

theorem cites_forLoop (ts : List Lexeme) :
    (forLoop stop ts).Cites stop src ts (LexemesIn Statement.lexemes src) := by
  unfold forLoop
  refine (cites_eat _ ts).andThen fun l us hus hl => ?_
  refine (cites_eat _ us).andThen fun p us₁ hus₁ _ => ?_
  refine (cites_optionalSimple .semicolon us₁).andThen fun first us₂ hus₂ hfirst => ?_
  refine (cites_expression us₂).andThen fun c us₃ hus₃ hc => ?_
  refine (cites_eat _ us₃).andThen fun semi us₄ hus₄ _ => ?_
  refine (cites_optionalSimple .rightParen us₄).andThen fun step us₅ hus₅ hstep => ?_
  refine (cites_statement us₅).map fun body hbody => ?_
  refine List.forall_mem_cons.2 ⟨hl, List.forall_mem_append.2 ⟨?_, hbody⟩⟩
  exact List.forall_mem_append.2 ⟨List.forall_mem_append.2 ⟨hfirst, hc⟩, hstep⟩
termination_by 4 * ts.length
decreasing_by all_goals omega

theorem cites_whileLoop (ts : List Lexeme) :
    (whileLoop stop ts).Cites stop src ts (LexemesIn Statement.lexemes src) := by
  unfold whileLoop
  refine (cites_eat _ ts).andThen fun l rest hn hl => ?_
  exact (cites_branch rest).map fun _ h => List.forall_mem_cons.2 ⟨hl, h⟩
termination_by 4 * ts.length
decreasing_by all_goals omega

theorem cites_doWhile (ts : List Lexeme) :
    (doWhile stop ts).Cites stop src ts (LexemesIn Statement.lexemes src) := by
  unfold doWhile
  refine (cites_eat _ ts).andThen fun l us hus hl => ?_
  refine (cites_statement us).andThen fun body us₁ hus₁ hbody => ?_
  refine (cites_eat _ us₁).andThen fun w us₂ hus₂ _ => ?_
  refine (cites_condition us₂).andThen fun c us₃ hus₃ hc => ?_
  refine (cites_eat _ us₃).map fun _ _ => ?_
  exact List.forall_mem_cons.2 ⟨hl, List.forall_mem_append.2 ⟨hc, hbody⟩⟩
termination_by 4 * ts.length
decreasing_by all_goals omega

end

/-! ## Programs -/

theorem cites_parameter (ts : List Lexeme) :
    (parameter stop ts).Cites stop src ts fun p => src p.lexeme := by
  unfold parameter
  refine (cites_valueType ts).andThen fun type rest _ _ => ?_
  exact (cites_place rest).map fun p hp => hp _ List.mem_cons_self

theorem cites_function (ts : List Lexeme) :
    (function stop ts).Cites stop src ts (LexemesIn FunctionDecl.lexemes src) := by
  unfold function
  refine (cites_returnType ts).andThen fun returns us _ _ => ?_
  refine (cites_place us).andThen fun name us₁ _ hname => ?_
  refine (cites_eat _ us₁).andThen fun l us₂ _ _ => ?_
  refine Cites.andThen (cites_commaSeparated _ us₂ fun us _ => cites_parameter us)
    fun parameters us₃ _ hparameters => ?_
  refine (cites_block us₃).map fun body hbody => ?_
  refine List.forall_mem_cons.2 ⟨hname _ List.mem_cons_self, List.forall_mem_append.2 ⟨?_, ?_⟩⟩
  · exact List.forall_mem_map.2 hparameters
  · exact List.forall_mem_cons.2 hbody

theorem cites_global (ts : List Lexeme) :
    (global stop ts).Cites stop src ts (LexemesIn Declaration.lexemes src) := by
  unfold global
  refine (cites_declaration ts).andThen fun d rest _ hd => ?_
  exact (cites_eat _ rest).map fun _ _ => hd

theorem cites_item (ts : List Lexeme) :
    (item stop ts).Cites stop src ts (LexemesIn Item.lexemes src) := by
  unfold item
  split
  · next h => exact cites_lexical (stop_of_currentKind h) ts
  · split
    · exact (cites_function ts).map fun _ h => h
    · exact (cites_global ts).map fun _ h => h

theorem cites_items (ts : List Lexeme) :
    (items stop ts).Cites stop src ts fun is => ∀ i ∈ is, LexemesIn Item.lexemes src i := by
  unfold items
  cases ts with
  | nil => exact cites_atEnd (cites_leaving (List.suffix_refl _) fun _ => List.forall_mem_nil _)
  | cons l rest =>
    refine Cites.relax (Cites.followedBy (cites_item (l :: rest)) fun i rest' hn hi => ?_)
    exact (cites_items rest').map fun _ h => List.forall_mem_cons.2 ⟨hi, h⟩
termination_by ts.length
decreasing_by assumption

end Parse

namespace Stream

theorem mem_of_mem_leadingLexemes {es : List (Except LexicalError Lexeme)} {l : Lexeme}
    (h : l ∈ leadingLexemes es) : .ok l ∈ es := by
  induction es with
  | nil => cases h
  | cons entry es ih =>
    cases entry with
    | error e => cases h
    | ok l' =>
      rcases List.mem_cons.1 h with rfl | h
      · exact List.mem_cons_self
      · exact List.mem_cons_of_mem _ (ih h)

theorem last_of_stop {s : Stream} {l : Lexeme} (h : s.stop = .ok l) : l = s.last := by
  unfold stop at h
  split at h <;> cases h
  rfl

theorem stop_of_delivers {source : String} {ls : List Lexeme} (h : (ofSource source).Delivers ls) :
    (ofSource source).stop = .ok (endOf source.toList) ∧ (ofSource source).readable = ls := by
  obtain ⟨⟨last, hlast⟩, hreadable⟩ := (endsOnce_ofSource source).delivers_iff_readable.1 h
  rw [hlast, last_of_stop hlast]
  exact ⟨rfl, hreadable⟩

end Stream

/-- The result of reading the items of a source text, with the lexemes that are left. -/
def Program.parsed (source : String) :
    Parsed ((Stream.ofSource source).readable.length + 1) (List Item) :=
  Parse.items (Stream.ofSource source).stop (Stream.ofSource source).readable

theorem Program.ofSource_eq (source : String) :
    Program.ofSource source = (Program.parsed source).outcome.map Program.mk := by
  unfold ofSource parse Stream.parse parsed
  dsimp only
  generalize Parse.items _ _ = p
  cases p <;> rfl

/-- Reading a source text cites what it delivers. -/
theorem Program.parsed_cites (source : String) :
    (Program.parsed source).Cites (Stream.ofSource source).stop (.ok · ∈ entries source.toList)
      (Stream.ofSource source).readable
      fun is => ∀ i ∈ is, LexemesIn Item.lexemes (.ok · ∈ entries source.toList) i :=
  Parse.cites_items _

theorem Stream.mem_readable {source : String} :
    ∀ l ∈ (Stream.ofSource source).readable, .ok l ∈ MiniC.entries source.toList :=
  fun _ => Stream.mem_of_mem_leadingLexemes

namespace Program

variable {source : String}

theorem exists_parsed_error {e : SyntaxError} (h : ofSource source = .error e) :
    ∃ rest, parsed source = .error e rest := by
  rw [ofSource_eq] at h
  cases hparsed : parsed source with
  | ok is rest shorter =>
    rw [hparsed] at h
    cases h
  | error e' rest =>
    rw [hparsed] at h
    cases h
    exact ⟨rest, rfl⟩

/-- A program that was read keeps lexemes of its source text only. -/
theorem ofSource_lexemes {p : Program} (h : ofSource source = .ok p) {l : Lexeme}
    (hl : l ∈ p.lexemes) : .ok l ∈ entries source.toList := by
  have hcites := parsed_cites source Stream.mem_readable
  rw [ofSource_eq] at h
  cases hparsed : parsed source with
  | error e rest =>
    rw [hparsed] at h
    cases h
  | ok is rest shorter =>
    rw [hparsed] at h hcites
    cases h
    obtain ⟨i, hi, hl⟩ := List.mem_flatMap.1 hl
    exact hcites.2 i hi l hl

/-- Reading a source text fails for the lexical error that ends its lexemes, if for any. -/
theorem ofSource_lexical {e : LexicalError} (h : ofSource source = .error (.lexical e)) :
    (Stream.ofSource source).stop = .error e := by
  obtain ⟨rest, hparsed⟩ := exists_parsed_error h
  have hcites := parsed_cites source Stream.mem_readable
  rw [hparsed] at hcites
  exact hcites

/-- An unexpected lexeme is one of the source text, or its end. -/
theorem ofSource_unexpected {l : Lexeme} {expected : Expected}
    (h : ofSource source = .error (.unexpected l expected)) :
    .ok l ∈ entries source.toList ∨ l = endOf source.toList := by
  obtain ⟨rest, hparsed⟩ := exists_parsed_error h
  have hcites := parsed_cites source Stream.mem_readable
  rw [hparsed] at hcites
  rcases hcites with hrest | ⟨hstop, -⟩
  · exact Or.inl (Stream.mem_readable l (hrest.subset List.mem_cons_self))
  · exact Or.inr (Stream.last_of_stop hstop)

end Program

end MiniC
