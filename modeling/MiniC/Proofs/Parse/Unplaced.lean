import MiniC.Parse.Program
import MiniC.Proofs.Syntax.Unplaced

/-!
# Parsing without positions

No decision of a parser depends on where a lexeme stands.  A parser on lexemes without their places
does what it does on the lexemes: it succeeds with the value without positions and leaves the rest
without positions, or it fails at the same lexeme and asks for the same.  Main statement:
`unplaced_items`.
-/

namespace MiniC

/-- A stop without its place. -/
def Stop.unplaced : Stop → Stop
  | .ok l => .ok l.unplaced
  | .error e => .error { e with position := .nowhere }

/-- A syntax error without its place. -/
def SyntaxError.unplaced : SyntaxError → SyntaxError
  | .lexical e => .lexical { e with position := .nowhere }
  | .unexpected found expected => .unexpected found.unplaced expected

/-- Lexemes without their places. -/
def unplacedLexemes (ts : List Lexeme) : List Lexeme := ts.map Lexeme.unplaced

theorem unplacedLexemes_cons (l : Lexeme) (ts : List Lexeme) :
    unplacedLexemes (l :: ts) = l.unplaced :: unplacedLexemes ts := rfl

namespace Parsed

variable {α β : Type} {m n : Nat} {f : α → α} {g : β → β}

/-- The second result is the first one without positions; `f` forgets those of a value. -/
def Unplaces (f : α → α) (p : Parsed n α) (p' : Parsed m α) : Prop :=
  match p, p' with
  | .ok x rest _, .ok x' rest' _ => x' = f x ∧ rest' = unplacedLexemes rest
  | .error e rest, .error e' rest' => e' = e.unplaced ∧ rest' = unplacedLexemes rest
  | _, _ => False

theorem unplaces_leaving {x x' : α} (hx : x' = f x) (rest : List Lexeme) :
    (leaving x rest).Unplaces f (leaving x' (unplacedLexemes rest)) :=
  ⟨hx, rfl⟩

theorem unplaces_error {e e' : SyntaxError} (he : e' = e.unplaced) (rest : List Lexeme) :
    (error e rest : Parsed n α).Unplaces f (error e' (unplacedLexemes rest) : Parsed m α) :=
  ⟨he, rfl⟩

theorem Unplaces.relax {p : Parsed n α} {p' : Parsed m α} (h : p.Unplaces f p') :
    p.relax.Unplaces f p'.relax := by
  cases p <;> cases p' <;> exact h

theorem Unplaces.map {p : Parsed n α} {p' : Parsed m α} {make make' : α → β}
    (h : p.Unplaces f p') (hmake : ∀ x, make' (f x) = g (make x)) :
    (p.map make).Unplaces g (p'.map make') := by
  cases p <;> cases p'
  · obtain ⟨rfl, rfl⟩ := h
    exact ⟨hmake _, rfl⟩
  · exact h.elim
  · exact h.elim
  · exact h

theorem Unplaces.followedBy {p : Parsed n α} {p' : Parsed m α}
    {next : α → (rest : List Lexeme) → rest.length < n → Parsed (rest.length + 1) β}
    {next' : α → (rest : List Lexeme) → rest.length < m → Parsed (rest.length + 1) β}
    (h : p.Unplaces f p')
    (hnext : ∀ x rest hn hm,
      (next x rest hn).Unplaces g (next' (f x) (unplacedLexemes rest) hm)) :
    (p.followedBy next).Unplaces g (p'.followedBy next') := by
  cases p with
  | error e left =>
    cases p' with
    | error e' left' => exact h
    | ok x' left' shorter' => exact h.elim
  | ok x left shorter =>
    cases p' with
    | error e' left' => exact h.elim
    | ok x' left' shorter' =>
      obtain ⟨rfl, rfl⟩ := h
      have hboth := hnext x left shorter shorter'
      unfold Parsed.followedBy
      dsimp only
      generalize next x left shorter = q at *
      generalize next' (f x) (unplacedLexemes left) shorter' = q' at *
      cases q <;> cases q' <;> exact hboth

theorem Unplaces.andThen {p : Parsed n α} {p' : Parsed m α}
    {next : α → (rest : List Lexeme) → rest.length < n → Parsed rest.length β}
    {next' : α → (rest : List Lexeme) → rest.length < m → Parsed rest.length β}
    (h : p.Unplaces f p')
    (hnext : ∀ x rest hn hm,
      (next x rest hn).Unplaces g (next' (f x) (unplacedLexemes rest) hm)) :
    (p.andThen next).Unplaces g (p'.andThen next') :=
  h.followedBy fun x rest hn hm => (hnext x rest hn hm).relax

/-- Results of parsing that are the same without positions have the same value without positions,
or fail alike and leave equally many lexemes. -/
theorem Unplaces.alike {m' : Nat} {p : Parsed m α} {p' : Parsed m' α} {q : Parsed n α}
    (h : p.Unplaces f q) (h' : p'.Unplaces f q) :
    (∃ x rest shorter x' rest' shorter', p = .ok x rest shorter ∧ p' = .ok x' rest' shorter' ∧
      f x = f x') ∨
    ∃ e rest e' rest', p = .error e rest ∧ p' = .error e' rest' ∧ e.unplaced = e'.unplaced ∧
      rest.length = rest'.length := by
  cases q with
  | ok y left noLonger =>
    cases p with
    | error e rest => exact h.elim
    | ok x rest shorter =>
      cases p' with
      | error e' rest' => exact h'.elim
      | ok x' rest' shorter' => exact .inl ⟨_, _, _, _, _, _, rfl, rfl, h.1.symm.trans h'.1⟩
  | error d left =>
    cases p with
    | ok x rest shorter => exact h.elim
    | error e rest =>
      cases p' with
      | ok x' rest' shorter' => exact h'.elim
      | error e' rest' =>
        have hlength : rest.length = rest'.length := by
          simpa [unplacedLexemes] using congrArg List.length (h.2.symm.trans h'.2)
        exact .inr ⟨_, _, _, _, rfl, rfl, h.1.symm.trans h'.1, hlength⟩

end Parsed

namespace Parse

open Parsed

variable {α : Type} {stop : Stop} {f : α → α}

/-- A parser that does without positions what it does with them. -/
def IgnoresPlaces (stop : Stop) (f : α → α)
    (parser : (stop : Stop) → (ts : List Lexeme) → Parsed ts.length α) (ts : List Lexeme) : Prop :=
  (parser stop ts).Unplaces f (parser stop.unplaced (unplacedLexemes ts))

/-! ## Small parsers -/

theorem unplaced_refuse (stop : Stop) (expected : Expected) {m n : Nat} :
    (refuse stop expected : Parsed n α).Unplaces f
      (refuse stop.unplaced expected : Parsed m α) := by
  cases stop with
  | ok last => exact ⟨rfl, rfl⟩
  | error e => exact ⟨rfl, rfl⟩

theorem unplaced_atEnd {m n : Nat} {next : Parsed n α} {next' : Parsed m α}
    (h : next.Unplaces f next') : (atEnd stop next).Unplaces f (atEnd stop.unplaced next') := by
  cases stop with
  | ok last => exact h
  | error e => exact ⟨rfl, rfl⟩

/-- The category of the current lexeme, or the error that stands there without its place. -/
theorem unplaced_currentKind (stop : Stop) (ts : List Lexeme) :
    (∃ e, currentKind stop ts = .error e ∧
        currentKind stop.unplaced (unplacedLexemes ts) = .error { e with position := .nowhere }) ∨
      ∃ k, currentKind stop ts = .ok k ∧
        currentKind stop.unplaced (unplacedLexemes ts) = .ok k := by
  cases ts with
  | cons l rest => exact Or.inr ⟨l.kind, rfl, rfl⟩
  | nil =>
    cases stop with
    | ok last => exact Or.inr ⟨last.kind, rfl, rfl⟩
    | error e => exact Or.inl ⟨e, rfl, rfl⟩

theorem unplaced_ifNext {k : TokenKind} {ts : List Lexeme}
    {yes : (rest : List Lexeme) → rest.length < ts.length → Parsed (rest.length + 1) α}
    {yes' : (rest : List Lexeme) → rest.length < (unplacedLexemes ts).length →
      Parsed (rest.length + 1) α}
    {no : Unit → Parsed ts.length α} {no' : Unit → Parsed (unplacedLexemes ts).length α}
    (hyes : ∀ rest h h', (yes rest h).Unplaces f (yes' (unplacedLexemes rest) h'))
    (hno : (no ()).Unplaces f (no' ())) :
    (ifNext stop k ts yes no).Unplaces f
      (ifNext stop.unplaced k (unplacedLexemes ts) yes' no') := by
  cases ts with
  | nil =>
    cases stop with
    | ok last => exact hno
    | error e => exact ⟨rfl, rfl⟩
  | cons l rest =>
    by_cases hk : l.kind = k
    · have hleft : ifNext stop k (l :: rest) yes no = yes rest _ := if_pos hk
      have hright : ifNext stop.unplaced k (unplacedLexemes (l :: rest)) yes' no' =
          yes' (unplacedLexemes rest) _ := if_pos hk
      rw [hleft, hright]
      exact hyes rest _ _
    · have hleft : ifNext stop k (l :: rest) yes no = no () := if_neg hk
      have hright : ifNext stop.unplaced k (unplacedLexemes (l :: rest)) yes' no' = no' () :=
        if_neg hk
      rw [hleft, hright]
      exact hno

theorem unplaced_optionalAfter {k : TokenKind} (ts : List Lexeme)
    {following : (stop : Stop) → (rest : List Lexeme) → Parsed rest.length α}
    (h : ∀ rest, IgnoresPlaces stop f following rest) :
    (optionalAfter stop k ts (following stop)).Unplaces (Option.map f)
      (optionalAfter stop.unplaced k (unplacedLexemes ts) (following stop.unplaced)) := by
  cases ts with
  | nil => exact unplaced_atEnd (unplaces_leaving rfl [])
  | cons l rest =>
    rw [unplacedLexemes_cons]
    unfold optionalAfter
    dsimp only
    rw [Lexeme.kind_unplaced]
    split
    · have hsome : ((following stop rest).map some).Unplaces (Option.map f)
          ((following stop.unplaced (unplacedLexemes rest)).map some) :=
        Unplaces.map (h rest) fun _ => rfl
      exact hsome.relax.relax
    · exact unplaces_leaving rfl (l :: rest)

theorem unplaced_eat (k : TokenKind) (ts : List Lexeme) :
    IgnoresPlaces stop Lexeme.unplaced (fun stop => eat stop k) ts := by
  unfold IgnoresPlaces
  cases ts with
  | nil => exact unplaced_refuse stop _
  | cons l rest =>
    rw [unplacedLexemes_cons]
    unfold eat
    dsimp only
    rw [Lexeme.kind_unplaced]
    split
    · exact unplaces_leaving rfl rest
    · exact unplaces_error rfl rest

theorem unplaced_identifier (ts : List Lexeme) :
    IgnoresPlaces stop (Prod.map id Lexeme.unplaced) identifier ts := by
  unfold IgnoresPlaces
  cases ts with
  | nil => exact unplaced_refuse stop _
  | cons l rest =>
    rw [unplacedLexemes_cons]
    unfold identifier
    dsimp only
    rw [Lexeme.token_unplaced]
    split
    · exact unplaces_leaving rfl rest
    · exact unplaces_error rfl rest

theorem unplaced_valueType (ts : List Lexeme) : IgnoresPlaces stop id valueType ts := by
  unfold IgnoresPlaces
  cases ts with
  | nil => exact unplaced_refuse stop _
  | cons l rest =>
    rw [unplacedLexemes_cons]
    unfold valueType
    dsimp only
    rw [Lexeme.kind_unplaced]
    split
    · split
      · exact unplaces_error rfl rest
      · exact unplaces_leaving rfl rest
    · exact unplaces_error rfl rest

theorem unplaced_returnType (ts : List Lexeme) : IgnoresPlaces stop id returnType ts := by
  unfold IgnoresPlaces
  cases ts with
  | nil => exact unplaced_refuse stop _
  | cons l rest =>
    rw [unplacedLexemes_cons]
    unfold returnType
    dsimp only
    rw [Lexeme.kind_unplaced]
    split
    · exact unplaces_leaving rfl rest
    · exact unplaces_error rfl rest

theorem unplaced_assignOp (ts : List Lexeme) :
    IgnoresPlaces stop (Prod.map id Lexeme.unplaced) assignOp ts := by
  unfold IgnoresPlaces
  cases ts with
  | nil => exact unplaced_refuse stop _
  | cons l rest =>
    rw [unplacedLexemes_cons]
    unfold assignOp
    dsimp only
    rw [Lexeme.kind_unplaced]
    split
    · exact unplaces_leaving rfl rest
    · exact unplaces_error rfl rest

theorem unplaced_itemsFrom {closing : Symbol} (ts : List Lexeme)
    {item : (us : List Lexeme) → us.length ≤ ts.length → Parsed us.length α}
    {item' : (us : List Lexeme) → us.length ≤ (unplacedLexemes ts).length → Parsed us.length α}
    (hitem : ∀ us h h', (item us h).Unplaces f (item' (unplacedLexemes us) h')) :
    (itemsFrom stop closing ts item).Unplaces (List.map f)
      (itemsFrom stop.unplaced closing (unplacedLexemes ts) item') := by
  rw [itemsFrom, itemsFrom]
  refine (hitem ts _ _).andThen fun x left hleft hleft' => ?_
  cases left with
  | nil => exact unplaced_refuse stop _
  | cons l rest =>
    have hshorter : rest.length < ts.length := Nat.lt_of_succ_lt hleft
    dsimp only [unplacedLexemes_cons]
    rw [Lexeme.kind_unplaced]
    split
    · refine Unplaces.relax (Unplaces.map (unplaced_itemsFrom rest fun us h h' => hitem us _ _) ?_)
      exact fun _ => rfl
    · split
      · exact unplaces_leaving rfl rest
      · exact unplaces_error rfl rest
termination_by ts.length
decreasing_by exact hshorter

theorem unplaced_commaSeparated {closing : Symbol} (ts : List Lexeme)
    {item : (us : List Lexeme) → us.length ≤ ts.length → Parsed us.length α}
    {item' : (us : List Lexeme) → us.length ≤ (unplacedLexemes ts).length → Parsed us.length α}
    (hitem : ∀ us h h', (item us h).Unplaces f (item' (unplacedLexemes us) h')) :
    (commaSeparated stop closing ts item).Unplaces (List.map f)
      (commaSeparated stop.unplaced closing (unplacedLexemes ts) item') :=
  unplaced_ifNext (fun rest _ _ => unplaces_leaving rfl rest) (unplaced_itemsFrom ts hitem)

/-! ## Expressions -/

theorem unplaced_all_expressions {closing : Symbol} (ts : List Lexeme)
    (hitem : ∀ us, us.length ≤ ts.length →
      IgnoresPlaces stop Expr.unplaced (fun stop => binary stop .logical) us) :
    (commaSeparated stop closing ts fun us _ => binary stop .logical us).Unplaces Expr.unplacedAll
      (commaSeparated stop.unplaced closing (unplacedLexemes ts) fun us _ =>
        binary stop.unplaced .logical us) := by
  rw [show Expr.unplacedAll = List.map Expr.unplaced from funext Expr.unplacedAll_eq]
  exact unplaced_commaSeparated ts fun us h _ => hitem us h

mutual

theorem unplaced_binary (level : Level) (ts : List Lexeme) :
    IgnoresPlaces stop Expr.unplaced (fun stop => binary stop level) ts := by
  unfold IgnoresPlaces
  dsimp only
  unfold binary
  refine (unplaced_operand level ts).followedBy fun left rest hn _ => ?_
  exact unplaced_operators level left rest
termination_by 16 * ts.length + (2 * level.looseness + 4)
decreasing_by all_goals omega

theorem unplaced_operand (level : Level) (ts : List Lexeme) :
    IgnoresPlaces stop Expr.unplaced (fun stop => operand stop level) ts := by
  unfold IgnoresPlaces
  dsimp only
  unfold operand
  cases level with
  | multiplicative => exact unplaced_unary ts
  | additive => exact unplaced_binary .multiplicative ts
  | relational => exact unplaced_binary .additive ts
  | bitwise => exact unplaced_binary .relational ts
  | logical => exact unplaced_binary .bitwise ts
termination_by 16 * ts.length + (2 * level.looseness + 3)
decreasing_by all_goals (try simp only [Level.looseness]); omega

theorem unplaced_operators (level : Level) (left : Expr) (ts : List Lexeme) :
    (operators stop level left ts).Unplaces Expr.unplaced
      (operators stop.unplaced level left.unplaced (unplacedLexemes ts)) := by
  unfold operators
  cases ts with
  | nil => exact unplaced_atEnd (unplaces_leaving rfl [])
  | cons l rest =>
    dsimp only [unplacedLexemes_cons]
    rw [Lexeme.kind_unplaced]
    split
    · exact unplaces_leaving rfl (l :: rest)
    · split
      · refine ((unplaced_operand level rest).followedBy fun right rest' hn _ => ?_).relax.relax
        exact unplaced_operators level _ rest'
      · exact unplaces_leaving rfl (l :: rest)
termination_by 16 * ts.length + 13
decreasing_by
  all_goals (try simp only [List.length_cons] at *)
  · cases level <;> simp only [Level.looseness] <;> omega
  · omega

theorem unplaced_unary (ts : List Lexeme) : IgnoresPlaces stop Expr.unplaced unary ts := by
  unfold IgnoresPlaces unary
  cases ts with
  | nil => exact unplaced_refuse stop _
  | cons l rest =>
    dsimp only [unplacedLexemes_cons]
    rw [Lexeme.kind_unplaced]
    split
    · exact Unplaces.relax (Unplaces.map (unplaced_unary rest) fun _ => rfl)
    · exact unplaced_primary (l :: rest)
termination_by 16 * ts.length + 2
decreasing_by all_goals simp only [List.length_cons]; omega

theorem unplaced_primary (ts : List Lexeme) : IgnoresPlaces stop Expr.unplaced primary ts := by
  unfold IgnoresPlaces primary
  cases ts with
  | nil => exact unplaced_refuse stop _
  | cons l rest =>
    dsimp only [unplacedLexemes_cons]
    rw [Lexeme.kind_unplaced, Lexeme.token_unplaced]
    split
    · exact unplaces_leaving rfl rest
    · split
      · rcases unplaced_currentKind stop rest with ⟨e, he, he'⟩ | ⟨k, hk, hk'⟩
        · rw [he, he']
          exact unplaces_error rfl (l :: rest)
        · rw [hk, hk']
          dsimp only
          split
          · exact unplaced_cast (l :: rest)
          · exact unplaced_parenthesized (l :: rest)
      · exact unplaced_list (l :: rest)
      · rcases unplaced_currentKind stop rest with ⟨e, he, he'⟩ | ⟨k, hk, hk'⟩
        · rw [he, he']
          exact unplaces_error rfl (l :: rest)
        · rw [hk, hk']
          dsimp only
          split
          · exact Unplaces.map (unplaced_call (l :: rest)) fun _ => rfl
          · exact Unplaces.map (unplaced_place (l :: rest)) fun _ => rfl
      · exact unplaces_error rfl rest
termination_by 16 * ts.length + 1
decreasing_by all_goals simp only [List.length_cons]; omega

theorem unplaced_cast (ts : List Lexeme) : IgnoresPlaces stop Expr.unplaced cast ts := by
  unfold IgnoresPlaces cast
  refine (unplaced_eat _ ts).andThen fun l rest hn _ => ?_
  refine (unplaced_valueType rest).andThen fun type rest' hn' _ => ?_
  refine (unplaced_eat _ rest').andThen fun r rest'' hn'' _ => ?_
  exact Unplaces.map (unplaced_unary rest'') fun _ => rfl
termination_by 16 * ts.length
decreasing_by all_goals omega

theorem unplaced_parenthesized (ts : List Lexeme) :
    IgnoresPlaces stop Expr.unplaced parenthesized ts := by
  unfold IgnoresPlaces parenthesized
  refine (unplaced_eat _ ts).andThen fun l rest hn _ => ?_
  refine (unplaced_binary .logical rest).andThen fun inner rest' hn' _ => ?_
  exact Unplaces.map (unplaced_eat _ rest') fun _ => rfl
termination_by 16 * ts.length
decreasing_by all_goals (try simp only [Level.looseness]); omega

theorem unplaced_list (ts : List Lexeme) : IgnoresPlaces stop Expr.unplaced list ts := by
  unfold IgnoresPlaces list
  refine (unplaced_eat _ ts).andThen fun l rest hn _ => ?_
  refine Unplaces.map (unplaced_all_expressions rest fun us hus => ?_) fun _ => rfl
  exact unplaced_binary .logical us
termination_by 16 * ts.length
decreasing_by all_goals (try simp only [Level.looseness]); omega

theorem unplaced_call (ts : List Lexeme) : IgnoresPlaces stop Call.unplaced call ts := by
  unfold IgnoresPlaces call
  refine (unplaced_identifier ts).andThen fun name rest hn _ => ?_
  refine (unplaced_eat _ rest).andThen fun l rest' hn' _ => ?_
  refine Unplaces.map (unplaced_all_expressions rest' fun us hus => ?_) fun _ => rfl
  exact unplaced_binary .logical us
termination_by 16 * ts.length
decreasing_by all_goals (try simp only [Level.looseness]); omega

theorem unplaced_place (ts : List Lexeme) : IgnoresPlaces stop Place.unplaced place ts := by
  unfold IgnoresPlaces place
  refine (unplaced_identifier ts).followedBy fun name rest hn _ => ?_
  exact Unplaces.map (unplaced_indices rest) fun _ => rfl
termination_by 16 * ts.length
decreasing_by all_goals omega

theorem unplaced_indices (ts : List Lexeme) :
    (indices stop ts).Unplaces Expr.unplacedIndices
      (indices stop.unplaced (unplacedLexemes ts)) := by
  unfold indices
  cases ts with
  | nil => exact unplaced_atEnd (unplaces_leaving rfl [])
  | cons l rest =>
    dsimp only [unplacedLexemes_cons]
    rw [Lexeme.kind_unplaced]
    split
    · refine ((unplaced_index rest).followedBy fun i rest' hn _ => ?_).relax.relax
      refine Unplaces.map (unplaced_indices rest') fun is => ?_
      cases i <;> rfl
    · exact unplaces_leaving rfl (l :: rest)
termination_by 16 * ts.length + 13
decreasing_by all_goals simp only [List.length_cons] at *; omega

theorem unplaced_index (ts : List Lexeme) :
    IgnoresPlaces stop (Option.map Expr.unplaced) index ts := by
  unfold IgnoresPlaces index
  refine unplaced_ifNext (fun rest _ _ => unplaces_leaving rfl rest) ?_
  refine (unplaced_binary .logical ts).andThen fun i rest hn _ => ?_
  exact Unplaces.map (unplaced_eat _ rest) fun _ => rfl
termination_by 16 * ts.length + 13
decreasing_by all_goals (try simp only [Level.looseness]); omega

end

theorem unplaced_expression (ts : List Lexeme) :
    IgnoresPlaces stop Expr.unplaced expression ts :=
  unplaced_binary .logical ts

/-! ## Simple statements -/

theorem unplaced_declaration (ts : List Lexeme) :
    IgnoresPlaces stop Declaration.unplaced declaration ts := by
  unfold IgnoresPlaces declaration
  refine (unplaced_valueType ts).andThen fun type rest _ _ => ?_
  refine (unplaced_place rest).followedBy fun target rest' _ _ => ?_
  exact (unplaced_optionalAfter rest' unplaced_expression).map fun _ => rfl

theorem unplaced_assignment (ts : List Lexeme) :
    IgnoresPlaces stop SimpleStatement.unplaced assignment ts := by
  unfold IgnoresPlaces assignment
  refine (unplaced_place ts).andThen fun target rest _ _ => ?_
  refine (unplaced_assignOp rest).andThen fun op rest' _ _ => ?_
  exact Unplaces.map (unplaced_expression rest') fun _ => rfl

theorem unplaced_simpleStatement (ts : List Lexeme) :
    IgnoresPlaces stop SimpleStatement.unplaced simpleStatement ts := by
  unfold IgnoresPlaces simpleStatement
  cases ts with
  | nil => exact unplaced_refuse stop _
  | cons l rest =>
    dsimp only [unplacedLexemes_cons]
    rw [Lexeme.kind_unplaced]
    split
    · rcases unplaced_currentKind stop rest with ⟨e, he, he'⟩ | ⟨k, hk, hk'⟩
      · rw [he, he']
        exact unplaces_error rfl (l :: rest)
      · rw [hk, hk']
        dsimp only
        split
        · exact Unplaces.map (unplaced_call (l :: rest)) fun _ => rfl
        · exact unplaced_assignment (l :: rest)
    · split
      · exact Unplaces.map (unplaced_declaration (l :: rest)) fun _ => rfl
      · exact unplaces_error rfl rest

theorem unplaced_optionalSimple (closing : Symbol) (ts : List Lexeme) :
    IgnoresPlaces stop (Option.map SimpleStatement.unplaced)
      (fun stop => optionalSimple stop closing) ts := by
  unfold IgnoresPlaces
  dsimp only
  unfold optionalSimple
  refine unplaced_ifNext (fun rest _ _ => unplaces_leaving rfl rest) ?_
  refine (unplaced_simpleStatement ts).andThen fun s rest _ _ => ?_
  exact Unplaces.map (unplaced_eat _ rest) fun _ => rfl

theorem unplaced_condition (ts : List Lexeme) : IgnoresPlaces stop Expr.unplaced condition ts :=
  unplaced_parenthesized ts

theorem unplaced_jump (k : Keyword) (ts : List Lexeme) :
    IgnoresPlaces stop Lexeme.unplaced (fun stop => jump stop k) ts := by
  unfold IgnoresPlaces
  dsimp only
  unfold jump
  refine (unplaced_eat _ ts).andThen fun l rest _ _ => ?_
  exact Unplaces.map (unplaced_eat _ rest) fun _ => rfl

theorem unplaced_returnValue (ts : List Lexeme) :
    IgnoresPlaces stop Statement.unplaced returnValue ts := by
  unfold IgnoresPlaces returnValue
  refine (unplaced_eat _ ts).andThen fun l rest _ _ => ?_
  refine unplaced_ifNext (fun rest' _ _ => unplaces_leaving rfl rest') ?_
  refine (unplaced_expression rest).andThen fun x rest' _ _ => ?_
  exact Unplaces.map (unplaced_eat _ rest') fun _ => rfl

/-! ## Statements -/

mutual

theorem unplaced_statement (ts : List Lexeme) :
    IgnoresPlaces stop Statement.unplaced statement ts := by
  unfold IgnoresPlaces statement
  cases ts with
  | nil => exact unplaced_refuse stop _
  | cons l rest =>
    dsimp only [unplacedLexemes_cons]
    rw [Lexeme.kind_unplaced]
    split
    · exact Unplaces.map (unplaced_block (l :: rest)) fun _ => rfl
    · exact unplaced_ifElse (l :: rest)
    · exact unplaced_forLoop (l :: rest)
    · exact unplaced_whileLoop (l :: rest)
    · exact unplaced_doWhile (l :: rest)
    · exact Unplaces.map (unplaced_jump .break (l :: rest)) fun _ => rfl
    · exact Unplaces.map (unplaced_jump .continue (l :: rest)) fun _ => rfl
    · exact unplaced_returnValue (l :: rest)
    · exact unplaces_leaving rfl rest
    · refine Unplaces.andThen (unplaced_simpleStatement (l :: rest)) fun s rest' _ _ => ?_
      exact Unplaces.map (unplaced_eat _ rest') fun _ => rfl
termination_by 4 * ts.length + 1
decreasing_by all_goals simp only [List.length_cons]; omega

theorem unplaced_block (ts : List Lexeme) :
    IgnoresPlaces stop (Prod.map Statement.unplacedAll Lexeme.unplaced) block ts := by
  unfold IgnoresPlaces block
  refine (unplaced_eat _ ts).andThen fun l rest hn _ => ?_
  exact Unplaces.map (unplaced_statements rest) fun _ => rfl
termination_by 4 * ts.length
decreasing_by all_goals omega

theorem unplaced_statements (ts : List Lexeme) :
    IgnoresPlaces stop Statement.unplacedAll statements ts := by
  unfold IgnoresPlaces statements
  cases ts with
  | nil => exact unplaced_refuse stop _
  | cons l rest =>
    dsimp only [unplacedLexemes_cons]
    rw [Lexeme.kind_unplaced]
    split
    · exact unplaces_leaving rfl rest
    · refine Unplaces.andThen (unplaced_statement (l :: rest)) fun s rest' hn _ => ?_
      exact Unplaces.map (unplaced_statements rest') fun _ => rfl
termination_by 4 * ts.length + 2
decreasing_by all_goals simp only [List.length_cons] at *; omega

theorem unplaced_branch (ts : List Lexeme) :
    IgnoresPlaces stop (Prod.map Expr.unplaced Statement.unplaced) branch ts := by
  unfold IgnoresPlaces branch
  refine (unplaced_condition ts).andThen fun c rest hn _ => ?_
  exact Unplaces.map (unplaced_statement rest) fun _ => rfl
termination_by 4 * ts.length + 2
decreasing_by all_goals omega

theorem unplaced_ifElse (ts : List Lexeme) :
    IgnoresPlaces stop Statement.unplaced ifElse ts := by
  unfold IgnoresPlaces ifElse
  refine (unplaced_eat _ ts).andThen fun l rest hn _ => ?_
  refine (unplaced_branch rest).followedBy fun first rest' hn' _ => ?_
  exact Unplaces.map (unplaced_elseChain rest') fun _ => rfl
termination_by 4 * ts.length
decreasing_by all_goals omega

theorem unplaced_elseChain (ts : List Lexeme) :
    (elseChain stop ts).Unplaces
      (Prod.map Statement.unplacedBranches Statement.unplacedOtherwise)
      (elseChain stop.unplaced (unplacedLexemes ts)) := by
  unfold elseChain
  cases ts with
  | nil => exact unplaced_atEnd (unplaces_leaving rfl [])
  | cons l rest =>
    dsimp only [unplacedLexemes_cons]
    rw [Lexeme.kind_unplaced]
    split
    · refine (unplaced_ifNext (fun rest' hn _ => ?_) ?_).relax.relax
      · refine ((unplaced_branch rest').followedBy fun b rest'' hn' _ => ?_).relax
        exact Unplaces.map (unplaced_elseChain rest'') fun _ => rfl
      · exact Unplaces.map (unplaced_statement rest) fun _ => rfl
    · exact unplaces_leaving rfl (l :: rest)
termination_by 4 * ts.length + 3
decreasing_by all_goals simp only [List.length_cons] at *; omega

theorem unplaced_forLoop (ts : List Lexeme) :
    IgnoresPlaces stop Statement.unplaced forLoop ts := by
  unfold IgnoresPlaces forLoop
  refine (unplaced_eat _ ts).andThen fun l us hus _ => ?_
  refine (unplaced_eat _ us).andThen fun p us₁ hus₁ _ => ?_
  refine (unplaced_optionalSimple .semicolon us₁).andThen fun first us₂ hus₂ _ => ?_
  refine (unplaced_expression us₂).andThen fun c us₃ hus₃ _ => ?_
  refine (unplaced_eat _ us₃).andThen fun semi us₄ hus₄ _ => ?_
  refine (unplaced_optionalSimple .rightParen us₄).andThen fun step us₅ hus₅ _ => ?_
  exact Unplaces.map (unplaced_statement us₅) fun _ => rfl
termination_by 4 * ts.length
decreasing_by all_goals omega

theorem unplaced_whileLoop (ts : List Lexeme) :
    IgnoresPlaces stop Statement.unplaced whileLoop ts := by
  unfold IgnoresPlaces whileLoop
  refine (unplaced_eat _ ts).andThen fun l rest hn _ => ?_
  exact Unplaces.map (unplaced_branch rest) fun _ => rfl
termination_by 4 * ts.length
decreasing_by all_goals omega

theorem unplaced_doWhile (ts : List Lexeme) :
    IgnoresPlaces stop Statement.unplaced doWhile ts := by
  unfold IgnoresPlaces doWhile
  refine (unplaced_eat _ ts).andThen fun l us hus _ => ?_
  refine (unplaced_statement us).andThen fun body us₁ hus₁ _ => ?_
  refine (unplaced_eat _ us₁).andThen fun w us₂ hus₂ _ => ?_
  refine (unplaced_condition us₂).andThen fun c us₃ hus₃ _ => ?_
  exact Unplaces.map (unplaced_eat _ us₃) fun _ => rfl
termination_by 4 * ts.length
decreasing_by all_goals omega

end

/-! ## Programs -/

theorem unplaced_parameter (ts : List Lexeme) :
    IgnoresPlaces stop Parameter.unplaced parameter ts := by
  unfold IgnoresPlaces parameter
  refine (unplaced_valueType ts).andThen fun type rest _ _ => ?_
  refine Unplaces.map (unplaced_place rest) fun p => ?_
  simp only [Place.unplaced, Expr.length_unplacedIndices]
  rfl

theorem unplaced_function (ts : List Lexeme) :
    IgnoresPlaces stop FunctionDecl.unplaced function ts := by
  unfold IgnoresPlaces function
  refine (unplaced_returnType ts).andThen fun returns us _ _ => ?_
  refine (unplaced_place us).andThen fun name us₁ _ _ => ?_
  refine (unplaced_eat _ us₁).andThen fun l us₂ _ _ => ?_
  have hparameters : (commaSeparated stop .rightParen us₂ fun us _ => parameter stop us).Unplaces
      (List.map Parameter.unplaced)
      (commaSeparated stop.unplaced .rightParen (unplacedLexemes us₂) fun us _ =>
        parameter stop.unplaced us) :=
    unplaced_commaSeparated us₂ fun us _ _ => unplaced_parameter us
  refine hparameters.andThen fun parameters us₃ _ _ => ?_
  refine Unplaces.map (unplaced_block us₃) fun body => ?_
  simp only [Place.unplaced, Expr.length_unplacedIndices]
  rfl

theorem unplaced_global (ts : List Lexeme) :
    IgnoresPlaces stop Declaration.unplaced global ts := by
  unfold IgnoresPlaces global
  refine (unplaced_declaration ts).andThen fun d rest _ _ => ?_
  exact Unplaces.map (unplaced_eat _ rest) fun _ => rfl

theorem unplaced_afterBrackets (depth : Nat) (ts : List Lexeme) :
    afterBrackets depth (unplacedLexemes ts) = unplacedLexemes (afterBrackets depth ts) := by
  induction ts generalizing depth with
  | nil => cases depth <;> rfl
  | cons l rest ih =>
    rw [unplacedLexemes_cons]
    cases depth with
    | zero =>
      rw [afterBrackets, afterBrackets, Lexeme.kind_unplaced]
      split
      · exact ih 1
      · rfl
    | succ depth =>
      rw [afterBrackets, afterBrackets, Lexeme.kind_unplaced]
      split
      · exact ih (depth + 2)
      · split
        · exact ih depth
        · exact ih (depth + 1)

theorem unplaced_item (ts : List Lexeme) : IgnoresPlaces stop Item.unplaced item ts := by
  have hdrop : (unplacedLexemes ts).drop 2 = unplacedLexemes (ts.drop 2) :=
    (List.map_drop ..).symm
  unfold IgnoresPlaces item
  rw [hdrop, unplaced_afterBrackets]
  rcases unplaced_currentKind stop (afterBrackets 0 (ts.drop 2)) with ⟨e, he, he'⟩ | ⟨k, hk, hk'⟩
  · rw [he, he']
    exact unplaces_error rfl ts
  · rw [hk, hk']
    dsimp only
    split
    · exact Unplaces.map (unplaced_function ts) fun _ => rfl
    · exact Unplaces.map (unplaced_global ts) fun _ => rfl

/-- Positions decide nothing: items are read alike without them, and fail at the same lexeme. -/
theorem unplaced_items (ts : List Lexeme) :
    (items stop ts).Unplaces (List.map Item.unplaced)
      (items stop.unplaced (unplacedLexemes ts)) := by
  unfold items
  cases ts with
  | nil => exact unplaced_atEnd (unplaces_leaving rfl [])
  | cons l rest =>
    dsimp only [unplacedLexemes_cons]
    refine (Unplaces.followedBy (unplaced_item (l :: rest)) fun i rest' hn _ => ?_).relax
    exact Unplaces.map (unplaced_items rest') fun _ => rfl
termination_by ts.length
decreasing_by assumption

end Parse

end MiniC
