import MiniC.Proofs.Parse.Gives
import MiniC.Proofs.Parse.Grammar

/-!
# Parsers accept what the grammar derives

On lexemes that the grammar derives a value from, followed by anything that cannot continue them, a
parser succeeds with that value and leaves what follows.  The parsers decide by the current lexeme
and the next one; what a derived list of lexemes begins with (`IsExpr.starts` and others) shows that
they decide rightly.  Main statement: `items_gives`.
-/

namespace MiniC

/-! ## What stands at the ends of expressions -/

/-- What can end an expression: closing brackets and separators. -/
def Symbol.endsExpr : Symbol → Bool
  | .rightParen | .rightBracket | .rightBrace | .comma | .semicolon => true
  | _ => false

/-- What an expression begins with. -/
def TokenKind.startsExpr : TokenKind → Bool
  | .intLiteral | .floatLiteral | .stringLiteral | .identifier | .symbol .leftParen
  | .symbol .leftBrace | .symbol .minus | .symbol .tilde | .symbol .bang => true
  | _ => false

/-- What a statement begins with. -/
def TokenKind.startsStatement : TokenKind → Bool
  | .identifier | .symbol .semicolon | .symbol .leftBrace | .keyword .int | .keyword .float
  | .keyword .string | .keyword .if | .keyword .for | .keyword .while | .keyword .do
  | .keyword .break | .keyword .continue | .keyword .return => true
  | _ => false

/-- An expression at a tier is not continued by what stands after it. -/
structure Tier.EndsBefore (tier : Tier) (k : TokenKind) : Prop where
  bracket : k ≠ .symbol .leftBracket
  paren : k ≠ .symbol .leftParen
  operator : ∀ op, BinaryOp.ofKind? k = some op → tier.admits op = false

namespace Tier

variable {tier : Tier} {level : Level} {op : BinaryOp} {k : TokenKind}

theorem endsBefore_symbol {s : Symbol} (hs : s.endsExpr = true) : tier.EndsBefore (.symbol s) := by
  have hnone : BinaryOp.ofKind? (.symbol s) = none := by
    unfold Symbol.endsExpr at hs
    split at hs
    all_goals first | rfl | cases hs
  refine ⟨?_, ?_, fun op hop => by rw [hnone] at hop; cases hop⟩
  · rintro ⟨⟩
    cases hs
  · rintro ⟨⟩
    cases hs

theorem operand_admits (h : (Tier.binary level).admits op = false) :
    (operand level).admits op = false := by
  have hloose : ¬ op.level.looseness ≤ level.looseness := of_decide_eq_false h
  cases level with
  | multiplicative => rfl
  | additive | relational | bitwise | logical =>
    simp only [Level.looseness] at hloose
    exact decide_eq_false (by simp only [Level.looseness]; omega)

theorem operand_admits_level : (operand op.level).admits op = false := by
  cases hlevel : op.level with
  | multiplicative => rfl
  | additive | relational | bitwise | logical =>
    exact decide_eq_false (by rw [hlevel]; simp only [Level.looseness]; omega)

theorem EndsBefore.operand (h : (Tier.binary level).EndsBefore k) :
    (Tier.operand level).EndsBefore k :=
  ⟨h.bracket, h.paren, fun op hop => operand_admits (h.operator op hop)⟩

theorem EndsBefore.unary (h : tier.EndsBefore k) : Tier.unary.EndsBefore k :=
  ⟨h.bracket, h.paren, fun _ _ => rfl⟩

end Tier

namespace Grammar

theorem kind_of_identifier {l : Lexeme} {name : String} (h : l.token = .identifier name) :
    l.kind = .identifier := by
  unfold Lexeme.kind
  rw [h]
  rfl

theorem literal?_of_kind {l : Lexeme} (h : l.kind = .identifier ∨ ∃ s, l.kind = .symbol s) :
    Parse.literal? l.token = none := by
  unfold Lexeme.kind at h
  cases htoken : l.token with
  | intLiteral n | floatLiteral x | stringLiteral s =>
    rw [htoken] at h
    rcases h with h | ⟨s, h⟩ <;> cases h
  | identifier name | keyword w | symbol s | endOfInput => rfl

theorem kind_of_literal {l : Lexeme} {v : Literal} (h : Parse.literal? l.token = some v) :
    l.kind = .intLiteral ∨ l.kind = .floatLiteral ∨ l.kind = .stringLiteral := by
  unfold Lexeme.kind
  cases htoken : l.token with
  | intLiteral n => exact Or.inl rfl
  | floatLiteral x => exact Or.inr (Or.inl rfl)
  | stringLiteral s => exact Or.inr (Or.inr rfl)
  | identifier name | keyword w | symbol s | endOfInput =>
    rw [htoken] at h
    cases h

/-- The first lexeme of an expression. -/
theorem IsExpr.starts {tier : Tier} {ls : List Lexeme} {e : Expr} :
    IsExpr tier ls e → ∃ l us, ls = l :: us ∧ l.kind.startsExpr = true
  | .level hleft _ => by
    obtain ⟨l, us, rfl, hl⟩ := IsExpr.starts hleft
    exact ⟨l, _, rfl, hl⟩
  | .operator hop _ => by
    refine ⟨_, _, rfl, ?_⟩
    unfold UnaryOp.ofKind? at hop
    split at hop
    · next hl => rw [hl]; rfl
    · next hl => rw [hl]; rfl
    · next hl => rw [hl]; rfl
    · cases hop
  | .primary he => IsExpr.starts he
  | .literal hv => by
    refine ⟨_, [], rfl, ?_⟩
    obtain hl | hl | hl := kind_of_literal hv <;> rw [hl] <;> rfl
  | .parenthesized hl _ _ | .cast hl _ _ _ _ | .list hl _ _ => ⟨_, _, rfl, by rw [hl]; rfl⟩
  | .call hl _ _ _ | .variable hl _ => ⟨_, _, rfl, by rw [kind_of_identifier hl]; rfl⟩

/-- The first lexeme of an operand without operators is no operator. -/
theorem IsExpr.starts_primary {ls : List Lexeme} {e : Expr} (h : IsExpr .primary ls e) :
    ∃ l us, ls = l :: us ∧ UnaryOp.ofKind? l.kind = none := by
  cases h with
  | @literal l v hv =>
    refine ⟨l, [], rfl, ?_⟩
    obtain hl | hl | hl := kind_of_literal hv <;> rw [hl] <;> rfl
  | parenthesized hl | cast hl | list hl => exact ⟨_, _, rfl, by rw [hl]; rfl⟩
  | call hl | «variable» hl => exact ⟨_, _, rfl, by rw [kind_of_identifier hl]; rfl⟩

/-- A place begins with its name. -/
theorem IsPlace.starts {ls : List Lexeme} {p : Place} (h : IsPlace ls p) :
    ∃ l us, ls = l :: us ∧ l.kind = .identifier := by
  cases h with
  | mk hl => exact ⟨_, _, rfl, kind_of_identifier hl⟩

/-- What follows an operand of a level does not go on with the operand. -/
theorem IsOperators.endsBefore {level : Level} {left e : Expr} {ls rest : List Lexeme}
    {last : Lexeme} (h : IsOperators level left ls e)
    (hrest : (Tier.binary level).EndsBefore (Parse.headKind last rest)) :
    (Tier.operand level).EndsBefore (Parse.headKind last (ls ++ rest)) := by
  cases h with
  | none => exact hrest.operand
  | @some _ _ _ _ l op _ _ hop hlevel =>
    subst hlevel
    rw [List.cons_append, Parse.headKind_cons]
    refine ⟨?_, ?_, ?_⟩
    · intro hl
      rw [hl] at hop
      cases hop
    · intro hl
      rw [hl] at hop
      cases hop
    · intro op' hop'
      rw [hop', Option.some.injEq] at hop
      rw [hop]
      exact Tier.operand_admits_level

/-- After a name and indices that end before something, no parenthesis follows the name. -/
theorem IsIndices.headKind_ne {ls rest : List Lexeme} {is : List (Option Expr)} {last : Lexeme}
    (h : IsIndices ls is) (hrest : Parse.headKind last rest ≠ .symbol .leftParen) :
    Parse.headKind last (ls ++ rest) ≠ .symbol .leftParen := by
  cases h with
  | none => exact hrest
  | empty hl | index hl =>
    rw [List.cons_append, Parse.headKind_cons, hl]
    rintro ⟨⟩

end Grammar

namespace Parse

open Parsed Grammar

variable {α : Type} {last : Lexeme}

/-! ## Lists of items -/

/-- On what a closing symbol or a comma follows, a parser of items gives what the lexemes are. -/
def GivesItems (last : Lexeme) (closing : Symbol) (Is : List Lexeme → α → Prop)
    {ts : List Lexeme} (item : (us : List Lexeme) → us.length ≤ ts.length → Parsed us.length α) :
    Prop :=
  ∀ us hus ls x s left, us = ls ++ left → Is ls x → headKind last left = .symbol s →
    s = .comma ∨ s = closing → (item us hus).Gives x left

theorem itemsFrom_gives {Is : List Lexeme → α → Prop} {closing : Symbol} {ls : List Lexeme}
    {xs : List α} {r : Lexeme} {rest : List Lexeme} (hxs : IsItemsFrom Is ls xs)
    (hclosing : closing ≠ .comma) (hr : r.kind = .symbol closing) :
    ∀ {ts : List Lexeme}
      {item : (us : List Lexeme) → us.length ≤ ts.length → Parsed us.length α},
      ts = ls ++ r :: rest → GivesItems last closing Is item →
        (itemsFrom (.ok last) closing ts item).Gives xs rest := by
  have hcomma : r.kind ≠ .symbol .comma := by
    rw [hr]
    rintro ⟨⟩
    exact hclosing rfl
  induction hxs with
  | one hx =>
    intro ts item hts hitem
    rw [itemsFrom]
    refine (hitem _ _ _ _ _ _ hts hx hr (Or.inr rfl)).andThen ?_
    dsimp only
    rw [if_neg hcomma, if_pos hr]
    exact ⟨rfl, rfl⟩
  | @more ls ls' x xs comma hx hc hxs ih =>
    intro ts item hts hitem
    rw [itemsFrom]
    have hts : ts = ls ++ comma :: (ls' ++ r :: rest) := by simp [hts]
    refine (hitem _ _ _ _ _ _ hts hx hc (Or.inl rfl)).andThen ?_
    dsimp only
    rw [if_pos hc]
    exact (ih rfl fun us hus => hitem us _).map.relax

theorem commaSeparated_gives {Is : List Lexeme → α → Prop} {closing : Symbol} {ls : List Lexeme}
    {xs : List α} {r : Lexeme} {rest : List Lexeme} (hxs : IsSeparated Is ls xs)
    (hclosing : closing ≠ .comma) (hr : r.kind = .symbol closing)
    (hstarts : ∀ ls x, Is ls x → ∃ l us, ls = l :: us ∧ l.kind ≠ .symbol closing)
    {item : (us : List Lexeme) → us.length ≤ (ls ++ r :: rest).length → Parsed us.length α}
    (hitem : GivesItems last closing Is item) :
    (commaSeparated (.ok last) closing (ls ++ r :: rest) item).Gives xs rest := by
  cases hxs with
  | none => exact ifNext_yes hr ⟨rfl, rfl⟩
  | some hxs =>
    have hfirst : ∃ l us, ls = l :: us ∧ l.kind ≠ .symbol closing := by
      cases hxs with
      | one hx => exact hstarts _ _ hx
      | more hx =>
        obtain ⟨l, us, rfl, hl⟩ := hstarts _ _ hx
        exact ⟨l, _, rfl, hl⟩
    obtain ⟨l, us, rfl, hl⟩ := hfirst
    exact ifNext_no hl (itemsFrom_gives hxs hclosing hr rfl hitem)

/-! ## Expressions -/

/-- The parser of the expressions at a tier. -/
def atTier (stop : Stop) : Tier → (ts : List Lexeme) → Parsed ts.length Expr
  | .binary level, ts => binary stop level ts
  | .unary, ts => unary stop ts
  | .primary, ts => primary stop ts

theorem operand_eq (stop : Stop) (level : Level) (ts : List Lexeme) :
    operand stop level ts = atTier stop (.operand level) ts := by
  unfold operand
  cases level <;> rfl

theorem operators_end {level : Level} {left : Expr} {rest : List Lexeme}
    (h : (Tier.binary level).EndsBefore (headKind last rest)) :
    (operators (.ok last) level left rest).Gives left rest := by
  unfold operators
  cases rest with
  | nil => exact ⟨rfl, rfl⟩
  | cons l us =>
    dsimp only
    split
    · exact ⟨rfl, rfl⟩
    · next op hop =>
      have hadmits : ¬ op.level.looseness ≤ level.looseness :=
        of_decide_eq_false (h.operator op hop)
      rw [if_neg fun hlevel => hadmits (Nat.le_of_eq (by rw [hlevel]))]
      exact ⟨rfl, rfl⟩

theorem operators_more {level : Level} {left right e : Expr} {l : Lexeme} {op : BinaryOp}
    {ts ts' rest : List Lexeme} (hop : BinaryOp.ofKind? l.kind = some op)
    (hlevel : op.level = level)
    (hright : (atTier (.ok last) (.operand level) ts).Gives right ts')
    (he : (operators (.ok last) level (.binary op left right l) ts').Gives e rest) :
    (operators (.ok last) level left (l :: ts)).Gives e rest := by
  rw [operators, hop]
  dsimp only
  rw [if_pos hlevel]
  rw [← operand_eq] at hright
  exact (hright.followedBy he).relax.relax

theorem unary_of_primary {l : Lexeme} {ts rest : List Lexeme} {e : Expr}
    (hl : UnaryOp.ofKind? l.kind = none)
    (h : (primary (.ok last) (l :: ts)).Gives e rest) :
    (unary (.ok last) (l :: ts)).Gives e rest := by
  rw [unary, hl]
  exact h

theorem unary_operator {l : Lexeme} {op : UnaryOp} {ts rest : List Lexeme} {x : Expr}
    (hop : UnaryOp.ofKind? l.kind = some op) (h : (unary (.ok last) ts).Gives x rest) :
    (unary (.ok last) (l :: ts)).Gives (.unary op x l) rest := by
  rw [unary, hop]
  exact h.map.relax

theorem primary_literal {l : Lexeme} {v : Literal} {rest : List Lexeme}
    (hv : literal? l.token = some v) :
    (primary (.ok last) (l :: rest)).Gives (.literal v l) rest := by
  rw [primary, hv]
  exact ⟨rfl, rfl⟩

/-- A parenthesis that no name of a type follows opens no cast. -/
theorem primary_parenthesized {l : Lexeme} {ts rest : List Lexeme} {e : Expr}
    (hl : l.kind = .symbol .leftParen) (htype : TypeName.ofKind? (headKind last ts) = none)
    (h : (parenthesized (.ok last) (l :: ts)).Gives e rest) :
    (primary (.ok last) (l :: ts)).Gives e rest := by
  rw [primary, literal?_of_kind (Or.inr ⟨_, hl⟩), hl, currentKind_ok]
  dsimp only
  rw [htype]
  exact h

theorem primary_cast {l t : Lexeme} {type : TypeName} {ts rest : List Lexeme} {e : Expr}
    (hl : l.kind = .symbol .leftParen) (ht : TypeName.ofKind? t.kind = some type)
    (h : (cast (.ok last) (l :: t :: ts)).Gives e rest) :
    (primary (.ok last) (l :: t :: ts)).Gives e rest := by
  rw [primary, literal?_of_kind (Or.inr ⟨_, hl⟩), hl, currentKind_ok]
  dsimp only [headKind]
  rw [ht]
  exact h

theorem primary_list {l : Lexeme} {ts rest : List Lexeme} {e : Expr}
    (hl : l.kind = .symbol .leftBrace) (h : (list (.ok last) (l :: ts)).Gives e rest) :
    (primary (.ok last) (l :: ts)).Gives e rest := by
  rw [primary, literal?_of_kind (Or.inr ⟨_, hl⟩), hl]
  exact h

theorem primary_call {l : Lexeme} {ts rest : List Lexeme} {c : Call}
    (hl : l.kind = .identifier) (hnext : headKind last ts = .symbol .leftParen)
    (h : (call (.ok last) (l :: ts)).Gives c rest) :
    (primary (.ok last) (l :: ts)).Gives c.expr rest := by
  rw [primary, literal?_of_kind (Or.inl hl), hl, currentKind_ok]
  dsimp only
  rw [if_pos hnext]
  exact h.map

theorem primary_place {l : Lexeme} {ts rest : List Lexeme} {p : Place}
    (hl : l.kind = .identifier) (hnext : headKind last ts ≠ .symbol .leftParen)
    (h : (place (.ok last) (l :: ts)).Gives p rest) :
    (primary (.ok last) (l :: ts)).Gives p.read rest := by
  rw [primary, literal?_of_kind (Or.inl hl), hl, currentKind_ok]
  dsimp only
  rw [if_neg hnext]
  exact h.map

theorem ofKind?_of_startsExpr {k : TokenKind} (h : k.startsExpr = true) :
    TypeName.ofKind? k = none := by
  unfold TokenKind.startsExpr at h
  split at h
  all_goals first | rfl | cases h

/-- The lexemes are an expression, and the parser gives it whatever follows that ends it. -/
def GivesExpr (last : Lexeme) (ls : List Lexeme) (e : Expr) : Prop :=
  IsExpr .expression ls e ∧ ∀ rest, Tier.expression.EndsBefore (headKind last rest) →
    (binary (.ok last) .logical (ls ++ rest)).Gives e rest

theorem givesItems_expression {closing : Symbol} (hclosing : closing.endsExpr = true)
    {ts : List Lexeme} :
    GivesItems last closing (GivesExpr last)
      fun (us : List Lexeme) (_ : us.length ≤ ts.length) => binary (.ok last) .logical us := by
  rintro us hus ls x s left rfl ⟨-, hx⟩ hs hends
  refine hx left ?_
  rw [hs]
  rcases hends with rfl | rfl
  · exact Tier.endsBefore_symbol rfl
  · exact Tier.endsBefore_symbol hclosing

theorem starts_of_givesExpr {closing : Symbol} (hclosing : closing.endsExpr = true)
    (ls : List Lexeme) (x : Expr) (h : GivesExpr last ls x) :
    ∃ l us, ls = l :: us ∧ l.kind ≠ .symbol closing := by
  obtain ⟨l, us, hls, hl⟩ := IsExpr.starts h.1
  refine ⟨l, us, hls, fun hk => ?_⟩
  rw [hk] at hl
  cases closing <;> revert hl hclosing <;> decide

theorem index_empty {r : Lexeme} {rest : List Lexeme} (hr : r.kind = .symbol .rightBracket) :
    (index (.ok last) (r :: rest)).Gives none rest := by
  rw [index]
  exact ifNext_yes hr ⟨rfl, rfl⟩

theorem index_some {r : Lexeme} {ls rest : List Lexeme} {i : Expr} (hi : GivesExpr last ls i)
    (hr : r.kind = .symbol .rightBracket) :
    (index (.ok last) (ls ++ r :: rest)).Gives (some i) rest := by
  have hbracket : Symbol.rightBracket.endsExpr = true := rfl
  obtain ⟨l, us, rfl, hl⟩ := starts_of_givesExpr hbracket _ _ hi
  rw [index]
  refine ifNext_no hl ?_
  have hends : Tier.expression.EndsBefore (headKind last (r :: rest)) := by
    rw [headKind_cons, hr]
    exact Tier.endsBefore_symbol rfl
  exact (hi.2 _ hends).andThen (gives_eat.2 ⟨rfl, hr⟩).map

theorem indices_end {rest : List Lexeme} (h : headKind last rest ≠ .symbol .leftBracket) :
    (indices (.ok last) rest).Gives [] rest := by
  unfold indices
  cases rest with
  | nil => exact ⟨rfl, rfl⟩
  | cons l us =>
    rw [headKind_cons] at h
    dsimp only
    rw [if_neg h]
    exact ⟨rfl, rfl⟩

theorem indices_more {l : Lexeme} {i : Option Expr} {is : List (Option Expr)}
    {ts ts' rest : List Lexeme} (hl : l.kind = .symbol .leftBracket)
    (hi : (index (.ok last) ts).Gives i ts') (his : (indices (.ok last) ts').Gives is rest) :
    (indices (.ok last) (l :: ts)).Gives (i :: is) rest := by
  rw [indices, if_pos hl]
  exact (hi.followedBy his.map).relax.relax

theorem parenthesized_gives {l r : Lexeme} {ls rest : List Lexeme} {e : Expr}
    (hl : l.kind = .symbol .leftParen) (he : GivesExpr last ls e)
    (hr : r.kind = .symbol .rightParen) :
    (parenthesized (.ok last) (l :: (ls ++ r :: rest))).Gives e rest := by
  have hends : Tier.expression.EndsBefore (headKind last (r :: rest)) := by
    rw [headKind_cons, hr]
    exact Tier.endsBefore_symbol rfl
  unfold parenthesized
  refine (gives_eat.2 ⟨rfl, hl⟩).andThen ?_
  exact (he.2 _ hends).andThen (gives_eat.2 ⟨rfl, hr⟩).map

theorem cast_gives {l t r : Lexeme} {type : TypeName} {ts rest : List Lexeme} {x : Expr}
    (hl : l.kind = .symbol .leftParen) (ht : TypeName.ofKind? t.kind = some type)
    (hvoid : type ≠ .void) (hr : r.kind = .symbol .rightParen)
    (hx : (unary (.ok last) ts).Gives x rest) :
    (cast (.ok last) (l :: t :: r :: ts)).Gives (.cast type x l) rest := by
  unfold cast
  refine (gives_eat.2 ⟨rfl, hl⟩).andThen ?_
  refine (gives_valueType.2 ⟨t, rfl, ht, hvoid⟩).andThen ?_
  exact (gives_eat.2 ⟨rfl, hr⟩).andThen hx.map

theorem list_gives {l r : Lexeme} {ls rest : List Lexeme} {xs : List Expr}
    (hl : l.kind = .symbol .leftBrace) (hxs : IsSeparated (GivesExpr last) ls xs)
    (hr : r.kind = .symbol .rightBrace) :
    (list (.ok last) (l :: (ls ++ r :: rest))).Gives (.list xs l) rest := by
  unfold list
  refine (gives_eat.2 ⟨rfl, hl⟩).andThen (Gives.map ?_)
  exact commaSeparated_gives hxs (by rintro ⟨⟩) hr (starts_of_givesExpr rfl)
    (givesItems_expression rfl)

theorem call_gives_of_arguments {l p r : Lexeme} {name : String} {ls rest : List Lexeme}
    {xs : List Expr} (hl : l.token = .identifier name) (hp : p.kind = .symbol .leftParen)
    (hxs : IsSeparated (GivesExpr last) ls xs) (hr : r.kind = .symbol .rightParen) :
    (call (.ok last) (l :: p :: (ls ++ r :: rest))).Gives ⟨name, xs, l⟩ rest := by
  unfold call
  refine (gives_identifier.2 ⟨rfl, hl⟩).andThen ?_
  refine (gives_eat.2 ⟨rfl, hp⟩).andThen (Gives.map ?_)
  exact commaSeparated_gives hxs (by rintro ⟨⟩) hr (starts_of_givesExpr rfl)
    (givesItems_expression rfl)

theorem place_gives_of_indices {l : Lexeme} {name : String} {ts rest : List Lexeme}
    {is : List (Option Expr)} (hl : l.token = .identifier name)
    (his : (indices (.ok last) ts).Gives is rest) :
    (place (.ok last) (l :: ts)).Gives ⟨name, is, l⟩ rest := by
  unfold place
  exact (gives_identifier.2 ⟨rfl, hl⟩).followedBy his.map

mutual

theorem atTier_gives {tier : Tier} {ls : List Lexeme} {e : Expr} :
    IsExpr tier ls e → ∀ rest, tier.EndsBefore (headKind last rest) →
      (atTier (.ok last) tier (ls ++ rest)).Gives e rest
  | .level hleft he, rest, hrest => by
    have gleft := atTier_gives hleft _ (he.endsBefore hrest)
    have ge := operators_gives he rest hrest
    rw [List.append_assoc]
    rw [← operand_eq] at gleft
    unfold atTier binary
    exact gleft.followedBy ge
  | .operator hop hx, rest, hrest => unary_operator hop (atTier_gives hx rest hrest)
  | .primary he, rest, hrest => by
    have ge := atTier_gives he rest ⟨hrest.bracket, hrest.paren, fun _ _ => rfl⟩
    obtain ⟨l, us, rfl, hl⟩ := he.starts_primary
    exact unary_of_primary hl ge
  | .literal hv, rest, _ => primary_literal hv
  | @IsExpr.parenthesized _ _ ls _ hl he hr, rest, _ => by
    have ge : GivesExpr last ls _ := ⟨he, atTier_gives he⟩
    obtain ⟨f, us, rfl, hf⟩ := IsExpr.starts he
    rw [List.cons_append, List.append_assoc]
    exact primary_parenthesized hl (ofKind?_of_startsExpr hf) (parenthesized_gives hl ge hr)
  | .cast hl ht hvoid hr hx, rest, hrest =>
    primary_cast hl ht (cast_gives hl ht hvoid hr (atTier_gives hx rest hrest.unary))
  | .list hl hxs hr, rest, _ => by
    rw [List.cons_append, List.append_assoc]
    exact primary_list hl (list_gives hl (separated_gives hxs) hr)
  | .call hl hp hxs hr, rest, _ => by
    rw [List.cons_append, List.cons_append, List.append_assoc]
    exact primary_call (kind_of_identifier hl) (headKind_cons .. ▸ hp)
      (call_gives_of_arguments hl hp (separated_gives hxs) hr)
  | .variable hl his, rest, hrest =>
    primary_place (kind_of_identifier hl) (his.headKind_ne hrest.paren)
      (place_gives_of_indices hl (indices_gives his rest hrest.bracket))

theorem operators_gives {level : Level} {left e : Expr} {ls : List Lexeme} :
    IsOperators level left ls e → ∀ rest, (Tier.binary level).EndsBefore (headKind last rest) →
      (operators (.ok last) level left (ls ++ rest)).Gives e rest
  | .none, rest, hrest => operators_end hrest
  | .some hop hlevel hright he, rest, hrest => by
    have gright := atTier_gives hright _ (he.endsBefore hrest)
    rw [List.cons_append, List.append_assoc]
    exact operators_more hop hlevel gright (operators_gives he rest hrest)

theorem indices_gives {ls : List Lexeme} {is : List (Option Expr)} :
    IsIndices ls is → ∀ rest, headKind last rest ≠ .symbol .leftBracket →
      (indices (.ok last) (ls ++ rest)).Gives is rest
  | .none, rest, hrest => indices_end hrest
  | .empty hl hr his, rest, hrest => indices_more hl (index_empty hr) (indices_gives his rest hrest)
  | .index hl hi hr his, rest, hrest => by
    rw [List.cons_append, List.append_assoc]
    exact indices_more hl (index_some ⟨hi, atTier_gives hi⟩ hr) (indices_gives his rest hrest)

theorem separated_gives {ls : List Lexeme} {xs : List Expr} :
    IsSeparated (IsExpr .expression) ls xs → IsSeparated (GivesExpr last) ls xs
  | .none => .none
  | .some hxs => .some (separatedFrom_gives hxs)

theorem separatedFrom_gives {ls : List Lexeme} {xs : List Expr} :
    IsItemsFrom (IsExpr .expression) ls xs → IsItemsFrom (GivesExpr last) ls xs
  | .one hx => .one ⟨hx, atTier_gives hx⟩
  | .more hx hcomma hxs => .more ⟨hx, atTier_gives hx⟩ hcomma (separatedFrom_gives hxs)

end

/-! ## Simple statements

A simple statement is followed by the symbol that ends the place for it. -/

/-- What a closing symbol says about what stands before it. -/
theorem endsBefore_closing {tier : Tier} {r : Lexeme} {rest : List Lexeme} {closing : Symbol}
    (hr : r.kind = .symbol closing) (hclosing : closing.endsExpr = true) :
    tier.EndsBefore (headKind last (r :: rest)) := by
  rw [headKind_cons, hr]
  exact Tier.endsBefore_symbol hclosing

theorem expression_gives {ls rest : List Lexeme} {e : Expr} (h : IsExpr .expression ls e)
    (hrest : Tier.expression.EndsBefore (headKind last rest)) :
    (expression (.ok last) (ls ++ rest)).Gives e rest :=
  atTier_gives h rest hrest

theorem place_gives {ls rest : List Lexeme} {p : Place} (h : IsPlace ls p)
    (hrest : headKind last rest ≠ .symbol .leftBracket) :
    (place (.ok last) (ls ++ rest)).Gives p rest := by
  cases h with
  | mk hl his => exact place_gives_of_indices hl (indices_gives his rest hrest)

theorem call_gives {ls rest : List Lexeme} {c : Call} (h : IsCall ls c) :
    (call (.ok last) (ls ++ rest)).Gives c rest := by
  cases h with
  | mk hl hp hxs hr =>
    rw [List.cons_append, List.cons_append, List.append_assoc]
    exact call_gives_of_arguments hl hp (separated_gives hxs) hr

theorem condition_gives {ls rest : List Lexeme} {c : Expr} (h : IsCondition ls c) :
    (condition (.ok last) (ls ++ rest)).Gives c rest := by
  cases h with
  | mk hl hc hr =>
    rw [List.cons_append, List.append_assoc]
    exact parenthesized_gives hl ⟨hc, atTier_gives hc⟩ hr

theorem declaration_gives {ls rest : List Lexeme} {d : Declaration} {r : Lexeme} {closing : Symbol}
    (h : IsDeclaration ls d) (hr : r.kind = .symbol closing) (hclosing : closing.endsExpr = true) :
    (declaration (.ok last) (ls ++ r :: rest)).Gives d (r :: rest) := by
  have hends : Tier.expression.EndsBefore (headKind last (r :: rest)) :=
    endsBefore_closing hr hclosing
  unfold declaration
  cases h with
  | plain ht hvoid hp =>
    refine (gives_valueType.2 ⟨_, rfl, ht, hvoid⟩).andThen ?_
    refine (place_gives hp hends.bracket).followedBy (Gives.map ?_)
    refine optionalAfter_none ?_
    rw [headKind_cons, hr]
    rintro ⟨⟩
    cases hclosing
  | @initialized t l type ls ls' p x ht hvoid hp hl hx =>
    rw [List.cons_append, List.append_assoc]
    refine (gives_valueType.2 ⟨_, rfl, ht, hvoid⟩).andThen ?_
    have hassign : headKind last (l :: ls' ++ r :: rest) ≠ .symbol .leftBracket := by
      rw [List.cons_append, headKind_cons, hl]
      rintro ⟨⟩
    refine (place_gives hp hassign).followedBy (Gives.map ?_)
    exact optionalAfter_some hl (expression_gives hx hends)

theorem assignOp_kind {k : TokenKind} {op : AssignOp} (h : AssignOp.ofKind? k = some op) :
    k ≠ .symbol .leftBracket ∧ k ≠ .symbol .leftParen := by
  constructor
  · rintro rfl
    cases h
  · rintro rfl
    cases h

theorem assignment_gives {ls ls' rest : List Lexeme} {target : Place} {l : Lexeme} {op : AssignOp}
    {x : Expr} (htarget : IsPlace ls target) (hop : AssignOp.ofKind? l.kind = some op)
    (hx : IsExpr .expression ls' x) (hrest : Tier.expression.EndsBefore (headKind last rest)) :
    (assignment (.ok last) (ls ++ l :: (ls' ++ rest))).Gives (.assignment target op x l) rest := by
  unfold assignment
  have hnext : headKind last (l :: (ls' ++ rest)) ≠ .symbol .leftBracket := (assignOp_kind hop).1
  refine (place_gives htarget hnext).andThen ?_
  refine (gives_assignOp.2 ⟨rfl, hop⟩).andThen ?_
  exact (expression_gives hx hrest).map

theorem isValueType_of_ofKind? {k : TokenKind} {type : TypeName}
    (h : TypeName.ofKind? k = some type) (hvoid : type ≠ .void) : k.isValueType = true := by
  unfold TypeName.ofKind? at h
  split at h
  · rfl
  · rfl
  · rfl
  · exact absurd (Option.some.inj h).symm hvoid
  · cases h

end Parse

namespace Grammar

theorem IsDeclaration.starts {ls : List Lexeme} {d : Declaration} (h : IsDeclaration ls d) :
    ∃ l us, ls = l :: us ∧ l.kind.isValueType = true := by
  cases h with
  | plain ht hvoid | initialized ht hvoid =>
    exact ⟨_, _, rfl, Parse.isValueType_of_ofKind? ht hvoid⟩

/-- A simple statement begins with a name or a type. -/
theorem IsSimple.starts {ls : List Lexeme} {s : SimpleStatement} (h : IsSimple ls s) :
    ∃ l us, ls = l :: us ∧ (l.kind = .identifier ∨ l.kind.isValueType = true) := by
  cases h with
  | declaration hd =>
    obtain ⟨l, us, rfl, hl⟩ := hd.starts
    exact ⟨l, us, rfl, Or.inr hl⟩
  | assignment htarget =>
    obtain ⟨l, us, rfl, hl⟩ := htarget.starts
    exact ⟨l, _, rfl, Or.inl hl⟩
  | call hc =>
    cases hc with
    | mk hl => exact ⟨_, _, rfl, Or.inl (kind_of_identifier hl)⟩

theorem startsStatement_of_isValueType {k : TokenKind} (h : k.isValueType = true) :
    k.startsStatement = true ∧ k ≠ .keyword .if := by
  unfold TokenKind.isValueType at h
  split at h
  · exact ⟨rfl, by rintro ⟨⟩⟩
  · exact ⟨rfl, by rintro ⟨⟩⟩
  · exact ⟨rfl, by rintro ⟨⟩⟩
  · cases h

/-- The first lexeme of a statement, which is `if` only for an `if`. -/
theorem IsStatement.starts {ls : List Lexeme} {s : Statement} (h : IsStatement ls s) :
    ∃ l us, ls = l :: us ∧ l.kind.startsStatement = true ∧
      (s.isIf = false → l.kind ≠ .keyword .if) := by
  cases h with
  | simple hs =>
    obtain ⟨l, us, rfl, hl⟩ := hs.starts
    refine ⟨l, _, rfl, ?_⟩
    rcases hl with hl | hl
    · rw [hl]
      exact ⟨rfl, fun _ => by rintro ⟨⟩⟩
    · obtain ⟨hstarts, hif⟩ := startsStatement_of_isValueType hl
      exact ⟨hstarts, fun _ => hif⟩
  | ifElse hl => exact ⟨_, _, rfl, by rw [hl]; rfl, fun h => by cases h⟩
  | empty hl | block hl | forLoop hl | whileLoop hl | doWhile hl | breakLoop hl | continueLoop hl
  | returnValue hl =>
    refine ⟨_, _, rfl, ?_⟩
    rw [hl]
    exact ⟨rfl, fun _ => by rintro ⟨⟩⟩

/-- Statements before a closing brace, and the brace, do not begin with `else`. -/
theorem IsStatements.headKind_ne {ls rest : List Lexeme} {body : List Statement} {r : Lexeme}
    {last : Lexeme} (h : IsStatements ls body) (hr : r.kind = .symbol .rightBrace) :
    Parse.headKind last (ls ++ r :: rest) ≠ .keyword .else := by
  cases h with
  | none =>
    rw [List.nil_append, Parse.headKind_cons, hr]
    rintro ⟨⟩
  | more hs =>
    obtain ⟨l, us, rfl, hl, -⟩ := hs.starts
    intro hk
    rw [show l.kind = _ from hk] at hl
    cases hl

/-- What an `if` guards takes no `else` from what follows the whole statement. -/
theorem IsElseChain.headKind_ne {ls rest : List Lexeme} {more : List (Expr × Statement)}
    {otherwise : Option Statement} {s : Statement} {branches : List (Expr × Statement)}
    {l last : Lexeme} (h : IsElseChain ls more otherwise) (hnearest : ls = [] ∨ s.isOpen = false)
    (hrest : (Statement.ifElse branches otherwise l).isOpen = true →
      Parse.headKind last rest ≠ .keyword .else) (hopen : s.isOpen = true) :
    Parse.headKind last (ls ++ rest) ≠ .keyword .else := by
  rcases hnearest with rfl | hclosed
  · cases h with
    | none => exact hrest rfl
  · rw [hclosed] at hopen
    cases hopen

end Grammar

namespace Parse

open Parsed Grammar

variable {last : Lexeme}

theorem simpleStatement_gives {ls rest : List Lexeme} {s : SimpleStatement} {r : Lexeme}
    {closing : Symbol} (h : IsSimple ls s) (hr : r.kind = .symbol closing)
    (hclosing : closing.endsExpr = true) :
    (simpleStatement (.ok last) (ls ++ r :: rest)).Gives s (r :: rest) := by
  have hends : Tier.expression.EndsBefore (headKind last (r :: rest)) :=
    endsBefore_closing hr hclosing
  cases h with
  | declaration hd =>
    have gd : (declaration (.ok last) (ls ++ r :: rest)).Gives _ (r :: rest) :=
      declaration_gives hd hr hclosing
    obtain ⟨l, us, rfl, hl⟩ := hd.starts
    have hname : l.kind ≠ .identifier := by
      intro hk
      rw [hk] at hl
      cases hl
    rw [List.cons_append] at gd ⊢
    unfold simpleStatement
    dsimp only
    rw [if_neg hname, if_pos hl]
    exact gd.map
  | @assignment ls ls' l target op x htarget hop hx =>
    have ga := assignment_gives htarget hop hx hends
    rw [List.append_assoc, List.cons_append]
    cases htarget with
    | @mk n name us is hn his =>
      have hparen : headKind last (l :: (ls' ++ r :: rest)) ≠ .symbol .leftParen :=
        (assignOp_kind hop).2
      have hnext := his.headKind_ne hparen
      rw [List.cons_append] at ga ⊢
      unfold simpleStatement
      dsimp only
      rw [if_pos (kind_of_identifier hn), currentKind_ok]
      dsimp only
      rw [if_neg hnext]
      exact ga
  | call hc =>
    have gc : (call (.ok last) (ls ++ r :: rest)).Gives _ (r :: rest) := call_gives hc
    cases hc with
    | mk hl hp =>
      rw [List.cons_append, List.cons_append] at gc ⊢
      unfold simpleStatement
      dsimp only
      rw [if_pos (kind_of_identifier hl), currentKind_ok]
      dsimp only
      rw [headKind_cons, if_pos hp]
      exact gc.map

theorem optionalSimple_gives {ls rest : List Lexeme} {s : Option SimpleStatement} {r : Lexeme}
    {closing : Symbol} (h : IsOptional IsSimple ls s) (hr : r.kind = .symbol closing)
    (hclosing : closing.endsExpr = true) :
    (optionalSimple (.ok last) closing (ls ++ r :: rest)).Gives s rest := by
  unfold optionalSimple
  cases h with
  | none => exact ifNext_yes hr ⟨rfl, rfl⟩
  | some hs =>
    have gs : (simpleStatement (.ok last) (ls ++ r :: rest)).Gives _ (r :: rest) :=
      simpleStatement_gives hs hr hclosing
    obtain ⟨l, us, rfl, hl⟩ := hs.starts
    refine ifNext_no ?_ (gs.andThen (gives_eat.2 ⟨rfl, hr⟩).map)
    intro hk
    rw [List.cons_append, headKind_cons] at hk
    rw [hk] at hl
    rcases hl with hl | hl <;> cases hl

theorem returnValue_gives {l semi : Lexeme} {ls rest : List Lexeme} {x : Option Expr}
    (hl : l.kind = .keyword .return) (hx : IsOptional (IsExpr .expression) ls x)
    (hsemi : semi.kind = .symbol .semicolon) :
    (returnValue (.ok last) (l :: (ls ++ semi :: rest))).Gives (.returnValue x l) rest := by
  have hends : Tier.expression.EndsBefore (headKind last (semi :: rest)) :=
    endsBefore_closing hsemi rfl
  unfold returnValue
  refine (gives_eat.2 ⟨rfl, hl⟩).andThen ?_
  cases hx with
  | none => exact ifNext_yes hsemi ⟨rfl, rfl⟩
  | some hx =>
    have gx := expression_gives hx hends
    obtain ⟨f, us, rfl, hf⟩ := hx.starts
    refine ifNext_no ?_ (gx.andThen (gives_eat.2 ⟨rfl, hsemi⟩).map)
    intro hk
    rw [List.cons_append, headKind_cons] at hk
    rw [hk] at hf
    cases hf

/-! ## Statements -/

theorem statement_simple {ls rest : List Lexeme} {s : SimpleStatement} {semi : Lexeme}
    (h : IsSimple ls s) (hsemi : semi.kind = .symbol .semicolon) :
    (statement (.ok last) (ls ++ semi :: rest)).Gives (.simple s) rest := by
  have gs : (simpleStatement (.ok last) (ls ++ semi :: rest)).Gives s (semi :: rest) :=
    simpleStatement_gives h hsemi rfl
  have geat : (eat (.ok last) (.symbol .semicolon) (semi :: rest)).Gives semi rest :=
    gives_eat.2 ⟨rfl, hsemi⟩
  obtain ⟨l, us, rfl, hl⟩ := h.starts
  rw [List.cons_append] at gs ⊢
  unfold statement
  dsimp only
  split
  case h_10 => exact gs.andThen geat.map
  all_goals
    next hk =>
      rw [hk] at hl
      rcases hl with hl | hl <;> cases hl

theorem block_gives {l : Lexeme} {ts rest : List Lexeme} {body : List Statement}
    (hl : l.kind = .symbol .leftBrace) (h : (statements (.ok last) ts).Gives body rest) :
    (block (.ok last) (l :: ts)).Gives (body, l) rest := by
  unfold block
  exact (gives_eat.2 ⟨rfl, hl⟩).andThen h.map

theorem branch_gives {cs ts rest : List Lexeme} {c : Expr} {s : Statement} (hc : IsCondition cs c)
    (hs : (statement (.ok last) ts).Gives s rest) :
    (branch (.ok last) (cs ++ ts)).Gives (c, s) rest := by
  unfold branch
  exact (condition_gives hc).andThen hs.map

theorem statements_end {r : Lexeme} {rest : List Lexeme} (hr : r.kind = .symbol .rightBrace) :
    (statements (.ok last) (r :: rest)).Gives [] rest := by
  rw [statements, if_pos hr]
  exact ⟨rfl, rfl⟩

theorem statements_more {l : Lexeme} {ts ts' rest : List Lexeme} {s : Statement}
    {body : List Statement} (hl : l.kind ≠ .symbol .rightBrace)
    (hs : (statement (.ok last) (l :: ts)).Gives s ts')
    (hbody : (statements (.ok last) ts').Gives body rest) :
    (statements (.ok last) (l :: ts)).Gives (s :: body) rest := by
  rw [statements, if_neg hl]
  exact hs.andThen hbody.map

theorem elseChain_end {rest : List Lexeme} (h : headKind last rest ≠ .keyword .else) :
    (elseChain (.ok last) rest).Gives ([], none) rest := by
  unfold elseChain
  cases rest with
  | nil => exact ⟨rfl, rfl⟩
  | cons l us =>
    rw [headKind_cons] at h
    dsimp only
    rw [if_neg h]
    exact ⟨rfl, rfl⟩

mutual

theorem statement_gives {ls : List Lexeme} {s : Statement} :
    IsStatement ls s → ∀ rest, (s.isOpen = true → headKind last rest ≠ .keyword .else) →
      (statement (.ok last) (ls ++ rest)).Gives s rest
  | .empty hl, rest, _ => by
    rw [List.singleton_append, statement, hl]
    exact ⟨rfl, rfl⟩
  | .simple hs hl, rest, _ => by
    rw [List.append_assoc]
    exact statement_simple hs hl
  | .block hl hbody hr, rest, _ => by
    have gbody := statements_gives hbody _ rest hr
    rw [List.cons_append, List.append_assoc, statement, hl]
    exact (block_gives hl gbody).map
  | .ifElse hl hc hs hmore hnearest, rest, hrest => by
    have gs := statement_gives hs _ (hmore.headKind_ne hnearest hrest)
    have gmore := elseChain_gives hmore rest _ _ hrest
    rw [List.cons_append, List.append_assoc, List.append_assoc, statement, hl]
    dsimp only
    unfold ifElse
    refine (gives_eat.2 ⟨rfl, hl⟩).andThen ?_
    exact (branch_gives hc gs).followedBy gmore.map
  | .forLoop hl hp hfirst hsemi hc hsemi' hstep hr hbody, rest, hrest => by
    have gbody := statement_gives hbody rest hrest
    rw [List.cons_append, List.cons_append, List.append_assoc, List.cons_append, List.append_assoc,
      List.cons_append, List.append_assoc, List.cons_append, statement, hl]
    dsimp only
    unfold forLoop
    refine (gives_eat.2 ⟨rfl, hl⟩).andThen ?_
    refine (gives_eat.2 ⟨rfl, hp⟩).andThen ?_
    refine (optionalSimple_gives hfirst hsemi rfl).andThen ?_
    refine (expression_gives hc (endsBefore_closing hsemi' rfl)).andThen ?_
    refine (gives_eat.2 ⟨rfl, hsemi'⟩).andThen ?_
    exact (optionalSimple_gives hstep hr rfl).andThen gbody.map
  | .whileLoop hl hc hbody, rest, hrest => by
    have gbody := statement_gives hbody rest hrest
    rw [List.cons_append, List.append_assoc, statement, hl]
    dsimp only
    unfold whileLoop
    exact (gives_eat.2 ⟨rfl, hl⟩).andThen (branch_gives hc gbody).map
  | @IsStatement.doWhile _ w semi _ cs _ _ hl hbody hw hc hsemi, rest, _ => by
    have hwhile : headKind last (w :: (cs ++ semi :: rest)) ≠ .keyword .else := by
      rw [headKind_cons, hw]
      rintro ⟨⟩
    have gbody := statement_gives hbody _ fun _ => hwhile
    rw [List.cons_append, List.append_assoc, List.cons_append, List.append_assoc,
      List.singleton_append, statement, hl]
    dsimp only
    unfold doWhile
    refine (gives_eat.2 ⟨rfl, hl⟩).andThen (gbody.andThen ?_)
    refine (gives_eat.2 ⟨rfl, hw⟩).andThen ?_
    exact (condition_gives hc).andThen (gives_eat.2 ⟨rfl, hsemi⟩).map
  | .breakLoop hl hsemi, rest, _ => by
    rw [List.cons_append, statement, hl]
    exact (gives_jump.2 ⟨_, rfl, hl, hsemi⟩).map
  | .continueLoop hl hsemi, rest, _ => by
    rw [List.cons_append, statement, hl]
    exact (gives_jump.2 ⟨_, rfl, hl, hsemi⟩).map
  | .returnValue hl hx hsemi, rest, _ => by
    rw [List.cons_append, List.append_assoc, statement, hl]
    exact returnValue_gives hl hx hsemi

theorem statements_gives {ls : List Lexeme} {body : List Statement} :
    IsStatements ls body → ∀ r rest, r.kind = .symbol .rightBrace →
      (statements (.ok last) (ls ++ r :: rest)).Gives body rest
  | .none, r, rest, hr => statements_end hr
  | @IsStatements.more _ ls' _ _ hs hbody, r, rest, hr => by
    have gs := statement_gives hs (ls' ++ r :: rest) fun _ => hbody.headKind_ne hr
    have gbody := statements_gives hbody r rest hr
    obtain ⟨l, us, rfl, hl, -⟩ := hs.starts
    have hbrace : l.kind ≠ .symbol .rightBrace := by
      intro hk
      rw [hk] at hl
      cases hl
    rw [List.append_assoc]
    exact statements_more hbrace gs gbody

theorem elseChain_gives {ls : List Lexeme} {more : List (Expr × Statement)}
    {otherwise : Option Statement} :
    IsElseChain ls more otherwise → ∀ rest branches l,
      ((Statement.ifElse branches otherwise l).isOpen = true →
        headKind last rest ≠ .keyword .else) →
      (elseChain (.ok last) (ls ++ rest)).Gives (more, otherwise) rest
  | .none, rest, _, _, hrest => elseChain_end (hrest rfl)
  | .elseIf he hi hc hs hmore hnearest, rest, branches, l, hrest => by
    have gs := statement_gives hs _ (hmore.headKind_ne hnearest hrest)
    have gmore := elseChain_gives hmore rest branches l hrest
    rw [List.cons_append, List.cons_append, List.append_assoc, List.append_assoc, elseChain,
      if_pos he]
    refine Gives.relax (Gives.relax (ifNext_yes hi (Gives.relax ?_)))
    exact (branch_gives hc gs).followedBy gmore.map
  | .last he hs hif, rest, _, _, hrest => by
    have gs := statement_gives hs rest hrest
    obtain ⟨l, us, rfl, -, hl⟩ := hs.starts
    rw [List.cons_append, elseChain, if_pos he]
    exact Gives.relax (Gives.relax (ifNext_no (hl hif) gs.map))

end

end Parse

end MiniC
