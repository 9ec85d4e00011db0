import MiniC.Proofs.Parse.Complete

/-!
# The lookahead

Functions and global declarations begin alike, with a type and a name with brackets.  The parser of
items skips the brackets without parsing what stands in them and decides by what follows.  Whatever
the grammar derives has matching brackets, so the lookahead stops right after the brackets of the
name: on the parenthesis of a function, and on no parenthesis for a declaration.  Main statement:
`items_gives`.
-/

namespace MiniC

open Parse Grammar

/-! ## Matching brackets -/

/-- Skipping goes over the lexemes without closing a bracket that was open before. -/
def Matched (ls : List Lexeme) : Prop :=
  ∀ depth rest, afterBrackets (depth + 1) (ls ++ rest) = afterBrackets (depth + 1) rest

namespace Matched

variable {l r : Lexeme} {ls ls' : List Lexeme}

theorem nil : Matched [] := fun _ _ => rfl

theorem cons (hleft : l.kind ≠ .symbol .leftBracket) (hright : l.kind ≠ .symbol .rightBracket)
    (h : Matched ls) : Matched (l :: ls) := by
  intro depth rest
  rw [List.cons_append, afterBrackets, if_neg hleft, if_neg hright]
  exact h depth rest

theorem append (h : Matched ls) (h' : Matched ls') : Matched (ls ++ ls') := by
  intro depth rest
  rw [List.append_assoc, h, h']

/-- A bracket and its partner. -/
theorem bracketed (hl : l.kind = .symbol .leftBracket) (h : Matched ls)
    (hr : r.kind = .symbol .rightBracket) (h' : Matched ls') :
    Matched (l :: (ls ++ r :: ls')) := by
  have hne : r.kind ≠ .symbol .leftBracket := by
    rw [hr]
    rintro ⟨⟩
  intro depth rest
  rw [List.cons_append, afterBrackets, if_pos hl, List.append_assoc, h, List.cons_append,
    afterBrackets, if_neg hne, if_pos hr]
  exact h' depth rest

theorem cons_of_kind {k : TokenKind} (hk : l.kind = k)
    (hne : k ≠ .symbol .leftBracket ∧ k ≠ .symbol .rightBracket) (h : Matched ls) :
    Matched (l :: ls) := by
  subst hk
  exact h.cons hne.1 hne.2

theorem singleton_of_kind {k : TokenKind} (hk : l.kind = k)
    (hne : k ≠ .symbol .leftBracket ∧ k ≠ .symbol .rightBracket) : Matched [l] :=
  nil.cons_of_kind hk hne

end Matched

/-- Operators and the names of types are no brackets. -/
theorem not_bracket_of_ofKind? {α : Type} {f : TokenKind → Option α} {k : TokenKind} {x : α}
    (h : f k = some x) (hleft : f (.symbol .leftBracket) = none)
    (hright : f (.symbol .rightBracket) = none) :
    k ≠ .symbol .leftBracket ∧ k ≠ .symbol .rightBracket := by
  constructor
  · rintro rfl
    rw [hleft] at h
    cases h
  · rintro rfl
    rw [hright] at h
    cases h

mutual

theorem matched_expr {tier : Tier} {ls : List Lexeme} {e : Expr} : IsExpr tier ls e → Matched ls
  | .level hleft he => (matched_expr hleft).append (matched_operators he)
  | .operator hop hx => (matched_expr hx).cons_of_kind rfl (not_bracket_of_ofKind? hop rfl rfl)
  | .primary he => matched_expr he
  | .literal hv => by
    refine Matched.singleton_of_kind rfl ?_
    obtain hl | hl | hl := kind_of_literal hv <;> rw [hl] <;> decide
  | .parenthesized hl he hr =>
    ((matched_expr he).append (.singleton_of_kind hr (by decide))).cons_of_kind hl (by decide)
  | .cast hl ht _ hr hx =>
    (((matched_expr hx).cons_of_kind hr (by decide)).cons_of_kind rfl
      (not_bracket_of_ofKind? ht rfl rfl)).cons_of_kind hl (by decide)
  | .list hl hxs hr =>
    ((matched_separated hxs).append (.singleton_of_kind hr (by decide))).cons_of_kind hl (by decide)
  | .call hl hp hxs hr =>
    (((matched_separated hxs).append (.singleton_of_kind hr (by decide))).cons_of_kind hp
      (by decide)).cons_of_kind (kind_of_identifier hl) (by decide)
  | .variable hl his => (matched_indices his).cons_of_kind (kind_of_identifier hl) (by decide)

theorem matched_operators {level : Level} {left e : Expr} {ls : List Lexeme} :
    IsOperators level left ls e → Matched ls
  | .none => .nil
  | .some hop _ hright he =>
    ((matched_expr hright).append (matched_operators he)).cons_of_kind rfl
      (not_bracket_of_ofKind? hop rfl rfl)

theorem matched_indices {ls : List Lexeme} {is : List (Option Expr)} : IsIndices ls is → Matched ls
  | .none => .nil
  | .empty hl hr his => Matched.nil.bracketed hl hr (matched_indices his)
  | .index hl hi hr his => (matched_expr hi).bracketed hl hr (matched_indices his)

theorem matched_separated {ls : List Lexeme} {xs : List Expr} :
    IsSeparated (IsExpr .expression) ls xs → Matched ls
  | .none => .nil
  | .some hxs => matched_separatedFrom hxs

theorem matched_separatedFrom {ls : List Lexeme} {xs : List Expr} :
    IsItemsFrom (IsExpr .expression) ls xs → Matched ls
  | .one hx => matched_expr hx
  | .more hx hcomma hxs =>
    (matched_expr hx).append ((matched_separatedFrom hxs).cons_of_kind hcomma (by decide))

end

/-! ## After the brackets of a name -/

theorem afterBrackets_of_ne {l : Lexeme} {rest : List Lexeme}
    (hl : l.kind ≠ .symbol .leftBracket) : afterBrackets 0 (l :: rest) = l :: rest := by
  rw [afterBrackets, if_neg hl]

/-- The indices of a name are skipped as a whole. -/
theorem afterBrackets_indices {ls : List Lexeme} {is : List (Option Expr)} :
    IsIndices ls is → ∀ rest, afterBrackets 0 (ls ++ rest) = afterBrackets 0 rest
  | .none, _ => rfl
  | .empty (r := r) hl hr his, rest => by
    have hne : r.kind ≠ .symbol .leftBracket := by
      rw [hr]
      rintro ⟨⟩
    rw [List.cons_append, List.cons_append, afterBrackets, if_pos hl, afterBrackets, if_neg hne,
      if_pos hr, afterBrackets_indices his]
  | .index (r := r) hl hi hr his, rest => by
    have hne : r.kind ≠ .symbol .leftBracket := by
      rw [hr]
      rintro ⟨⟩
    rw [List.cons_append, afterBrackets, if_pos hl, List.append_assoc, matched_expr hi,
      List.cons_append, afterBrackets, if_neg hne, if_pos hr, afterBrackets_indices his]

/-- The lookahead after a type and a place stops behind the place. -/
theorem afterBrackets_place {t l : Lexeme} {ls rest : List Lexeme} {p : Place} (h : IsPlace ls p)
    (hl : l.kind ≠ .symbol .leftBracket) :
    afterBrackets 0 ((t :: (ls ++ l :: rest)).drop 2) = l :: rest := by
  cases h with
  | mk _ his =>
    rw [List.cons_append, List.drop_succ_cons, List.drop_succ_cons, List.drop_zero,
      afterBrackets_indices his, afterBrackets_of_ne hl]

theorem afterBrackets_function {ls : List Lexeme} {f : FunctionDecl} (rest : List Lexeme)
    (h : IsFunction ls f) :
    ∃ l us, afterBrackets 0 ((ls ++ rest).drop 2) = l :: us ∧ l.kind = .symbol .leftParen := by
  cases h with
  | @mk t l _ _ _ _ ls _ _ _ _ _ _ hp hl =>
    rw [List.cons_append, List.append_assoc, List.cons_append,
      afterBrackets_place hp (by rw [hl]; decide)]
    exact ⟨_, _, rfl, hl⟩

theorem afterBrackets_global {ls : List Lexeme} {d : Declaration} (rest : List Lexeme)
    (h : IsGlobal ls d) :
    ∃ l us, afterBrackets 0 ((ls ++ rest).drop 2) = l :: us ∧ l.kind ≠ .symbol .leftParen := by
  cases h with
  | mk hd hsemi =>
    cases hd with
    | plain _ _ hp =>
      rw [List.append_assoc, List.cons_append, List.singleton_append,
        afterBrackets_place hp (by rw [hsemi]; decide)]
      exact ⟨_, _, rfl, by rw [hsemi]; decide⟩
    | initialized _ _ hp hl =>
      rw [List.append_assoc, List.cons_append, List.append_assoc, List.cons_append,
        afterBrackets_place hp (by rw [hl]; decide)]
      exact ⟨_, _, rfl, by rw [hl]; decide⟩

/-! ## Programs -/

namespace Parse

open Parsed

variable {last : Lexeme}

/-- The lookahead takes what is derived as a function for one, whatever follows. -/
theorem item_of_isFunction {stop : Stop} {ls rest : List Lexeme} {f : FunctionDecl}
    (h : IsFunction ls f) :
    item stop (ls ++ rest) = (function stop (ls ++ rest)).map .function := by
  obtain ⟨l, us, hafter, hl⟩ := afterBrackets_function rest h
  unfold item
  rw [hafter, currentKind]
  dsimp only
  rw [if_pos hl]

/-- The lookahead takes what is derived as a global declaration for one, whatever follows. -/
theorem item_of_isGlobal {stop : Stop} {ls rest : List Lexeme} {d : Declaration}
    (h : IsGlobal ls d) : item stop (ls ++ rest) = (global stop (ls ++ rest)).map .global := by
  obtain ⟨l, us, hafter, hl⟩ := afterBrackets_global rest h
  unfold item
  rw [hafter, currentKind]
  dsimp only
  rw [if_neg hl]

theorem parameter_gives {ls rest : List Lexeme} {x : Parameter} (h : IsParameter ls x)
    (hrest : headKind last rest ≠ .symbol .leftBracket) :
    (parameter (.ok last) (ls ++ rest)).Gives x rest := by
  cases h with
  | mk ht hvoid hp =>
    unfold parameter
    exact (gives_valueType.2 ⟨_, rfl, ht, hvoid⟩).andThen (place_gives hp hrest).map

theorem parameters_give {ls rest : List Lexeme} {xs : List Parameter} {r : Lexeme}
    (h : IsSeparated IsParameter ls xs) (hr : r.kind = .symbol .rightParen) :
    (commaSeparated (.ok last) .rightParen (ls ++ r :: rest) fun us _ =>
      parameter (.ok last) us).Gives xs rest := by
  refine commaSeparated_gives h (by rintro ⟨⟩) hr ?_ ?_
  · rintro ls x ⟨ht, hvoid, -⟩
    refine ⟨_, _, rfl, fun hk => ?_⟩
    rw [hk] at ht
    cases ht
  · rintro us - ls x s left rfl hx hs hends
    refine parameter_gives hx ?_
    rw [hs]
    rcases hends with rfl | rfl <;> rintro ⟨⟩

theorem function_gives {ls rest : List Lexeme} {f : FunctionDecl} (h : IsFunction ls f) :
    (function (.ok last) (ls ++ rest)).Gives f rest := by
  cases h with
  | mk ht hp hl hparameters hr hb hbody he =>
    rw [List.cons_append, List.append_assoc, List.cons_append, List.append_assoc, List.cons_append,
      List.cons_append, List.append_assoc, List.singleton_append]
    unfold function
    refine (gives_returnType.2 ⟨_, rfl, ht⟩).andThen ?_
    refine (place_gives hp ?_).andThen ?_
    · rw [headKind_cons, hl]
      rintro ⟨⟩
    refine (gives_eat.2 ⟨rfl, hl⟩).andThen ?_
    refine (parameters_give hparameters hr).andThen ?_
    exact (block_gives hb (statements_gives hbody _ rest he)).map

theorem global_gives {ls rest : List Lexeme} {d : Declaration} (h : IsGlobal ls d) :
    (global (.ok last) (ls ++ rest)).Gives d rest := by
  cases h with
  | mk hd hsemi =>
    rw [List.append_assoc, List.singleton_append]
    unfold global
    exact (declaration_gives hd hsemi rfl).andThen (gives_eat.2 ⟨rfl, hsemi⟩).map

theorem item_gives {ls rest : List Lexeme} {i : Item} (h : IsItem ls i) :
    (item (.ok last) (ls ++ rest)).Gives i rest := by
  cases h with
  | function hf =>
    rw [item_of_isFunction hf]
    exact (function_gives hf).map
  | global hd =>
    rw [item_of_isGlobal hd]
    exact (global_gives hd).map

theorem items_more {l : Lexeme} {ts ts' rest : List Lexeme} {i : Item} {is : List Item}
    (hi : (item (.ok last) (l :: ts)).Gives i ts') (his : (items (.ok last) ts').Gives is rest) :
    (items (.ok last) (l :: ts)).Gives (i :: is) rest := by
  rw [items]
  exact (hi.followedBy his.map).relax

/-- The lexemes of items are read to their end. -/
theorem items_gives {ls : List Lexeme} {is : List Item} (h : IsItems ls is) :
    (items (.ok last) ls).Gives is [] := by
  induction h with
  | none =>
    rw [items]
    exact ⟨rfl, rfl⟩
  | @more ls ls' i is hi his ih =>
    have gi : (item (.ok last) (ls ++ ls')).Gives i ls' := item_gives hi
    cases hts : ls ++ ls' with
    | nil =>
      rw [hts] at gi
      exact absurd gi.shorter (Nat.not_lt_zero _)
    | cons l us =>
      rw [hts] at gi
      exact items_more gi ih

end Parse

end MiniC
