import MiniC.Proofs.Lexeme.Spelled

/-!
# Layout

What can stand between two lexemes: blanks, line breaks, line comments with the line break that ends
them, and block comments that end.  Behind the last lexeme the last comment can also go on to the
end of the text.  `reading p text` is what a text that begins at the place `p` delivers, with the
place of its end.  Layout only moves that place (`reading_layout`), and whatever is no lexeme and no
lexical error is layout (`exists_front`).
-/

namespace MiniC

/-- Blanks, line breaks and comments that end. -/
inductive Layout : List Char → Prop
  | nil : Layout []
  | space {c : Char} {cs : List Char} (hc : Piece.isSpace c = true) (h : Layout cs) :
      Layout (c :: cs)
  | lineComment {body cs : List Char} (hbody : '\n' ∉ body) (h : Layout cs) :
      Layout ('/' :: '/' :: (body ++ '\n' :: cs))
  | blockComment {body cs : List Char} (hbody : ¬ ['*', '/'] <:+: body) (h : Layout cs) :
      Layout ('/' :: '*' :: (body ++ '*' :: '/' :: cs))

/-- Layout at the end of a text, where the last comment need not end. -/
inductive FinalLayout : List Char → Prop
  | ended {cs : List Char} (h : Layout cs) : FinalLayout cs
  | lineComment {cs body : List Char} (h : Layout cs) (hbody : '\n' ∉ body) :
      FinalLayout (cs ++ '/' :: '/' :: body)
  | blockComment {cs body : List Char} (h : Layout cs) (hbody : ¬ ['*', '/'] <:+: body) :
      FinalLayout (cs ++ '/' :: '*' :: body)

theorem Layout.append {cs ds : List Char} (h : Layout cs) (h' : Layout ds) :
    Layout (cs ++ ds) := by
  induction h with
  | nil => exact h'
  | space hc _ ih => exact .space hc ih
  | lineComment hbody _ ih =>
    rw [List.cons_append, List.cons_append, List.append_assoc]
    exact .lineComment hbody ih
  | blockComment hbody _ ih =>
    rw [List.cons_append, List.cons_append, List.append_assoc]
    exact .blockComment hbody ih

theorem Layout.appendFinal {cs ds : List Char} (h : Layout cs) (h' : FinalLayout ds) :
    FinalLayout (cs ++ ds) := by
  cases h' with
  | ended h' => exact .ended (h.append h')
  | lineComment h' hbody =>
    rw [← List.append_assoc]
    exact .lineComment (h.append h') hbody
  | blockComment h' hbody =>
    rw [← List.append_assoc]
    exact .blockComment (h.append h') hbody

/-! ## Comments -/

namespace Piece

variable {c : Char} {body rest : List Char}

theorem blockComment_cons (h : ¬ ['*', '/'] <+: c :: rest) :
    blockComment (c :: rest) = blockComment rest + 1 := by
  rw [blockComment]
  rintro more rfl rfl
  exact h ⟨more, rfl⟩

/-- A block comment goes on through the first closing. -/
theorem blockComment_closed (hbody : ¬ ['*', '/'] <:+: body) :
    blockComment (body ++ '*' :: '/' :: rest) = body.length + 2 := by
  induction body with
  | nil => rfl
  | cons c body ih =>
    have hfirst : ¬ ['*', '/'] <+: c :: (body ++ '*' :: '/' :: rest) := by
      rintro ⟨more, hmore⟩
      cases body with
      | nil => cases hmore
      | cons d body =>
        cases hmore
        exact hbody ⟨[], body, rfl⟩
    rw [List.cons_append, blockComment_cons hfirst,
      ih fun h => hbody (h.trans (List.suffix_cons c body).isInfix), List.length_cons,
      Nat.succ_add]

/-- A block comment without a closing goes on to the end. -/
theorem blockComment_open (hbody : ¬ ['*', '/'] <:+: body) : blockComment body = body.length := by
  induction body with
  | nil => rfl
  | cons c body ih =>
    rw [blockComment_cons fun h => hbody h.isInfix,
      ih fun h => hbody (h.trans (List.suffix_cons c body).isInfix), List.length_cons]

/-- A text behind the opening of a block comment has a first closing or none. -/
theorem exists_closing (text : List Char) :
    (∃ body rest, text = body ++ '*' :: '/' :: rest ∧ ¬ ['*', '/'] <:+: body) ∨
      ¬ ['*', '/'] <:+: text := by
  induction text with
  | nil => exact .inr (by decide)
  | cons c text ih =>
    by_cases hfirst : ['*', '/'] <+: c :: text
    · obtain ⟨rest, hrest⟩ := hfirst
      exact .inl ⟨[], rest, hrest.symm, by decide⟩
    · rcases ih with ⟨body, rest, rfl, hbody⟩ | htext
      · refine .inl ⟨c :: body, rest, rfl, fun h => ?_⟩
        rcases List.infix_cons_iff.1 h with h | h
        · exact hfirst (h.trans ⟨'*' :: '/' :: rest, rfl⟩)
        · exact hbody h
      · refine .inr fun h => ?_
        rcases List.infix_cons_iff.1 h with h | h
        · exact hfirst h
        · exact htext h

theorem run_lineComment (hbody : '\n' ∉ body) (hrest : rest = [] ∨ ∃ more, rest = '\n' :: more) :
    run (· ≠ '\n') (body ++ rest) = body.length := by
  refine run_append (fun c hc => ?_) ?_
  · exact decide_eq_true fun h => hbody (h ▸ hc)
  · rintro c more rfl
    rcases hrest with h | ⟨more', h⟩
    · cases h
    · cases h
      rfl

/-- What layout begins with. -/
theorem cases_of_classify_layout {n : Nat} (h : classify c rest = (.layout, n)) :
    isSpace c = true ∨ c = '/' ∧ ∃ after, rest = '/' :: after ∨ rest = '*' :: after := by
  have hnumber : ∀ m, classifyNumber c rest ≠ (.layout, m) := by
    intro m
    unfold classifyNumber integerRole
    dsimp only
    split
    · rintro ⟨⟩
    · split <;> rintro ⟨⟩
  have hquoted : ∀ m, classifyQuoted rest ≠ (.layout, m) := by
    intro m
    unfold classifyQuoted
    dsimp only
    split <;> rintro ⟨⟩
  have hsymbol : ∀ m, classifySymbol c rest ≠ (.layout, m) := by
    intro m
    unfold classifySymbol
    split <;> rintro ⟨⟩
  unfold classify at h
  split at h
  · next hspace => exact .inl hspace
  split at h
  · exact absurd h (hnumber n)
  split at h
  · exact absurd h (hquoted n)
  split at h
  · cases h
  split at h
  · exact .inr ⟨rfl, _, .inl rfl⟩
  · exact .inr ⟨rfl, _, .inr rfl⟩
  · exact absurd h (hsymbol n)

end Piece

/-! ## Reading -/

/-- What a text delivers that begins at a place, and the place of its end. -/
def reading (p : Position) (text : List Char) :
    List (Except LexicalError Lexeme) × Position :=
  ((placed p (pieces text)).filterMap fun (p, piece) => piece.entry? p,
    (pieces text).foldl Piece.after p)

variable {p : Position} {c : Char} {cs rest gap body : List Char} {n : Nat}

theorem reading_nil (p : Position) : reading p [] = ([], p) := by
  unfold reading
  rw [pieces]
  rfl

theorem reading_piece_layout (h : Piece.classify c rest = (.layout, n)) :
    reading p (c :: rest) = reading (p.advance (c :: rest.take n)) (rest.drop n) := by
  unfold reading
  rw [pieces_cons, h]
  rfl

theorem reading_piece_token {t : Token} (h : Piece.classify c rest = (.token t, n)) :
    reading p (c :: rest) =
      (.ok ⟨t, String.ofList (c :: rest.take n), p⟩ ::
        (reading (p.advance (c :: rest.take n)) (rest.drop n)).1,
      (reading (p.advance (c :: rest.take n)) (rest.drop n)).2) := by
  unfold reading
  rw [pieces_cons, h]
  rfl

theorem reading_piece_rejected {reason : Rejection}
    (h : Piece.classify c rest = (.rejected reason, n)) :
    reading p (c :: rest) =
      (.error ⟨reason, String.ofList (c :: rest.take n), p⟩ ::
        (reading (p.advanceInLine (c :: rest.take n)) (rest.drop n)).1,
      (reading (p.advanceInLine (c :: rest.take n)) (rest.drop n)).2) := by
  unfold reading
  rw [pieces_cons, h]
  rfl

/-! ### Layout is skipped -/

/-- Blanks and line breaks are skipped one by one, although they are read in runs. -/
theorem reading_space (hc : Piece.isSpace c = true) :
    reading p (c :: rest) = reading (p.step c) rest := by
  have hrun : ∀ d ds, Piece.isSpace d = true →
      Piece.classify d ds = (.layout, Piece.run Piece.isSpace ds) := by
    intro d ds hd
    unfold Piece.classify
    rw [if_pos hd]
  rw [reading_piece_layout (hrun c rest hc)]
  cases rest with
  | nil => rfl
  | cons d ds =>
    by_cases hd : Piece.isSpace d = true
    · rw [reading_piece_layout (hrun d ds hd), Piece.run, List.takeWhile_cons, if_pos hd]
      rfl
    · rw [Piece.run, List.takeWhile_cons, if_neg hd]
      rfl

theorem reading_lineComment (hbody : '\n' ∉ body)
    (hrest : rest = [] ∨ ∃ more, rest = '\n' :: more) :
    reading p ('/' :: '/' :: (body ++ rest)) =
      reading (p.advance ('/' :: '/' :: body)) rest := by
  have hclassify : Piece.classify '/' ('/' :: (body ++ rest)) = (.layout, body.length + 1) :=
    congrArg (fun n => (Role.layout, n + 1)) (Piece.run_lineComment hbody hrest)
  rw [reading_piece_layout hclassify, List.take_succ_cons, List.drop_succ_cons, List.take_left,
    List.drop_left]

theorem reading_blockComment (hbody : ¬ ['*', '/'] <:+: body) :
    reading p ('/' :: '*' :: (body ++ '*' :: '/' :: rest)) =
      reading (p.advance ('/' :: '*' :: (body ++ ['*', '/']))) rest := by
  have hclassify : Piece.classify '/' ('*' :: (body ++ '*' :: '/' :: rest)) =
      (.layout, body.length + 2 + 1) :=
    congrArg (fun n => (Role.layout, n + 1)) (Piece.blockComment_closed hbody)
  have hsplit : body ++ '*' :: '/' :: rest = (body ++ ['*', '/']) ++ rest := by simp
  rw [reading_piece_layout hclassify, List.take_succ_cons, List.drop_succ_cons, hsplit,
    List.take_left' (by simp), List.drop_left' (by simp)]

theorem reading_openComment (hbody : ¬ ['*', '/'] <:+: body) :
    reading p ('/' :: '*' :: body) = ([], p.advance ('/' :: '*' :: body)) := by
  have hclassify : Piece.classify '/' ('*' :: body) = (.layout, body.length + 1) :=
    congrArg (fun n => (Role.layout, n + 1)) (Piece.blockComment_open hbody)
  rw [reading_piece_layout hclassify, List.take_succ_cons, List.drop_succ_cons, List.take_length,
    List.drop_length, reading_nil]

/-- Layout in front of a text only moves the place where the text begins. -/
theorem reading_layout (h : Layout gap) :
    reading p (gap ++ rest) = reading (p.advance gap) rest := by
  induction h generalizing p with
  | nil => rfl
  | @space c cs hc _ ih =>
    rw [List.cons_append, reading_space hc, ih]
    rfl
  | @lineComment body cs hbody _ ih =>
    have hbreak : Piece.isSpace '\n' = true := rfl
    rw [List.cons_append, List.cons_append, List.append_assoc, List.cons_append,
      reading_lineComment hbody (.inr ⟨_, rfl⟩), reading_space hbreak, ih, ← List.cons_append,
      ← List.cons_append, Position.advance_append]
    rfl
  | @blockComment body cs hbody _ ih =>
    have hsplit : '/' :: '*' :: (body ++ '*' :: '/' :: cs) =
        ('/' :: '*' :: (body ++ ['*', '/'])) ++ cs := by simp
    have hrest : '/' :: '*' :: (body ++ '*' :: '/' :: cs) ++ rest =
        '/' :: '*' :: (body ++ '*' :: '/' :: (cs ++ rest)) := by simp
    rw [hrest, reading_blockComment hbody, ih, hsplit, Position.advance_append]

/-- Layout at the end of a text delivers nothing. -/
theorem reading_finalLayout (h : FinalLayout gap) : reading p gap = ([], p.advance gap) := by
  cases h with
  | ended h =>
    have hend : reading p (gap ++ []) = reading (p.advance gap) [] := reading_layout h
    rwa [List.append_nil, reading_nil] at hend
  | @lineComment cs body h hbody =>
    have hend := reading_lineComment (p := p.advance cs) hbody (.inl rfl)
    rw [List.append_nil, reading_nil, ← Position.advance_append] at hend
    rw [reading_layout h, hend]
  | blockComment h hbody =>
    rw [reading_layout h, reading_openComment hbody, ← Position.advance_append]

/-- A text begins with layout that ends, is layout as a whole, or begins with a lexeme or a lexical
error. -/
theorem exists_front (c : Char) (rest : List Char) :
    (∃ gap after, c :: rest = gap ++ after ∧ gap ≠ [] ∧ Layout gap) ∨
    FinalLayout (c :: rest) ∨
    (∃ t n, Piece.classify c rest = (.token t, n)) ∨
    ∃ reason n, Piece.classify c rest = (.rejected reason, n) := by
  cases hclassify : Piece.classify c rest with
  | mk role n =>
    cases role with
    | token t => exact .inr (.inr (.inl ⟨t, n, rfl⟩))
    | rejected reason => exact .inr (.inr (.inr ⟨reason, n, rfl⟩))
    | layout =>
      rcases Piece.cases_of_classify_layout hclassify with hc | ⟨rfl, after, rfl | rfl⟩
      · exact .inl ⟨[c], rest, rfl, by simp, .space hc .nil⟩
      · -- a line comment takes the line break behind it along
        obtain ⟨body, left, rfl, hbody, hleft⟩ := Piece.exists_run (· ≠ '\n') after
        have hbody : '\n' ∉ body := fun h => by simpa using hbody _ h
        cases left with
        | nil =>
          rw [List.append_nil]
          exact .inr (.inl (.lineComment .nil hbody))
        | cons d more =>
          have hd : d = '\n' := by simpa using hleft d more rfl
          subst hd
          exact .inl ⟨'/' :: '/' :: (body ++ ['\n']), more, by simp, by simp,
            .lineComment hbody .nil⟩
      · rcases Piece.exists_closing after with ⟨body, more, rfl, hbody⟩ | hopen
        · exact .inl ⟨'/' :: '*' :: (body ++ ['*', '/']), more, by simp, by simp,
            .blockComment hbody .nil⟩
        · exact .inr (.inl (.blockComment .nil hopen))

end MiniC
