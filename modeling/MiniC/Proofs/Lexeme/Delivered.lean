import MiniC.Parse.Program

/-!
# Reading lexeme by lexeme

`s.Delivers ls` says that reading a stream with `advance` alone gives the lexemes `ls` and then the
end of input, without a lexical error.  In the stream of a source text the end of input stands at
the end alone, so what is delivered is what is readable, if nothing unreadable is left.
-/

namespace MiniC

/-- No token at the front of a text is the end of input. -/
theorem Piece.classify_ne_endOfInput (c : Char) (rest : List Char) :
    (classify c rest).1 ≠ .token .endOfInput := by
  have hword : ∀ word, wordToken word ≠ .endOfInput := by
    intro word
    unfold wordToken
    split <;> rintro ⟨⟩
  have hinteger : ∀ ds, integerRole ds ≠ .token .endOfInput := by
    intro ds
    unfold integerRole
    split <;> rintro ⟨⟩
  have hsymbol : ∀ c rest, (classifySymbol c rest).1 ≠ .token .endOfInput := by
    intro c rest
    unfold classifySymbol
    split <;> rintro ⟨⟩
  unfold classify
  split
  · rintro ⟨⟩
  split
  · unfold classifyNumber
    dsimp only
    split
    · rintro ⟨⟩
    · exact hinteger _
  split
  · unfold classifyQuoted
    dsimp only
    split <;> rintro ⟨⟩
  split
  · intro h
    exact hword _ (Role.token.inj h)
  split
  · rintro ⟨⟩
  · rintro ⟨⟩
  · exact hsymbol _ _

/-- A piece of a text is what `classify` finds at its place. -/
theorem exists_classify_of_mem_pieces {source : List Char} {piece : Piece}
    (h : piece ∈ pieces source) :
    ∃ c rest, piece = ⟨(Piece.classify c rest).1, c :: rest.take (Piece.classify c rest).2⟩ := by
  induction source using pieces.induct with
  | case1 =>
    rw [pieces] at h
    cases h
  | case2 c rest role more hclassify ih =>
    rw [pieces_cons] at h
    rcases List.mem_cons.1 h with rfl | h
    · exact ⟨c, rest, rfl⟩
    · rw [hclassify] at h
      exact ih h

theorem mem_of_mem_placed {p q : Position} {piece : Piece} {ps : List Piece}
    (h : (q, piece) ∈ placed p ps) : piece ∈ ps := by
  induction ps generalizing p with
  | nil => cases h
  | cons first ps ih =>
    rw [placed] at h
    rcases List.mem_cons.1 h with h | h
    · cases h
      exact List.mem_cons_self
    · exact List.mem_cons_of_mem _ (ih h)

/-- A lexeme of a text is a token that `classify` finds, with its characters. -/
theorem exists_classify_of_mem_entries {source : List Char} {l : Lexeme}
    (h : .ok l ∈ entries source) :
    ∃ c rest n, Piece.classify c rest = (.token l.token, n) ∧
      l.literal = String.ofList (c :: rest.take n) := by
  obtain ⟨⟨p, piece⟩, hmem, hentry⟩ := List.mem_filterMap.1 h
  obtain ⟨c, rest, rfl⟩ := exists_classify_of_mem_pieces (mem_of_mem_placed hmem)
  unfold Piece.entry? at hentry
  dsimp only at hentry
  split at hentry
  · cases hentry
  · next t ht =>
    cases hentry
    exact ⟨c, rest, _, Prod.ext ht rfl, rfl⟩
  · cases hentry

theorem entries_ne_endOfInput {source : List Char} {l : Lexeme} (h : .ok l ∈ entries source) :
    l.kind ≠ .endOfInput := by
  obtain ⟨c, rest, n, hclassify, -⟩ := exists_classify_of_mem_entries h
  have hne := Piece.classify_ne_endOfInput c rest
  rw [hclassify] at hne
  intro hkind
  unfold Lexeme.kind at hkind
  cases ht : l.token with
  | endOfInput => exact hne (congrArg _ ht)
  | floatLiteral | intLiteral | stringLiteral | identifier | keyword | symbol =>
    rw [ht] at hkind
    cases hkind

/-! ## Places -/

theorem Position.line_pos_advance {p : Position} (h : 0 < p.line) (text : List Char) :
    0 < (p.advance text).line := by
  induction text generalizing p with
  | nil => exact h
  | cons c text ih =>
    refine ih ?_
    unfold step
    split
    · exact Nat.succ_pos _
    · exact h

theorem line_pos_of_mem_placed {p q : Position} {piece : Piece} {ps : List Piece}
    (hp : 0 < p.line) (h : (q, piece) ∈ placed p ps) : 0 < q.line := by
  induction ps generalizing p with
  | nil => cases h
  | cons first ps ih =>
    rw [placed] at h
    rcases List.mem_cons.1 h with h | h
    · cases h
      exact hp
    · refine ih ?_ h
      unfold Piece.after
      split
      · exact hp
      · exact Position.line_pos_advance hp _

/-- The lexemes of a text have a place. -/
theorem position_ne_nowhere_of_mem_entries {source : List Char} {l : Lexeme}
    (h : .ok l ∈ entries source) : l.position ≠ .nowhere := by
  obtain ⟨⟨p, piece⟩, hmem, hentry⟩ := List.mem_filterMap.1 h
  have hline : 0 < p.line := line_pos_of_mem_placed Nat.one_pos hmem
  unfold Piece.entry? at hentry
  dsimp only at hentry
  split at hentry
  · cases hentry
  · cases hentry
    rintro rfl
    exact Nat.lt_irrefl 0 hline
  · cases hentry

namespace Stream

/-- Reading with `advance` alone gives some lexemes and then the end of input. -/
inductive Delivers : Stream → List Lexeme → Prop
  | done {s : Stream} {l : Lexeme} (h : s.advance.1 = .ok l) (hl : l.kind = .endOfInput) :
      Delivers s []
  | more {s : Stream} {l : Lexeme} {ls : List Lexeme} (h : s.advance.1 = .ok l)
      (hl : l.kind ≠ .endOfInput) (hls : Delivers s.advance.2 ls) : Delivers s (l :: ls)

/-- The end of input stands at the end alone. -/
structure EndsOnce (s : Stream) : Prop where
  last : s.last.kind = .endOfInput
  entries : ∀ l, .ok l ∈ s.entries → l.kind ≠ .endOfInput

theorem endsOnce_ofSource (source : String) : (ofSource source).EndsOnce :=
  ⟨rfl, fun _ => entries_ne_endOfInput⟩

/-- What is delivered is what the stream holds. -/
theorem EndsOnce.delivers_iff {s : Stream} (hs : s.EndsOnce) {ls : List Lexeme} :
    s.Delivers ls ↔ s.entries = ls.map .ok := by
  obtain ⟨es, last⟩ := s
  induction es generalizing ls with
  | nil =>
    constructor
    · intro h
      cases h with
      | done => rfl
      | more h hl =>
        cases h
        exact absurd hs.last hl
    · intro h
      cases ls with
      | nil => exact .done rfl hs.last
      | cons l ls => cases h
  | cons e es ih =>
    have hrest : EndsOnce ⟨es, last⟩ :=
      ⟨hs.last, fun l hl => hs.entries l (List.mem_cons_of_mem _ hl)⟩
    constructor
    · intro h
      cases h with
      | done h hl =>
        have he : e = .ok _ := h
        subst he
        exact absurd hl (hs.entries _ List.mem_cons_self)
      | more h hl hls =>
        have he : e = .ok _ := h
        subst he
        exact congrArg _ ((ih hrest).1 hls)
    · intro h
      cases ls with
      | nil => cases h
      | cons l ls =>
        rw [List.map_cons, List.cons.injEq] at h
        obtain ⟨rfl, h⟩ := h
        exact .more rfl (hs.entries _ List.mem_cons_self) ((ih hrest).2 h)

theorem leadingLexemes_map (ls : List Lexeme) : leadingLexemes (ls.map .ok) = ls := by
  induction ls with
  | nil => rfl
  | cons l ls ih => rw [List.map_cons, leadingLexemes, ih]

theorem entries_eq (es : List (Except LexicalError Lexeme)) :
    es = (leadingLexemes es).map .ok ∨
      ∃ e rest, es.drop (leadingLexemes es).length = .error e :: rest := by
  induction es with
  | nil => exact Or.inl rfl
  | cons entry es ih =>
    cases entry with
    | error e => exact Or.inr ⟨e, es, rfl⟩
    | ok l =>
      rcases ih with h | h
      · exact Or.inl (congrArg _ h)
      · exact Or.inr h

/-- Everything is delivered if no error stands after what is readable. -/
theorem EndsOnce.delivers_iff_readable {s : Stream} (hs : s.EndsOnce) {ls : List Lexeme} :
    s.Delivers ls ↔ (∃ last, s.stop = .ok last) ∧ s.readable = ls := by
  rw [hs.delivers_iff]
  unfold stop unreadable readable
  constructor
  · intro h
    rw [h, leadingLexemes_map, List.drop_eq_nil_of_le (Nat.le_of_eq (List.length_map _))]
    exact ⟨⟨_, rfl⟩, rfl⟩
  · rintro ⟨⟨last, hlast⟩, rfl⟩
    rcases entries_eq s.entries with h | ⟨e, rest, h⟩
    · exact h
    · rw [h] at hlast
      cases hlast

end Stream

end MiniC
