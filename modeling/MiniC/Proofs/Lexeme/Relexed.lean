import MiniC.Proofs.Lexeme.Buffered

/-!
# Spellings that are read back

`Spaced literals text` says that some spellings stand in a text with layout between them that begins
with a blank or a line break.  Such a gap ends every token in front of it, so a text in which
spelled lexemes are spaced delivers them, up to their places (`reading_spaced`).  Main statement:
`relexing_stable`.
-/

namespace MiniC

/-- Layout that sets lexemes apart: it begins with a blank or a line break. -/
structure Gap (cs : List Char) : Prop where
  layout : Layout cs
  begins : ∃ c more, cs = c :: more ∧ Piece.isSpace c = true

/-- Some spellings with a gap between every two neighbours. -/
inductive Spaced : List String → List Char → Prop
  | nil : Spaced [] []
  | one {literal : String} : Spaced [literal] literal.toList
  | more {literal literal' : String} {literals : List String} {gap text : List Char}
      (hgap : Gap gap) (h : Spaced (literal' :: literals) text) :
      Spaced (literal :: literal' :: literals) (literal.toList ++ (gap ++ text))

variable {ls : List Lexeme} {l : Lexeme} {gap text after : List Char} {p : Position}

theorem Gap.apart (h : Gap gap) (text : List Char) : Piece.Apart (gap ++ text) := by
  obtain ⟨c, more, rfl, hc⟩ := h.begins
  exact .inr ⟨c, more ++ text, rfl, hc⟩

/-- A spelled lexeme is read back, whatever stands apart from it. -/
theorem reading_spelled (hl : l.IsSpelled) (hafter : Piece.Apart after) :
    ∃ q, (reading p (l.literal.toList ++ after)).1 =
      .ok ⟨l.token, l.literal, p⟩ :: (reading q after).1 := by
  obtain ⟨c, cs, hliteral, hclassify⟩ := hl
  have hapart := (Piece.classify_apart hclassify).2 after hafter
  rw [List.take_length] at hapart
  rw [hliteral, List.cons_append, reading_piece_token hapart, List.take_left, List.drop_left,
    ← hliteral, String.ofList_toList]
  exact ⟨_, rfl⟩

/-- Spelled lexemes with gaps between them are read back, up to their places. -/
theorem reading_spaced (hls : AllSpelled ls) (h : Spaced (ls.map Lexeme.literal) text) :
    ∃ ls' : List Lexeme, (reading p text).1 = ls'.map .ok ∧
      ls'.map Lexeme.unplaced = ls.map Lexeme.unplaced := by
  induction ls generalizing p text with
  | nil =>
    cases h
    exact ⟨[], congrArg Prod.fst (reading_nil p), rfl⟩
  | cons l ls ih =>
    obtain ⟨hl, hls⟩ := allSpelled_cons.1 hls
    cases ls with
    | nil =>
      cases h
      obtain ⟨q, hq⟩ := reading_spelled (p := p) hl (.inl rfl)
      rw [List.append_nil, reading_nil] at hq
      exact ⟨[⟨l.token, l.literal, p⟩], hq, rfl⟩
    | cons l' ls =>
      cases h with
      | more hgap h =>
        obtain ⟨q, hq⟩ := reading_spelled (p := p) hl (hgap.apart _)
        obtain ⟨ls', hls', heq⟩ := ih hls h
        rw [hq, reading_layout hgap.layout, hls']
        exact ⟨⟨l.token, l.literal, p⟩ :: ls', rfl, congrArg (l.unplaced :: ·) heq⟩

theorem spaced_joined (literals : List String) :
    Spaced literals (" ".intercalate literals).toList := by
  rw [String.toList_intercalate]
  induction literals with
  | nil => exact .nil
  | cons literal literals ih =>
    cases literals with
    | nil =>
      rw [List.map_singleton, List.intercalate_singleton]
      exact .one
    | cons literal' literals =>
      have hgap : Gap [' '] := ⟨.space rfl .nil, ' ', [], rfl, rfl⟩
      rw [List.map_cons, List.map_cons, List.intercalate_cons_cons, List.append_assoc]
      exact .more hgap ih

/-- The text of spelled lexemes with blanks between them delivers them, up to their places. -/
theorem delivers_joined (h : AllSpelled ls) :
    ∃ ls', (Stream.ofSource (" ".intercalate (ls.map Lexeme.literal))).Delivers ls' ∧
      ls'.map Lexeme.unplaced = ls.map Lexeme.unplaced := by
  obtain ⟨ls', hls', heq⟩ := reading_spaced (p := .start) h (spaced_joined _)
  exact ⟨ls', (Stream.endsOnce_ofSource _).delivers_iff.2 hls', heq⟩

/-- Lexemes that differ in their places alone are the same tokens with the same spellings. -/
theorem tokens_eq_of_unplaced {ls' : List Lexeme}
    (h : ls.map Lexeme.unplaced = ls'.map Lexeme.unplaced) :
    ls.map (fun l => (l.token, l.literal)) = ls'.map fun l => (l.token, l.literal) := by
  have hsame := congrArg (List.map fun l : Lexeme => (l.token, l.literal)) h
  rwa [List.map_map, List.map_map] at hsame

/-- For every source text, the lexemes that it gives are read back from every text that has their
spellings with gaps between them, without a lexical error and up to their places. -/
theorem relexing_stable {source text : String} {items : List (Except LexicalError Lexeme)}
    {last : Lexeme} (h : (Lookahead.ofSource source).Produces items last)
    (htext : Spaced ((lexemesOf items).map Lexeme.literal) text.toList) :
    ∃ (ls : List Lexeme) (last' : Lexeme), (Lookahead.ofSource text).Produces (ls.map .ok) last' ∧
      ls.map (fun l => (l.token, l.literal)) =
        (lexemesOf items).map fun l => (l.token, l.literal) := by
  obtain ⟨rfl, -⟩ := h.unique (Lookahead.produces_ofSource source)
  have hspelled : AllSpelled (lexemesOf (entries source.toList)) :=
    fun l hl => isSpelled_of_mem_entries (mem_lexemesOf.1 hl)
  obtain ⟨ls, hls, heq⟩ := reading_spaced (p := .start) hspelled htext
  have hproduces : (Lookahead.ofSource text).Produces (entries text.toList) (endOf text.toList) :=
    Lookahead.produces_ofSource text
  have hentries : entries text.toList = ls.map .ok := hls
  rw [hentries] at hproduces
  exact ⟨ls, _, hproduces, tokens_eq_of_unplaced heq⟩

/-- A number, a name, a string literal with a line break and the opening of a comment, and a
reserved word: first with nothing between them but a character that is no lexeme, then with gaps. -/
theorem tight_relexed :
    let source := "7.x#\"a\n//b\"if"
    let text := "7.\n/* c */x\t\"a\n//b\" // d\nif"
    let items := entries source.toList
    ∃ last, (Lookahead.ofSource source).Produces items last ∧
      Spaced ((lexemesOf items).map Lexeme.literal) text.toList ∧
      ∃ (ls : List Lexeme) (last' : Lexeme), (Lookahead.ofSource text).Produces (ls.map .ok) last' ∧
        ls.map (fun l => (l.token, l.literal)) =
          (lexemesOf items).map fun l => (l.token, l.literal) := by
  intro source text items
  have hliterals : (lexemesOf items).map Lexeme.literal = ["7.", "x", "\"a\n//b\"", "if"] := by
    decide +kernel
  have hcomment : Gap "\n/* c */".toList :=
    ⟨.space rfl (@Layout.blockComment [' ', 'c', ' '] [] (by decide) .nil), '\n', _, rfl, rfl⟩
  have htab : Gap ['\t'] := ⟨.space rfl .nil, '\t', [], rfl, rfl⟩
  have hline : Gap " // d\n".toList :=
    ⟨.space rfl (@Layout.lineComment [' ', 'd'] [] (by decide) .nil), ' ', _, rfl, rfl⟩
  have htext : text.toList = "7.".toList ++ ("\n/* c */".toList ++ ("x".toList ++ (['\t'] ++
      ("\"a\n//b\"".toList ++ (" // d\n".toList ++ "if".toList))))) := by
    decide +kernel
  have hspaced : Spaced ((lexemesOf items).map Lexeme.literal) text.toList := by
    rw [hliterals, htext]
    exact .more hcomment (.more htab (.more hline .one))
  have hproduces := Lookahead.produces_ofSource source
  exact ⟨_, hproduces, hspaced, relexing_stable hproduces hspaced⟩

end MiniC
