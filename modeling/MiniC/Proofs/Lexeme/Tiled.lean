import MiniC.Proofs.Lexeme.Buffered

/-!
# Lexemes tile the source text

`Tiles before items rest` says that the texts of the items stand in `rest` one after the other, with
nothing but layout between them, and that each one carries the place behind what stands in front of
it in the whole source text, `before` included.  Main statement: `produced_tiles`.
-/

namespace MiniC

/-- A string literal without an end. -/
def LexicalError.IsOpenString (e : LexicalError) : Prop :=
  e.reason = .unrecognized ∧ ∃ cs, e.text.toList = '\"' :: cs

/-- The source text of a lexeme or a lexical error. -/
def spellingOf : Except LexicalError Lexeme → String
  | .ok l => l.literal
  | .error e => e.text

/-- The place of a lexeme or a lexical error. -/
def placeOf : Except LexicalError Lexeme → Position
  | .ok l => l.position
  | .error e => e.position

/-- Lexemes and lexical errors stand in a text behind other characters, each at its place. -/
inductive Tiles : List Char → List (Except LexicalError Lexeme) → List Char → Prop
  | done {before gap : List Char} (hgap : FinalLayout gap) : Tiles before [] gap
  | item {before gap text rest : List Char} {entry : Except LexicalError Lexeme}
      {es : List (Except LexicalError Lexeme)} (hgap : Layout gap) (htext : text ≠ [])
      (hspelling : spellingOf entry = String.ofList text)
      (hplace : placeOf entry = .behind (before ++ gap))
      (h : Tiles (before ++ gap ++ text) es rest) :
      Tiles before (entry :: es) (gap ++ (text ++ rest))

/-- A reading of a text behind other characters tiles it, and ends at its end or with a string
literal that has none. -/
def Tiled (before rest : List Char) (r : List (Except LexicalError Lexeme) × Position) : Prop :=
  Tiles before r.1 rest ∧
    (r.2 = .behind (before ++ rest) ∨ ∃ e, .error e ∈ r.1 ∧ e.IsOpenString)

variable {before gap text rest : List Char} {c : Char} {n : Nat}
  {r : List (Except LexicalError Lexeme) × Position}

theorem Tiled.item {entry : Except LexicalError Lexeme} (hgap : Layout gap) (htext : text ≠ [])
    (hspelling : spellingOf entry = String.ofList text)
    (hplace : placeOf entry = .behind (before ++ gap))
    (h : Tiled (before ++ gap ++ text) rest r) :
    Tiled before (gap ++ (text ++ rest)) (entry :: r.1, r.2) := by
  obtain ⟨htiles, hend⟩ := h
  refine ⟨.item hgap htext hspelling hplace htiles, ?_⟩
  rcases hend with hend | ⟨e, hmem, he⟩
  · refine .inl (hend.trans ?_)
    rw [List.append_assoc, List.append_assoc]
  · exact .inr ⟨e, List.mem_cons_of_mem _ hmem, he⟩

/-- What a string literal without an end leaves is tiled, although the end is not at its place. -/
theorem tiled_open (hgap : Layout gap) (p : Position) :
    Tiled before (gap ++ '\"' :: rest)
      ([.error ⟨.unrecognized, String.ofList ('\"' :: rest), .behind (before ++ gap)⟩], p) := by
  have htiles : Tiles before
      [.error ⟨.unrecognized, String.ofList ('\"' :: rest), .behind (before ++ gap)⟩]
      (gap ++ ('\"' :: rest ++ [])) :=
    .item hgap (List.cons_ne_nil _ _) rfl rfl (.done (.ended .nil))
  rw [List.append_nil] at htiles
  exact ⟨htiles, .inr ⟨_, List.mem_cons_self, rfl, rest, String.toList_ofList⟩⟩

/-- Behind some layout, what a text delivers tiles it together with that layout. -/
theorem reading_tiled (hgap : Layout gap) :
    Tiled before (gap ++ rest) (reading (.behind (before ++ gap)) rest) := by
  induction hlength : rest.length using Nat.strong_induction_on generalizing before gap rest with
  | _ length ih =>
    cases rest with
    | nil =>
      rw [reading_nil, List.append_nil]
      exact ⟨.done (.ended hgap), .inl rfl⟩
    | cons c rest =>
      have hbehind : ∀ n, Tiled (before ++ gap ++ c :: rest.take n) (rest.drop n)
          (reading (.behind (before ++ gap ++ c :: rest.take n)) (rest.drop n)) := by
        intro n
        have hshorter : (rest.drop n).length < length := by
          rw [← hlength, List.length_drop, List.length_cons]
          omega
        have hmore : Tiled (before ++ gap ++ c :: rest.take n) ([] ++ rest.drop n)
            (reading (.behind (before ++ gap ++ c :: rest.take n ++ [])) (rest.drop n)) :=
          ih _ hshorter .nil rfl
        rwa [List.append_nil] at hmore
      have hsplit : ∀ n, c :: rest = c :: rest.take n ++ rest.drop n := by
        intro n
        rw [List.cons_append, List.take_append_drop]
      rcases exists_front c rest with
        ⟨gap', after, hfront, hne, hgap'⟩ | hfinal | ⟨t, n, hclassify⟩ | ⟨reason, n, hclassify⟩
      · have hlonger : 0 < gap'.length := List.length_pos_iff.2 hne
        have hshorter : after.length < length := by
          rw [← hlength, hfront, List.length_append]
          omega
        have hmore : Tiled before (gap ++ gap' ++ after)
            (reading (.behind (before ++ (gap ++ gap'))) after) :=
          ih _ hshorter (hgap.append hgap') rfl
        rw [hfront, reading_layout hgap', Position.advance_behind, List.append_assoc before,
          ← List.append_assoc gap]
        exact hmore
      · rw [reading_finalLayout hfinal, Position.advance_behind]
        refine ⟨.done (hgap.appendFinal hfinal), .inl ?_⟩
        rw [List.append_assoc]
      · rw [reading_piece_token hclassify, Position.advance_behind, hsplit n]
        exact (hbehind n).item hgap (List.cons_ne_nil _ _) rfl rfl
      · by_cases hbreak : '\n' ∈ c :: rest.take n
        · rcases Piece.role_of_lineBreak hclassify hbreak with h | ⟨raw, h⟩ | ⟨h, rfl, hall⟩
          · cases h
          · cases h
          · cases h
            rw [reading_piece_rejected hclassify, List.take_of_length_le hall,
              List.drop_of_length_le hall, reading_nil]
            exact tiled_open hgap _
        · rw [reading_piece_rejected hclassify, ← Position.behind_append hbreak, hsplit n]
          exact (hbehind n).item hgap (List.cons_ne_nil _ _) rfl rfl

/-- What `advance` produces for a source text tiles it: the texts stand in it one after the other
with nothing but layout between them, each at the place that counting line breaks and characters
gives.  The end of input is at the end of the text, unless a string literal has no end. -/
theorem produced_tiles (source : String) :
    ∃ items last, (Lookahead.ofSource source).Produces items last ∧
      Tiles [] items source.toList ∧
      (last.position = .behind source.toList ∨ ∃ e, .error e ∈ items ∧ e.IsOpenString) := by
  obtain ⟨htiles, hend⟩ : Tiled [] source.toList (reading .start source.toList) :=
    reading_tiled .nil
  exact ⟨_, _, Lookahead.produces_ofSource source, htiles, hend⟩

end MiniC
