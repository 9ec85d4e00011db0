import MiniC.Proofs.Decimal.Numeral
import MiniC.Proofs.Eval.ReadBack
import MiniC.Proofs.Lexeme.Buffered
import MiniC.Proofs.Lexeme.Layout

/-!
# Readers of decimal ints

Three readers take decimal text for an int: the lexer, casts from strings, and `inputi`.  They agree
with each other on every run of digits, and the last two with what `printi` and casts to strings
write.  Main statement: `decimal_readers_agree`.
-/

namespace MiniC

namespace Decimal

/-! ## What the readers make of a text -/

/-- A source text is an int literal and nothing else; without an int, it is an integer literal out
of range. -/
def LexedAs (text : String) (n? : Option Int64) : Prop :=
  ∃ last, (Lookahead.ofSource text).Produces
    [match n? with
      | some n => .ok ⟨.intLiteral n, text, .start⟩
      | none => .error ⟨.outOfRange, text, .start⟩] last

/-- A text with any white space around it is cast to an int; without one, its type mismatches. -/
def CastAs (text : String) (n? : Option Int64) : Prop :=
  ∀ before after : List Char, (∀ c ∈ before, Text.isWhiteSpace c = true) →
    (∀ c ∈ after, Text.isWhiteSpace c = true) →
    let surrounded := String.ofList (before ++ text.toList ++ after)
    (Value.cast .int (.string surrounded)).mapError Fault.kind =
      match n? with
      | some n => .ok (.int n)
      | none => .error .mismatchedType

/-- `inputi` returns an int if a text is the next word of the input, and consumes it; without an
int, it consumes the word too and fails. -/
def EnteredAs (text : String) (n? : Option Int64) : Prop :=
  ∀ (steps : Nat) (m : Machine) (blanks rest : List UInt8),
    (∀ b ∈ blanks, Text.isBlankByte b = true) → (∀ b ∈ rest.head?, Text.isBlankByte b = true) →
    m.console.input.bytes = blanks ++ (Text.Utf8.encode text ++ rest) →
    ∃ left, left.bytes = rest ∧
      match n? with
      | some n => callBuiltin (steps + 1) .inputi [] m = .done (.int n) (m.withInput left)
      | none => ∃ fault, fault.kind = .inputOutput ∧
          callBuiltin (steps + 1) .inputi [] m = .failed (.unlocated fault) (m.withInput left)

/-! ## They read alike -/

variable {ds : List Char} {text : String}

/-- A run of digits is a single piece. -/
theorem classify_of_isNumeral {d : Char} (h : isNumeral (d :: ds) = true) :
    Piece.classify d ds = (Piece.integerRole (d :: ds), ds.length) := by
  obtain ⟨hdigit, hdigits⟩ := List.forall_mem_cons.1 (isNumeral_iff.1 h).2
  have hspace : ¬ Piece.isSpace d = true := by
    intro hspace
    rw [Piece.not_isDigit_of_isSpace hspace] at hdigit
    cases hdigit
  have hends : Piece.Ends Char.isDigit [] := by
    rintro c more ⟨⟩
  have hnumber : Piece.classifyNumber d (ds ++ []) = (Piece.integerRole (d :: ds), ds.length) :=
    Piece.classifyNumber_int hdigits hends (by simp)
  rw [List.append_nil] at hnumber
  unfold Piece.classify
  rw [if_neg hspace, if_pos hdigit, hnumber]

theorem lexedAs_of_isNumeral (h : isNumeral ds = true) :
    LexedAs (String.ofList ds) (readInt? ds) := by
  have hproduces := Lookahead.produces_ofSource (String.ofList ds)
  refine ⟨endOf (String.ofList ds).toList, ?_⟩
  cases ds with
  | nil => cases h
  | cons d ds =>
    have hclassify := classify_of_isNumeral h
    have hentries : entries (String.ofList (d :: ds)).toList = (reading .start (d :: ds)).1 := by
      rw [String.toList_ofList]
      rfl
    rw [hentries] at hproduces
    unfold Piece.integerRole at hclassify
    cases hread : readInt? (d :: ds) with
    | some n =>
      rw [hread] at hclassify
      rw [reading_piece_token hclassify, List.take_length, List.drop_length, reading_nil]
        at hproduces
      exact hproduces
    | none =>
      rw [hread] at hclassify
      rw [reading_piece_rejected hclassify, List.take_length, List.drop_length, reading_nil]
        at hproduces
      exact hproduces

theorem castAs_of_notWhiteSpace (h : ∀ c ∈ text.toList, Text.isWhiteSpace c = false) :
    CastAs text (readInt? text.toList) := by
  intro before after hbefore hafter
  have htrim := Text.trim_surrounded hbefore hafter h
  unfold Value.cast
  dsimp only
  rw [String.toList_ofList, htrim]
  cases readInt? text.toList <;> rfl

theorem enteredAs_of_isWord (h : Text.IsWord text) : EnteredAs text (readInt? text.toList) := by
  intro steps m blanks rest hblanks hrest hinput
  have hbytes := Reading.word_delimited h hblanks hrest
  rw [← hinput] at hbytes
  obtain ⟨left, hread, hleft⟩ := Reading.ofSource_of_ofBytes hbytes
  have hword : m.console.input.readWord = (.ok text, left) := hread
  have hint : Builtin.readAs readInt? .wordNoInt m.console.input =
      (match readInt? text.toList with
        | some n => .ok n
        | none => .error (.wordNoInt text), left) := by
    unfold Builtin.readAs
    rw [hword]
    dsimp only
    cases readInt? text.toList <;> rfl
  have hcall := invoke_reader hint steps (b := .inputi) .int rfl rfl fun _ _ => rfl
  refine ⟨left, hleft, ?_⟩
  cases hread : readInt? text.toList with
  | some n =>
    rw [hread] at hcall
    exact hcall
  | none =>
    rw [hread] at hcall
    exact ⟨_, rfl, hcall⟩

/-! ## What is written -/

/-- `printi` writes the text of an int as a line. -/
theorem callBuiltin_printi (steps : Nat) (n : Int64) :
    callBuiltin (steps + 1) .printi [.int n] =
      Run.writeLine (ofInt64 n) >>= fun _ => pure .void := by
  funext m
  cases hwrite : m.console.output.writeLine (ofInt64 n) with
  | mk result output =>
    have hcall := Printable.callBuiltin_printer (i := .int n) steps (fun _ hs => by cases hs) hwrite
    have hline : Run.writeLine (ofInt64 n) m = Run.lift result (m.withOutput output) := by
      unfold Run.writeLine
      dsimp only
      rw [hwrite]
      rfl
    refine hcall.trans ?_
    cases result with
    | ok _ => exact (Run.bind_of_done hline fun _ => pure Value.void).symm
    | error fault => exact (Run.bind_of_failed hline fun _ => pure Value.void).symm

theorem not_isWhiteSpace_ofInt64 (n : Int64) :
    ∀ c ∈ (ofInt64 n).toList, Text.isWhiteSpace c = false := by
  intro c hc
  rcases eq_or_isDigit_of_mem_ofInt hc with rfl | hdigit
  · decide
  · exact not_isWhiteSpace_of_isDigit hdigit

theorem isWord_of_isNumeral (h : isNumeral ds = true) : Text.IsWord (String.ofList ds) := by
  obtain ⟨hne, hdigits⟩ := isNumeral_iff.1 h
  constructor
  · intro hempty
    exact hne (by simpa using congrArg String.toList hempty)
  · intro c hc
    rw [String.toList_ofList] at hc
    rw [Bool.eq_false_iff]
    intro hblank
    have hdigit := hdigits c hc
    rcases Text.isBlank_iff.1 hblank with rfl | rfl | rfl | rfl | rfl <;> cases hdigit

/-- The readers of a run of digits give what `readInt?` gives. -/
theorem readers_of_isNumeral (h : isNumeral ds = true) :
    LexedAs (String.ofList ds) (readInt? ds) ∧ CastAs (String.ofList ds) (readInt? ds) ∧
      EnteredAs (String.ofList ds) (readInt? ds) := by
  have hspace : ∀ c ∈ (String.ofList ds).toList, Text.isWhiteSpace c = false := by
    intro c hc
    rw [String.toList_ofList] at hc
    exact not_isWhiteSpace_of_isDigit ((isNumeral_iff.1 h).2 c hc)
  have hcast := castAs_of_notWhiteSpace hspace
  have hentered := enteredAs_of_isWord (isWord_of_isNumeral h)
  rw [String.toList_ofList] at hcast hentered
  exact ⟨lexedAs_of_isNumeral h, hcast, hentered⟩

end Decimal

open Decimal

/-- Readers and writers of decimal ints agree.  A cast of an int to a string gives the text that
`printi` writes as a line; that text is cast back to the int with any white space around it,
`inputi` returns the int where the text is a word of the input, and unless the int is negative, the
text is an int literal of it and nothing else.  And for every run of digits, with any zeros in front,
the lexer, casts and `inputi` all give the number that it stands for if that is in range, and all
reject it if it is not. -/
theorem decimal_readers_agree :
    (∀ n : Int64, ∃ text : String,
      Value.cast .string (.int n) = .ok (.string text) ∧
      (∀ steps, callBuiltin (steps + 1) .printi [.int n] =
        Run.writeLine text >>= fun _ => pure .void) ∧
      CastAs text (some n) ∧ EnteredAs text (some n) ∧ (0 ≤ n.toInt → LexedAs text (some n))) ∧
    ∀ ds : List Char, isNumeral ds = true →
      (value ds < intLimit → ∃ n : Int64, n.toInt = value ds ∧
        LexedAs (String.ofList ds) (some n) ∧ CastAs (String.ofList ds) (some n) ∧
        EnteredAs (String.ofList ds) (some n)) ∧
      (intLimit ≤ value ds →
        LexedAs (String.ofList ds) none ∧ CastAs (String.ofList ds) none ∧
        EnteredAs (String.ofList ds) none) := by
  constructor
  · intro n
    have hread := readInt?_ofInt64 n
    have hcast := castAs_of_notWhiteSpace (not_isWhiteSpace_ofInt64 n)
    have hentered := enteredAs_of_isWord (Text.isWord_ofInt64 n)
    rw [hread] at hcast hentered
    refine ⟨ofInt64 n, rfl, fun steps => ?_, hcast, hentered, fun hn => ?_⟩
    · exact callBuiltin_printi steps n
    · have hlexed := lexedAs_of_isNumeral (isNumeral_digits n.toInt.natAbs)
      rw [ofInt64_of_nonneg hn, String.toList_ofList] at hread
      rwa [hread, ← ofInt64_of_nonneg hn] at hlexed
  · intro ds h
    have hread := readInt?_of_isNumeral h
    constructor
    · intro hvalue
      obtain ⟨n, hn, hvalue⟩ := exists_toInt64? hvalue
      refine ⟨n, hvalue, ?_⟩
      rw [← hn, ← hread]
      exact readers_of_isNumeral h
    · intro hvalue
      rw [← toInt64?_of_le hvalue, ← hread]
      exact readers_of_isNumeral h

/-- The least int, and the two numbers at the upper end of the range with zeros in front. -/
theorem limits_read_alike :
    CastAs "-9223372036854775808" (some Int64.minValue) ∧
    (∃ n : Int64, n.toInt = 9223372036854775807 ∧
      LexedAs "009223372036854775807" (some n) ∧ CastAs "009223372036854775807" (some n) ∧
      EnteredAs "009223372036854775807" (some n)) ∧
    LexedAs "009223372036854775808" none ∧ CastAs "009223372036854775808" none ∧
    EnteredAs "009223372036854775808" none := by
  obtain ⟨hints, hdigits⟩ := decimal_readers_agree
  refine ⟨?_, ?_, ?_⟩
  · obtain ⟨text, htext, -, hcast, -⟩ := hints Int64.minValue
    have hleast : ofInt64 Int64.minValue = "-9223372036854775808" := by decide +kernel
    obtain rfl : ofInt64 Int64.minValue = text := by
      cases htext
      rfl
    rwa [hleast] at hcast
  · obtain ⟨n, hn, hread⟩ := (hdigits "009223372036854775807".toList (by decide)).1 (by decide)
    refine ⟨n, hn.trans (by decide), ?_⟩
    rwa [String.ofList_toList] at hread
  · have hread := (hdigits "009223372036854775808".toList (by decide)).2 (by decide)
    rwa [String.ofList_toList] at hread

end MiniC
