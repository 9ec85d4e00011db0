import MiniC.Proofs.Console.Chunks
import MiniC.Proofs.Text.Ascii

/-!
# Texts between delimiters

A text that was written with a line feed behind it is read again as a line, if it has no line feed
and no carriage return at its end; as a word, also behind blanks, if it is one.
-/

namespace MiniC

namespace Text

/-- A text that is the same when it is read as a line. -/
def IsLine (s : String) : Prop := '\n' ∉ s.toList ∧ s.toList.getLast? ≠ some '\r'

instance (s : String) : Decidable (IsLine s) :=
  inferInstanceAs (Decidable ('\n' ∉ s.toList ∧ s.toList.getLast? ≠ some '\r'))

/-- A text that is the same when it is read as a word. -/
def IsWord (s : String) : Prop := s ≠ "" ∧ ∀ c ∈ s.toList, isBlank c = false

instance (s : String) : Decidable (IsWord s) :=
  decidable_of_iff (s ≠ "" ∧ s.toList.all (fun c => !isBlank c) = true) (by simp [IsWord])

variable {s : String}

theorem IsWord.isLine (h : IsWord s) : IsLine s := by
  obtain ⟨-, hfree⟩ := h
  constructor
  · intro hfeed
    exact absurd (hfree '\n' hfeed) (by decide)
  · intro hreturn
    exact absurd (hfree '\r' (List.mem_of_getLast? hreturn)) (by decide)

/-- The bytes of a line that is written. -/
theorem encode_line (s : String) : Utf8.encode (s ++ "\n") = Utf8.encode s ++ [lineFeed] := by
  rw [Utf8.encode_append]
  rfl

theorem ofRead_encode (h : s ≠ "") : ofRead (Utf8.encode s) = .ok s := by
  have hdecode : String.fromUTF8? (Utf8.encode s).toByteArray = some s := Utf8.decode?_encode s
  unfold ofRead
  rw [if_neg (mt Utf8.encode_eq_nil.1 h), hdecode]

theorem withoutLineEnd_append (h : s.toList.getLast? ≠ some '\r') :
    withoutLineEnd (s ++ "\n") = s := by
  have hlist : (s ++ "\n").toList = s.toList ++ ['\n'] := by simp
  unfold withoutLineEnd
  dsimp only
  rw [hlist, List.getLast?_concat, if_pos rfl, List.dropLast_concat, if_neg h, String.ofList_toList]

end Text

theorem Source.bytes_ofBytes (bytes : List UInt8) : (ofBytes bytes).bytes = bytes := by
  cases bytes with
  | nil => rfl
  | cons b rest => exact List.append_nil _

/-! ## Plain bytes -/

namespace Reading

variable {s : String} {text blanks rest : List UInt8}

theorem lineOf_append_lineFeed (h : Text.lineFeed ∉ text) (rest : List UInt8) :
    lineOf (text ++ Text.lineFeed :: rest) = (text ++ [Text.lineFeed], rest) := by
  have hfree : ∀ b ∈ text, decide (b ≠ Text.lineFeed) = true := by
    intro b hb
    rw [decide_eq_true_eq]
    rintro rfl
    exact h hb
  unfold lineOf
  rw [List.dropWhile_append_of_pos hfree, List.takeWhile_append_of_pos hfree]
  simp

/-- A word goes on to the next blank, or to the end. -/
theorem wordOf_append (hblanks : ∀ b ∈ blanks, Text.isBlankByte b = true) (hne : text ≠ [])
    (htext : ∀ b ∈ text, Text.isBlankByte b = false)
    (hrest : ∀ b ∈ rest.head?, Text.isBlankByte b = true) :
    wordOf (blanks ++ text ++ rest) = (text, rest) := by
  have hword : ∀ b ∈ text, (!Text.isBlankByte b) = true := by
    intro b hb
    rw [htext b hb]
    rfl
  have hbody : (blanks ++ text ++ rest).dropWhile Text.isBlankByte = text ++ rest := by
    rw [List.append_assoc, List.dropWhile_append_of_pos hblanks]
    cases text with
    | nil => exact absurd rfl hne
    | cons b text => simp [htext b List.mem_cons_self]
  unfold wordOf
  dsimp only
  rw [hbody, List.takeWhile_append_of_pos hword, List.dropWhile_append_of_pos hword]
  cases rest with
  | nil => simp
  | cons b rest => simp [hrest b rfl]

/-- A line that was written is read. -/
theorem line_written (h : Text.IsLine s) (rest : List UInt8) :
    line.ofBytes (Text.Utf8.encode (s ++ "\n") ++ rest) = (.ok s, rest) := by
  have hline : lineOf (Text.Utf8.encode (s ++ "\n") ++ rest) =
      (Text.Utf8.encode (s ++ "\n"), rest) := by
    rw [Text.encode_line, List.append_assoc]
    exact lineOf_append_lineFeed (Text.Utf8.lineFeed_notMem_encode h.1) rest
  have hne : s ++ "\n" ≠ "" := by
    intro hempty
    simpa using congrArg String.toList hempty
  unfold ofBytes
  dsimp only
  rw [hline, Text.ofRead_encode hne]
  exact Prod.ext (congrArg Except.ok (Text.withoutLineEnd_append h.2)) rfl

/-- A word is read whatever blanks stand in front of it, and what follows it is left. -/
theorem word_delimited (h : Text.IsWord s) (hblanks : ∀ b ∈ blanks, Text.isBlankByte b = true)
    (hrest : ∀ b ∈ rest.head?, Text.isBlankByte b = true) :
    word.ofBytes (blanks ++ (Text.Utf8.encode s ++ rest)) = (.ok s, rest) := by
  obtain ⟨hne, hfree⟩ := h
  have hword : wordOf (blanks ++ (Text.Utf8.encode s ++ rest)) = (Text.Utf8.encode s, rest) := by
    rw [← List.append_assoc]
    exact wordOf_append hblanks (mt Text.Utf8.encode_eq_nil.1 hne)
      (fun b hb => Text.Utf8.not_isBlankByte_of_mem_encode hfree hb) hrest
  unfold ofBytes
  dsimp only
  rw [hword, Text.ofRead_encode hne]

/-- A word that was written as a line is read, and the line feed behind it is left. -/
theorem word_written (h : Text.IsWord s) (hblanks : ∀ b ∈ blanks, Text.isBlankByte b = true)
    (rest : List UInt8) :
    word.ofBytes (blanks ++ (Text.Utf8.encode (s ++ "\n") ++ rest)) =
      (.ok s, Text.lineFeed :: rest) := by
  rw [Text.encode_line, List.append_assoc]
  refine word_delimited h hblanks fun b hb => ?_
  obtain rfl : Text.lineFeed = b := by simpa using hb
  rfl

/-- A source gives the texts that its bytes give. -/
theorem ofSource_of_ofBytes {r : Reading} {source : Source} {text : String}
    (h : r.ofBytes source.bytes = (.ok text, rest)) :
    ∃ left, r.ofSource source = (.ok text, left) ∧ left.bytes = rest := by
  obtain ⟨hanswer, hleft⟩ := r.ofSource_eq source
  rw [h] at hanswer hleft
  generalize r.ofSource source = outcome at hanswer hleft
  obtain ⟨answer, left⟩ := outcome
  cases answer with
  | error fault => cases hanswer
  | ok text' =>
    cases hanswer
    exact ⟨left, rfl, hleft⟩

end Reading

end MiniC
