import MiniC.Console.Source

/-!
# Reading across chunks

Words and lines of input, said of plain bytes (`Reading.ofBytes`): a word is the longest run of
bytes without a blank behind the blanks at the front, a line reaches through the next line feed.  A
source that hands out the bytes in chunks is read chunk by chunk instead, with what was read so far
carried over their borders.  Main statement: `reading_ignores_chunks`.
-/

namespace MiniC

/-- The ways to read input: the next word, or the rest of the current line. -/
inductive Reading
  | word
  | line
deriving DecidableEq

/-! ## Plain bytes -/

namespace Text

/-- The text of bytes that were read.  To have read none is a failure, as is not to have read
UTF-8. -/
def ofRead (bytes : List UInt8) : Except FaultKind String :=
  if bytes = [] then .error .inputOutput
  else
    match String.fromUTF8? bytes.toByteArray with
    | some text => .ok text
    | none => .error .inputOutput

/-- A line without the line feed at its end and then without a carriage return; unchanged if no line
feed ends it. -/
def withoutLineEnd (text : String) : String :=
  let cs := text.toList
  if cs.getLast? = some '\n' then
    String.ofList
      (if cs.dropLast.getLast? = some '\r' then cs.dropLast.dropLast else cs.dropLast)
  else text

end Text

namespace Reading

/-- The word at the front of some bytes, and the bytes behind it. -/
def wordOf (bytes : List UInt8) : List UInt8 × List UInt8 :=
  let body := bytes.dropWhile Text.isBlankByte
  (body.takeWhile (!Text.isBlankByte ·), body.dropWhile (!Text.isBlankByte ·))

/-- The line at the front of some bytes with its line feed, and the bytes behind it. -/
def lineOf (bytes : List UInt8) : List UInt8 × List UInt8 :=
  match bytes.dropWhile (· ≠ Text.lineFeed) with
  | [] => (bytes, [])
  | feed :: rest => (bytes.takeWhile (· ≠ Text.lineFeed) ++ [feed], rest)

/-- What reading from plain bytes gives, and the bytes that are left. -/
def ofBytes : Reading → List UInt8 → Except FaultKind String × List UInt8
  | .word, bytes => (Text.ofRead (wordOf bytes).1, (wordOf bytes).2)
  | .line, bytes => ((Text.ofRead (lineOf bytes).1).map Text.withoutLineEnd, (lineOf bytes).2)

/-- What readings one after the other give, whether they fail or not, and the bytes that are left. -/
def allOfBytes : List Reading → List UInt8 → List (Except FaultKind String) × List UInt8
  | [], bytes => ([], bytes)
  | r :: rest, bytes =>
    let (answer, bytes) := r.ofBytes bytes
    let (answers, bytes) := allOfBytes rest bytes
    (answer :: answers, bytes)

/-! ## Sources -/

/-- What reading from a source gives, and the source that is left. -/
def ofSource : Reading → Source → Except Fault String × Source
  | .word => Source.readWord
  | .line => Source.readLine

/-- What readings one after the other give, whether they fail or not, and the source that is left. -/
def allOfSource : List Reading → Source → List (Except Fault String) × Source
  | [], s => ([], s)
  | r :: rest, s =>
    let (answer, s) := r.ofSource s
    let (answers, s) := allOfSource rest s
    (answer :: answers, s)

end Reading

/-! ## Runs at the front of a list -/

section Lists

variable {α : Type} {p : α → Bool} {xs : List α}

theorem drop_takeWhile (p : α → Bool) (xs : List α) :
    xs.drop (xs.takeWhile p).length = xs.dropWhile p := by
  induction xs with
  | nil => rfl
  | cons x xs ih =>
    rw [List.takeWhile_cons, List.dropWhile_cons]
    split
    · exact ih
    · rfl

theorem takeWhile_of_dropWhile (h : xs.dropWhile p = []) : xs.takeWhile p = xs := by
  have hsplit := @List.takeWhile_append_dropWhile _ p xs
  rwa [h, List.append_nil] at hsplit

/-- A run that goes through a list goes on behind it. -/
theorem span_append_of_nil (h : xs.dropWhile p = []) (ys : List α) :
    (xs ++ ys).takeWhile p = xs ++ ys.takeWhile p ∧
      (xs ++ ys).dropWhile p = ys.dropWhile p := by
  rw [List.takeWhile_append, List.dropWhile_append, takeWhile_of_dropWhile h, h]
  simp

/-- A run that ends in a list ends there whatever is behind. -/
theorem span_append_of_ne_nil (h : xs.dropWhile p ≠ []) (ys : List α) :
    (xs ++ ys).takeWhile p = xs.takeWhile p ∧
      (xs ++ ys).dropWhile p = xs.dropWhile p ++ ys := by
  have hshort : (xs.takeWhile p).length ≠ xs.length := by
    intro hlength
    apply h
    rw [← drop_takeWhile, hlength, List.drop_length]
  rw [List.takeWhile_append, List.dropWhile_append, if_neg hshort, if_neg (by simpa using h)]
  exact ⟨rfl, rfl⟩

end Lists

/-! ## Words and lines in chunks -/

namespace Source

variable {word line : List UInt8} {chunks : List (List UInt8)}

/-- Within a word no blanks are skipped. -/
theorem takeWord_of_ne_nil (hword : word ≠ []) (chunks : List (List UInt8)) :
    (takeWord word chunks).1 = word ++ chunks.flatten.takeWhile (!Text.isBlankByte ·) ∧
      (takeWord word chunks).2.flatten = chunks.flatten.dropWhile (!Text.isBlankByte ·) := by
  induction chunks generalizing word with
  | nil => simp [takeWord]
  | cons chunk chunks ih =>
    have hempty : word.isEmpty = false := by simpa using hword
    unfold takeWord
    simp only [hempty, Bool.false_eq_true, if_false, drop_takeWhile, List.flatten_cons]
    cases hleft : chunk.dropWhile (!Text.isBlankByte ·) with
    | nil =>
      obtain ⟨htake, hdrop⟩ := span_append_of_nil hleft chunks.flatten
      rw [htake, hdrop, takeWhile_of_dropWhile hleft, ← List.append_assoc]
      exact ih (List.append_ne_nil_of_left_ne_nil hword chunk)
    | cons blank left =>
      have hne : chunk.dropWhile (!Text.isBlankByte ·) ≠ [] := by simp [hleft]
      obtain ⟨htake, hdrop⟩ := span_append_of_ne_nil hne chunks.flatten
      rw [htake, hdrop, hleft]
      exact ⟨rfl, rfl⟩

/-- At the beginning blanks are skipped, in this chunk and in those behind it. -/
theorem takeWord_nil (chunks : List (List UInt8)) :
    (takeWord [] chunks).1 = (Reading.wordOf chunks.flatten).1 ∧
      (takeWord [] chunks).2.flatten = (Reading.wordOf chunks.flatten).2 := by
  unfold Reading.wordOf
  dsimp only
  induction chunks with
  | nil => simp [takeWord]
  | cons chunk chunks ih =>
    unfold takeWord
    simp only [List.isEmpty_nil, if_true, drop_takeWhile, List.flatten_cons, List.nil_append]
    by_cases hblank : chunk.dropWhile Text.isBlankByte = []
    · rw [(span_append_of_nil hblank chunks.flatten).2, hblank]
      exact ih
    · -- the word begins in this chunk
      rw [(span_append_of_ne_nil hblank chunks.flatten).2]
      generalize chunk.dropWhile Text.isBlankByte = body at hblank
      cases hleft : body.dropWhile (!Text.isBlankByte ·) with
      | nil =>
        obtain ⟨htake, hdrop⟩ := span_append_of_nil hleft chunks.flatten
        rw [htake, hdrop, takeWhile_of_dropWhile hleft]
        exact takeWord_of_ne_nil hblank chunks
      | cons blank left =>
        have hne : body.dropWhile (!Text.isBlankByte ·) ≠ [] := by simp [hleft]
        obtain ⟨htake, hdrop⟩ := span_append_of_ne_nil hne chunks.flatten
        rw [htake, hdrop, hleft]
        exact ⟨rfl, rfl⟩

/-- A line goes through bytes without a line feed. -/
theorem lineOf_append_of_nil {bytes : List UInt8} (h : bytes.dropWhile (· ≠ Text.lineFeed) = [])
    (more : List UInt8) :
    Reading.lineOf (bytes ++ more) = (bytes ++ (Reading.lineOf more).1, (Reading.lineOf more).2) := by
  obtain ⟨htake, hdrop⟩ := span_append_of_nil h more
  unfold Reading.lineOf
  rw [htake, hdrop]
  cases more.dropWhile (· ≠ Text.lineFeed) with
  | nil => rfl
  | cons feed rest => simp

/-- A line ends with the first line feed. -/
theorem lineOf_append_of_cons {bytes left : List UInt8} {feed : UInt8}
    (h : bytes.dropWhile (· ≠ Text.lineFeed) = feed :: left) (more : List UInt8) :
    Reading.lineOf (bytes ++ more) =
      (bytes.takeWhile (· ≠ Text.lineFeed) ++ [feed], left ++ more) := by
  have hne : bytes.dropWhile (· ≠ Text.lineFeed) ≠ [] := by
    rw [h]
    exact List.cons_ne_nil _ _
  obtain ⟨htake, hdrop⟩ := span_append_of_ne_nil hne more
  unfold Reading.lineOf
  rw [htake, hdrop, h]
  rfl

theorem flatten_unread (left : List UInt8) (chunks : List (List UInt8)) :
    (unread left chunks).flatten = left ++ chunks.flatten := by
  cases left <;> rfl

/-- A line is taken from one chunk after the other, through the line feed. -/
theorem takeLine_eq (line : List UInt8) (chunks : List (List UInt8)) :
    (takeLine line chunks).1 = line ++ (Reading.lineOf chunks.flatten).1 ∧
      (takeLine line chunks).2.flatten = (Reading.lineOf chunks.flatten).2 := by
  induction chunks generalizing line with
  | nil => simp [takeLine, Reading.lineOf]
  | cons chunk chunks ih =>
    unfold takeLine
    simp only [drop_takeWhile, List.flatten_cons]
    cases hleft : chunk.dropWhile (· ≠ Text.lineFeed) with
    | nil =>
      rw [lineOf_append_of_nil hleft, takeWhile_of_dropWhile hleft, ← List.append_assoc]
      exact ih (line ++ chunk)
    | cons feed left =>
      rw [lineOf_append_of_cons hleft]
      exact ⟨by simp, flatten_unread left chunks⟩

/-! ## What is left is cut into chunks again -/

theorem nil_notMem_takeWord (h : [] ∉ chunks) (word : List UInt8) :
    [] ∉ (takeWord word chunks).2 := by
  induction chunks generalizing word with
  | nil => exact h
  | cons chunk chunks ih =>
    obtain ⟨-, hchunks⟩ := not_or.1 (mt List.mem_cons.2 h)
    unfold takeWord
    dsimp only
    split
    · exact ih hchunks _
    · next left hne =>
      intro hmem
      rcases List.mem_cons.1 hmem with hnil | hmem
      · exact hne hnil.symm
      · exact hchunks hmem

theorem nil_notMem_takeLine (h : [] ∉ chunks) (line : List UInt8) :
    [] ∉ (takeLine line chunks).2 := by
  induction chunks generalizing line with
  | nil => exact h
  | cons chunk chunks ih =>
    obtain ⟨-, hchunks⟩ := not_or.1 (mt List.mem_cons.2 h)
    unfold takeLine
    dsimp only
    split
    · exact ih hchunks _
    · next feed left _ =>
      cases left with
      | nil => exact hchunks
      | cons b rest => simp [unread, hchunks]

/-! ## Readings -/

/-- Ends of lines are taken away from the last character on. -/
theorem ofList_stripLineEnd (text : String) :
    String.ofList (stripLineEnd text.toList) = Text.withoutLineEnd text := by
  obtain ⟨rs, hrs⟩ : ∃ rs : List Char, text.toList = rs.reverse :=
    ⟨text.toList.reverse, (List.reverse_reverse _).symm⟩
  have htext : String.ofList rs.reverse = text := by rw [← hrs, String.ofList_toList]
  unfold Text.withoutLineEnd stripLineEnd
  dsimp only
  rw [hrs, List.reverse_reverse, List.getLast?_reverse, List.dropLast_reverse,
    List.getLast?_reverse, List.dropLast_reverse]
  split
  · simp
  · next rest hreturn =>
    have hne : rest.head? ≠ some '\r' := by
      intro hhead
      obtain ⟨more, rfl⟩ := List.head?_eq_some_iff.1 hhead
      exact hreturn more rfl
    simp [hne]
  · next hfeed =>
    have hne : rs.head? ≠ some '\n' := by
      intro hhead
      obtain ⟨more, rfl⟩ := List.head?_eq_some_iff.1 hhead
      exact hfeed more rfl
    rw [if_neg hne, htext]

end Source

/-- Readings do to a source what they do to its bytes, and fail with input/output failures. -/
theorem Reading.ofSource_eq (r : Reading) (s : Source) :
    (r.ofSource s).1.mapError Fault.kind = (r.ofBytes s.bytes).1 ∧
      (r.ofSource s).2.bytes = (r.ofBytes s.bytes).2 := by
  obtain ⟨chunks⟩ := s
  cases r with
  | word =>
    obtain ⟨hword, hrest⟩ := Source.takeWord_nil chunks
    refine ⟨?_, hrest⟩
    unfold ofBytes ofSource Source.readWord Text.ofRead Text.Utf8.decode? Source.bytes
    dsimp only
    rw [hword]
    generalize (wordOf chunks.flatten).1 = bytes
    cases bytes with
    | nil => rfl
    | cons b rest =>
      rw [if_neg (by simp), if_neg (by simp)]
      cases String.fromUTF8? (b :: rest).toByteArray <;> rfl
  | line =>
    obtain ⟨hline, hrest⟩ := Source.takeLine_eq [] chunks
    refine ⟨?_, hrest⟩
    unfold ofBytes ofSource Source.readLine Text.ofRead Text.Utf8.decode? Source.bytes
    dsimp only
    rw [hline, List.nil_append]
    generalize (lineOf chunks.flatten).1 = bytes
    cases bytes with
    | nil => rfl
    | cons b rest =>
      rw [if_neg (by simp), if_neg (by simp)]
      cases String.fromUTF8? (b :: rest).toByteArray with
      | none => rfl
      | some text => exact congrArg Except.ok (Source.ofList_stripLineEnd text)

namespace Reading

variable {s s' : Source}

/-- What a reading gives, and how it fails, depends on the bytes alone. -/
theorem ofSource_congr (h : s'.bytes = s.bytes) (r : Reading) :
    (r.ofSource s').1 = (r.ofSource s).1 := by
  obtain ⟨chunks⟩ := s
  obtain ⟨chunks'⟩ := s'
  have hbytes : chunks'.flatten = chunks.flatten := h
  cases r with
  | word =>
    unfold ofSource Source.readWord
    dsimp only
    rw [(Source.takeWord_nil chunks').1, (Source.takeWord_nil chunks).1, hbytes]
  | line =>
    unfold ofSource Source.readLine
    dsimp only
    rw [(Source.takeLine_eq [] chunks').1, (Source.takeLine_eq [] chunks).1, hbytes]

theorem nil_notMem_ofSource (h : [] ∉ s.chunks) (r : Reading) :
    [] ∉ (r.ofSource s).2.chunks := by
  cases r with
  | word => exact Source.nil_notMem_takeWord h []
  | line => exact Source.nil_notMem_takeLine h []

theorem allOfSource_eq (rs : List Reading) (s : Source) :
    (allOfSource rs s).1.map (·.mapError Fault.kind) = (allOfBytes rs s.bytes).1 ∧
      (allOfSource rs s).2.bytes = (allOfBytes rs s.bytes).2 := by
  induction rs generalizing s with
  | nil => exact ⟨rfl, rfl⟩
  | cons r rest ih =>
    obtain ⟨hanswer, hbytes⟩ := r.ofSource_eq s
    obtain ⟨hanswers, hleft⟩ := ih (r.ofSource s).2
    rw [hbytes] at hanswers hleft
    exact ⟨List.cons_eq_cons.2 ⟨hanswer, hanswers⟩, hleft⟩

theorem allOfSource_congr (h : s'.bytes = s.bytes) (rs : List Reading) :
    (allOfSource rs s').1 = (allOfSource rs s).1 := by
  induction rs generalizing s s' with
  | nil => rfl
  | cons r rest ih =>
    have hbytes : (r.ofSource s').2.bytes = (r.ofSource s).2.bytes := by
      rw [(r.ofSource_eq s').2, (r.ofSource_eq s).2, h]
    exact List.cons_eq_cons.2 ⟨ofSource_congr h r, ih hbytes⟩

theorem nil_notMem_allOfSource (h : [] ∉ s.chunks) (rs : List Reading) :
    [] ∉ (allOfSource rs s).2.chunks := by
  induction rs generalizing s with
  | nil => exact h
  | cons r rest ih => exact ih (nil_notMem_ofSource h r)

end Reading

/-- Reading does not depend on the chunks in which the bytes arrive.  Let a source have no empty
chunk.  Whatever words and lines are read from it one after the other, also behind failures, the
answers are those of the plain bytes, with input/output failures where these fail, and the bytes
that are left are those that the plain bytes leave, in chunks of which none is empty.  Every source
with the same bytes gives the same answers, down to the causes of failures. -/
theorem reading_ignores_chunks (rs : List Reading) {s : Source} (hs : [] ∉ s.chunks) :
    (Reading.allOfSource rs s).1.map (·.mapError Fault.kind) = (Reading.allOfBytes rs s.bytes).1 ∧
      (Reading.allOfSource rs s).2.bytes = (Reading.allOfBytes rs s.bytes).2 ∧
      [] ∉ (Reading.allOfSource rs s).2.chunks ∧
      ∀ s' : Source, s'.bytes = s.bytes →
        (Reading.allOfSource rs s').1 = (Reading.allOfSource rs s).1 := by
  obtain ⟨hanswers, hleft⟩ := Reading.allOfSource_eq rs s
  exact ⟨hanswers, hleft, Reading.nil_notMem_allOfSource hs rs, fun s' h =>
    Reading.allOfSource_congr h rs⟩

/-- Blanks and a word over three chunks, a line whose end is cut between carriage return and line
feed, a word that is no UTF-8, and nothing behind it. -/
theorem cut_reading_ignores_chunks :
    let s : Source := ⟨[[0x20, 0x0A], [0x20, 0x31], [0x32], [0x20, 0x61, 0x0D], [0x0A, 0xFF]]⟩
    let rs : List Reading := [.word, .line, .word, .line]
    [] ∉ s.chunks ∧
      (Reading.allOfSource rs s).1.map (·.mapError Fault.kind) =
        (Reading.allOfBytes rs s.bytes).1 ∧
      (Reading.allOfBytes rs s.bytes).1.map Except.toOption =
        [some "12", some " a", none, none] ∧
      (Reading.allOfSource rs s).2.bytes = [] := by
  intro s rs
  have hs : [] ∉ s.chunks := by decide
  obtain ⟨hanswers, hleft, -, -⟩ := reading_ignores_chunks rs hs
  exact ⟨hs, hanswers, by decide +kernel, hleft.trans (by decide +kernel)⟩

end MiniC
