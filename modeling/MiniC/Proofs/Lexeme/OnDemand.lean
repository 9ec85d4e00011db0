import MiniC.Lexeme.Lexer
import MiniC.Proofs.Lexeme.Layout

/-!
# Reading on demand

A lexer keeps an offset in bytes and a line mark, and works places out from them.  The mark of a
lexer that has read `before` is where the last line of `before` begins (`dropBytes_start`), unless
a string literal without an end was read, which is the last thing that is read.  So the places are
those that counting characters gives (`LineMark.place_through`), also for a string literal that
spans lines, and a lexer delivers what `reading` says.  Main statement: `Lexer.delivers_ofSource`.
-/

namespace MiniC

namespace Text

/-! ## Offsets in bytes -/

@[simp] theorem byteLength_nil : byteLength [] = 0 := rfl

@[simp] theorem byteLength_cons (c : Char) (cs : List Char) :
    byteLength (c :: cs) = c.utf8Size + byteLength cs := rfl

@[simp] theorem byteLength_append (cs ds : List Char) :
    byteLength (cs ++ ds) = byteLength cs + byteLength ds := by
  induction cs with
  | nil => exact (Nat.zero_add _).symm
  | cons c cs ih => rw [List.cons_append, byteLength_cons, byteLength_cons, ih, Nat.add_assoc]

theorem takeBytes_byteLength (cs ds : List Char) : takeBytes (byteLength cs) (cs ++ ds) = cs := by
  induction cs with
  | nil => cases ds <;> rfl
  | cons c cs ih =>
    obtain ⟨n, hn⟩ := Nat.exists_eq_succ_of_ne_zero
      (Nat.ne_of_gt (Nat.add_pos_left c.utf8Size_pos (byteLength cs)))
    have hsub : n + 1 - c.utf8Size = byteLength cs := by omega
    rw [byteLength_cons, hn, List.cons_append, takeBytes, hsub, ih]

theorem dropBytes_byteLength (cs ds : List Char) : dropBytes (byteLength cs) (cs ++ ds) = ds := by
  induction cs with
  | nil => cases ds <;> rfl
  | cons c cs ih =>
    obtain ⟨n, hn⟩ := Nat.exists_eq_succ_of_ne_zero
      (Nat.ne_of_gt (Nat.add_pos_left c.utf8Size_pos (byteLength cs)))
    have hsub : n + 1 - c.utf8Size = byteLength cs := by omega
    rw [byteLength_cons, hn, List.cons_append, dropBytes, hsub, ih]

theorem byteLength_lineBreak (cs : List Char) : byteLength ('\n' :: cs) = 1 + byteLength cs := rfl

/-! ## The last line -/

variable {cs ds : List Char}

theorem lastLine_append (h : '\n' ∉ ds) : lastLine (cs ++ ds) = lastLine cs ++ ds := by
  have hall : ∀ c ∈ ds.reverse, decide (c ≠ '\n') = true :=
    fun c hc => decide_eq_true fun heq => h (heq ▸ List.mem_reverse.1 hc)
  unfold lastLine
  rw [List.reverse_append, List.takeWhile_append_of_pos hall, List.reverse_append,
    List.reverse_reverse]

theorem lastLine_of_notMem (h : '\n' ∉ cs) : lastLine cs = cs := @lastLine_append [] cs h

theorem lastLine_lineBreak (h : '\n' ∉ ds) : lastLine (cs ++ '\n' :: ds) = ds := by
  have hfront : lastLine (cs ++ ['\n']) = [] := by
    unfold lastLine
    rw [List.reverse_append]
    rfl
  rw [List.append_cons, lastLine_append h, hfront, List.nil_append]

/-- A text with a line break has a last line. -/
theorem exists_lastLine (h : '\n' ∈ cs) : ∃ front ds, cs = front ++ '\n' :: ds ∧ '\n' ∉ ds := by
  obtain ⟨ds, front, heq, hds⟩ := List.eq_append_cons_of_mem (List.mem_reverse.2 h)
  refine ⟨front.reverse, ds.reverse, ?_, fun hmem => hds (List.mem_reverse.1 hmem)⟩
  rw [← List.reverse_reverse cs, heq]
  simp

end Text

/-! ## Places -/

/-- The place behind some characters of a source text: the number of line breaks gives the line, and
the number of characters behind the last one the column. -/
def Position.behind (before : List Char) : Position :=
  ⟨1 + before.count '\n', 1 + (Text.lastLine before).length⟩

namespace Position

theorem behind_append {before text : List Char} (h : '\n' ∉ text) :
    behind (before ++ text) = (behind before).advanceInLine text := by
  unfold behind advanceInLine
  rw [Text.lastLine_append h, List.count_append, List.count_eq_zero.2 h, List.length_append,
    Nat.add_zero, Nat.add_assoc]

/-- Going on character by character is counting. -/
theorem advance_behind (before text : List Char) :
    (behind before).advance text = behind (before ++ text) := by
  induction text generalizing before with
  | nil => rw [List.append_nil, advance_nil]
  | cons c text ih =>
    have hstep : (behind before).step c = behind (before ++ [c]) := by
      unfold step
      split
      · next hc =>
        subst hc
        unfold behind
        rw [Text.lastLine_lineBreak List.not_mem_nil, List.count_append]
        rfl
      · next hc =>
        rw [behind_append (by simpa using Ne.symm hc)]
        rfl
    rw [advance_cons, hstep, ih, List.append_assoc, List.singleton_append]

end Position

namespace LineMark

variable {m : LineMark} {offset : Nat} {before text rest : List Char}

theorem through_append (m : LineMark) (offset : Nat) (cs ds : List Char) :
    m.through offset (cs ++ ds) =
      (m.through offset cs).through (offset + Text.byteLength cs) ds := by
  induction cs generalizing m offset with
  | nil => rfl
  | cons c cs ih =>
    rw [List.cons_append, through, through, ih, Text.byteLength_cons, Nat.add_assoc]

theorem through_of_notMem (h : '\n' ∉ text) : m.through offset text = m := by
  induction text generalizing offset with
  | nil => rfl
  | cons c text ih =>
    rw [List.mem_cons, not_or] at h
    obtain ⟨hc, htext⟩ := h
    rw [through, if_neg (Ne.symm hc), ih htext]

theorem line_through (m : LineMark) (offset : Nat) (text : List Char) :
    (m.through offset text).line = m.line + text.count '\n' := by
  induction text generalizing m offset with
  | nil => rfl
  | cons c text ih =>
    rw [through, ih, List.count_cons]
    by_cases hc : c = '\n'
    · rw [if_pos hc, if_pos (by simpa using hc), Nat.add_assoc, Nat.add_comm 1]
    · rw [if_neg hc, if_neg (by simpa using hc), Nat.add_zero]

/-- The last line break of a text opens the line that the mark is left on. -/
theorem start_through (hrest : '\n' ∉ rest) :
    (m.through offset (text ++ '\n' :: rest)).start = offset + Text.byteLength text + 1 := by
  rw [through_append, through, if_pos rfl, through_of_notMem hrest]

/-- The mark of what was read is where its last line begins. -/
theorem dropBytes_start (before rest : List Char) :
    Text.dropBytes (first.through 0 before).start (before ++ rest) =
      Text.lastLine before ++ rest := by
  by_cases h : '\n' ∈ before
  · obtain ⟨front, ds, rfl, hds⟩ := Text.exists_lastLine h
    have hbytes : 0 + Text.byteLength front + 1 = Text.byteLength (front ++ ['\n']) := by
      rw [Text.byteLength_append, Text.byteLength_lineBreak, Nat.zero_add]
      rfl
    have hsplit : front ++ '\n' :: ds ++ rest = (front ++ ['\n']) ++ (ds ++ rest) := by simp
    rw [start_through hds, hbytes, Text.lastLine_lineBreak hds, hsplit, Text.dropBytes_byteLength]
  · rw [through_of_notMem h, Text.lastLine_of_notMem h]
    exact Text.dropBytes_byteLength [] (before ++ rest)

/-- The last line of what was read takes the bytes between the mark and the offset. -/
theorem byteLength_lastLine (before : List Char) :
    (first.through 0 before).start + Text.byteLength (Text.lastLine before) =
      Text.byteLength before := by
  by_cases h : '\n' ∈ before
  · obtain ⟨front, ds, rfl, hds⟩ := Text.exists_lastLine h
    rw [start_through hds, Text.lastLine_lineBreak hds, Text.byteLength_append,
      Text.byteLength_lineBreak]
    omega
  · rw [through_of_notMem h, Text.lastLine_of_notMem h]
    exact Nat.zero_add _

/-- A piece stands behind what was read before it, also if it moves the mark past its beginning. -/
theorem place_through (before text rest : List Char) :
    (first.through 0 (before ++ text)).place (before ++ (text ++ rest)) (Text.byteLength before) =
      .behind before := by
  unfold place
  by_cases h : '\n' ∈ text
  · obtain ⟨front, ds, rfl, hds⟩ := Text.exists_lastLine h
    have hstart : Text.byteLength before <
        (first.through 0 (before ++ (front ++ '\n' :: ds))).start := by
      rw [← List.append_assoc, start_through hds, Text.byteLength_append]
      omega
    rw [if_pos hstart]
    dsimp only
    rw [Text.takeBytes_byteLength, Position.behind, Nat.add_comm 1, Nat.add_comm 1]
  · have hlength := byteLength_lastLine before
    have hstart : ¬ Text.byteLength before < (first.through 0 before).start := by omega
    have hsub : Text.byteLength before - (first.through 0 before).start =
        Text.byteLength (Text.lastLine before) := by omega
    rw [through_append, through_of_notMem h, if_neg hstart, dropBytes_start, hsub,
      Text.takeBytes_byteLength, line_through, Position.behind, Nat.add_comm _ 1]
    rfl

end LineMark

/-! ## Line breaks in pieces -/

theorem Symbol.lineBreak_notMem (s : Symbol) : '\n' ∉ s.chars := by
  cases s <;> decide

namespace Piece

variable {c : Char} {cs rest : List Char} {role : Role} {n : Nat}

theorem lineBreak_notMem_of_all {p : Char → Bool} (hp : p '\n' = false)
    (h : ∀ c ∈ cs, p c = true) : '\n' ∉ cs := by
  intro hmem
  rw [h _ hmem] at hp
  cases hp

theorem lineBreak_notMem_number (hc : c.isDigit = true)
    (h : classifyNumber c rest = (role, n)) : '\n' ∉ c :: rest.take n := by
  have hfirst : '\n' ≠ c := by
    rintro rfl
    cases hc
  obtain ⟨ds, left, rfl, hds, hleft⟩ := exists_run Char.isDigit rest
  have hdigits := lineBreak_notMem_of_all rfl hds
  by_cases hpoint : ∃ more, left = '.' :: more
  · obtain ⟨more, rfl⟩ := hpoint
    obtain ⟨fs, left, rfl, hfs, hleft⟩ := exists_run Char.isDigit more
    have hfraction := lineBreak_notMem_of_all rfl hfs
    rw [classifyNumber_float hds hfs hleft] at h
    obtain ⟨-, rfl⟩ := Prod.mk.inj h
    rw [take_float]
    simp [hfirst, hdigits, hfraction]
  · rw [classifyNumber_int hds hleft fun more hmore => hpoint ⟨more, hmore⟩] at h
    obtain ⟨-, rfl⟩ := Prod.mk.inj h
    rw [List.take_left]
    simp [hfirst, hdigits]

theorem lineBreak_notMem_symbol (hc : isSpace c = false)
    (h : classifySymbol c rest = (role, n)) : '\n' ∉ c :: rest.take n := by
  unfold classifySymbol at h
  split at h
  · next s hs =>
    obtain ⟨-, rfl⟩ := Prod.mk.inj h
    obtain ⟨left, hleft⟩ := exists_of_read? hs
    have hchars := s.lineBreak_notMem
    obtain ⟨d, ds, hd, -⟩ := classify_symbol s (.inl rfl)
    rw [hd, List.cons_append, List.cons.injEq] at hleft
    obtain ⟨rfl, rfl⟩ := hleft
    rw [hd] at hchars ⊢
    rwa [List.length_cons, Nat.add_sub_cancel, List.take_left]
  · obtain ⟨-, rfl⟩ := Prod.mk.inj h
    rw [List.take_zero, List.mem_singleton]
    rintro rfl
    cases hc

/-- Line breaks stand in layout, in string literals, and in what is rejected for a string literal
without an end, which is all that is left. -/
theorem role_of_lineBreak (h : classify c rest = (role, n)) (hbreak : '\n' ∈ c :: rest.take n) :
    role = .layout ∨ (∃ raw, role = .token (.stringLiteral raw)) ∨
      role = .rejected .unrecognized ∧ c = '\"' ∧ rest.length ≤ n := by
  unfold classify at h
  split at h
  · exact .inl (Prod.mk.inj h).1.symm
  next hspace =>
  split at h
  · next hdigit => exact absurd hbreak (lineBreak_notMem_number hdigit h)
  split at h
  · next hquote =>
    unfold classifyQuoted at h
    dsimp only at h
    split at h
    · exact .inr (.inl ⟨_, (Prod.mk.inj h).1.symm⟩)
    · next hlength =>
      obtain ⟨rfl, rfl⟩ := Prod.mk.inj h
      exact .inr (.inr ⟨rfl, hquote, Nat.le_of_not_lt hlength⟩)
  split at h
  · next hname =>
    obtain ⟨rfl, rfl⟩ := Prod.mk.inj h
    obtain ⟨cs, left, rfl, hcs, hleft⟩ := exists_run continuesName rest
    rw [run_append hcs hleft, List.take_left, List.mem_cons] at hbreak
    rcases hbreak with rfl | hbreak
    · cases hname
    · exact absurd hbreak (lineBreak_notMem_of_all rfl hcs)
  split at h
  · exact .inl (Prod.mk.inj h).1.symm
  · exact .inl (Prod.mk.inj h).1.symm
  · exact absurd hbreak (lineBreak_notMem_symbol (Bool.eq_false_iff.2 hspace) h)

end Piece

/-! ## What a lexer delivers -/

namespace Lexer

/-- Reading lexeme by lexeme delivers some entries and then reaches the end of input. -/
inductive Delivers : Lexer → List (Except LexicalError Lexeme) → Lexeme → Prop
  | done {x y : Lexer} (h : x.next = (none, y)) : Delivers x [] y.endOfInput
  | more {x y : Lexer} {e : Except LexicalError Lexeme} {es : List (Except LexicalError Lexeme)}
      {last : Lexeme} (h : x.next = (some e, y)) (hes : Delivers y es last) :
      Delivers x (e :: es) last

variable {x : Lexer} {c : Char} {cs before rest : List Char} {n : Nat}

theorem next_nil (h : x.rest = []) : x.next = (none, x) := by
  cases x
  cases h
  rw [next]

theorem next_layout (h : x.rest = c :: cs) (hclassify : Piece.classify c cs = (.layout, n)) :
    x.next = (x.behind ⟨.layout, c :: cs.take n⟩).next := by
  cases x
  cases h
  rw [next]
  dsimp only
  rw [hclassify]

theorem next_token {t : Token} (h : x.rest = c :: cs)
    (hclassify : Piece.classify c cs = (.token t, n)) :
    x.next =
      (some (.ok ⟨t, String.ofList (c :: cs.take n),
        (x.behind ⟨.token t, c :: cs.take n⟩).mark.place x.source x.offset⟩),
      x.behind ⟨.token t, c :: cs.take n⟩) := by
  cases x
  cases h
  rw [next]
  dsimp only
  rw [hclassify]

theorem next_rejected {reason : Rejection} (h : x.rest = c :: cs)
    (hclassify : Piece.classify c cs = (.rejected reason, n)) :
    x.next =
      (some (.error ⟨reason, String.ofList (c :: cs.take n),
        (x.behind ⟨.rejected reason, c :: cs.take n⟩).mark.place x.source x.offset⟩),
      x.behind ⟨.rejected reason, c :: cs.take n⟩) := by
  cases x
  cases h
  rw [next]
  dsimp only
  rw [hclassify]

theorem Delivers.of_next_eq {y : Lexer} {es : List (Except LexicalError Lexeme)} {last : Lexeme}
    (hnext : x.next = y.next) (h : y.Delivers es last) : x.Delivers es last := by
  cases h with
  | done h => exact .done (hnext.trans h)
  | more h hes => exact .more (hnext.trans h) hes

/-- A lexer that has read some characters of a source text and has the rest left, with the mark that
all line breaks give. -/
def between (before rest : List Char) : Lexer :=
  ⟨before ++ rest, rest, Text.byteLength before, LineMark.first.through 0 before⟩

/-- The line breaks that a piece holds open lines. -/
def OpensLines (role : Role) (text : List Char) : Prop :=
  '\n' ∈ text → role = .layout ∨ ∃ raw, role = .token (.stringLiteral raw)

variable {role : Role} {text : List Char}

theorem OpensLines.mark {m : LineMark} {offset : Nat} (h : OpensLines role text) :
    Piece.mark m offset ⟨role, text⟩ = m.through offset text := by
  by_cases hbreak : '\n' ∈ text
  · rcases h hbreak with rfl | ⟨raw, rfl⟩ <;> rfl
  · rw [LineMark.through_of_notMem hbreak]
    unfold Piece.mark
    split
    · exact LineMark.through_of_notMem hbreak
    · exact LineMark.through_of_notMem hbreak
    · rfl
    · rfl

theorem behind_between (h : OpensLines role text) :
    (between before (text ++ rest)).behind ⟨role, text⟩ = between (before ++ text) rest := by
  unfold behind between
  rw [h.mark, List.drop_left, ← List.append_assoc, Text.byteLength_append,
    LineMark.through_append, Nat.zero_add]

/-- The end of input is on the line of the mark, behind what was read of the text since. -/
theorem endOfInput_eq (before text : List Char) (offset : Nat) :
    (⟨before ++ text, [], offset, LineMark.first.through 0 before⟩ : Lexer).endOfInput =
      .endOfInput ((Position.behind before).advanceInLine text) := by
  unfold endOfInput Position.behind Position.advanceInLine
  dsimp only
  rw [LineMark.dropBytes_start, LineMark.line_through, List.length_append, Nat.add_comm _ 1,
    Nat.add_assoc]
  rfl

/-- A string literal without an end is read to the end of the text; its line breaks move no mark. -/
theorem delivers_open (hclassify : Piece.classify c rest = (.rejected .unrecognized, n))
    (hlength : rest.length ≤ n) :
    (between before (c :: rest)).Delivers (reading (.behind before) (c :: rest)).1
      (.endOfInput (reading (.behind before) (c :: rest)).2) := by
  have hplace := LineMark.place_through before [] (c :: rest)
  rw [List.append_nil] at hplace
  have hbehind : (between before (c :: rest)).behind ⟨.rejected .unrecognized, c :: rest⟩ =
      ⟨before ++ c :: rest, [], Text.byteLength before + Text.byteLength (c :: rest),
        LineMark.first.through 0 before⟩ := by
    unfold behind between
    rw [List.drop_length]
    rfl
  rw [reading_piece_rejected hclassify, List.take_of_length_le hlength,
    List.drop_of_length_le hlength, reading_nil, ← endOfInput_eq before (c :: rest)]
  refine .more ?_ (.done (next_nil rfl))
  rw [next_rejected rfl hclassify, List.take_of_length_le hlength, hbehind, ← hplace]
  rfl

/-- What a lexer delivers that has read some characters is what reading the rest gives. -/
theorem delivers_between (before rest : List Char) :
    (between before rest).Delivers (reading (.behind before) rest).1
      (.endOfInput (reading (.behind before) rest).2) := by
  induction rest using pieces.induct generalizing before with
  | case1 =>
    have hend := endOfInput_eq before [] (Text.byteLength before)
    have hplace : Position.behind before = (Position.behind before).advanceInLine [] := rfl
    rw [reading_nil, hplace, ← hend]
    exact .done (next_nil rfl)
  | case2 c rest role n hclassify ih =>
    have hsplit : c :: rest = (c :: rest.take n) ++ rest.drop n := by
      rw [List.cons_append, List.take_append_drop]
    have hplace := LineMark.place_through before (c :: rest.take n) (rest.drop n)
    rw [← hsplit] at hplace
    change (between (before ++ c :: rest.take n) (rest.drop n)).mark.place
      (between before (c :: rest)).source (between before (c :: rest)).offset = _ at hplace
    by_cases hlines : OpensLines role (c :: rest.take n)
    · have hbehind : (between before (c :: rest)).behind ⟨role, c :: rest.take n⟩ =
          between (before ++ c :: rest.take n) (rest.drop n) := by
        rw [hsplit]
        exact behind_between hlines
      have hmore := ih (before ++ c :: rest.take n)
      cases role with
      | layout =>
        rw [reading_piece_layout hclassify, Position.advance_behind]
        refine hmore.of_next_eq ?_
        rw [next_layout rfl hclassify, hbehind]
      | token t =>
        rw [reading_piece_token hclassify, Position.advance_behind]
        refine .more ?_ hmore
        rw [next_token rfl hclassify, hbehind, hplace]
      | rejected reason =>
        have hbreak : '\n' ∉ c :: rest.take n := by
          intro hmem
          rcases hlines hmem with h | ⟨raw, h⟩ <;> cases h
        rw [reading_piece_rejected hclassify, ← Position.behind_append hbreak]
        refine .more ?_ hmore
        rw [next_rejected rfl hclassify, hbehind, hplace]
    · obtain ⟨hbreak, hrole⟩ := Classical.not_imp.1 hlines
      rcases Piece.role_of_lineBreak hclassify hbreak with h | h | ⟨rfl, -, hlength⟩
      · exact absurd (.inl h) hrole
      · exact absurd (.inr h) hrole
      · exact delivers_open hclassify hlength

/-- A lexer delivers what the pieces of the source text are. -/
theorem delivers_ofSource (source : List Char) :
    (ofSource source).Delivers (entries source) (endOf source) :=
  delivers_between [] source

end Lexer

end MiniC
