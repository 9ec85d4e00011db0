import MiniC.Proofs.Lexeme.Delivered

/-!
# Calls on a stream of lexemes

What a stream answers is settled case by case (`Stream.Answers`), and a sequence of calls is
followed answer by answer (`Stream.Answered`): what it consumes and reports comes in order, and what
it shows ahead is what stands there (`Stream.Shows`).
-/

namespace MiniC

variable {ls : List Lexeme} {l last : Lexeme} {e : LexicalError}
  {es : List (Except LexicalError Lexeme)} {n : Nat}

/-! ## Lexemes and errors among the entries -/

/-- The lexemes among the entries of a text. -/
def lexemesOf : List (Except LexicalError Lexeme) → List Lexeme
  | [] => []
  | .ok l :: es => l :: lexemesOf es
  | .error _ :: es => lexemesOf es

/-- The lexical errors among the entries of a text. -/
def errorsOf : List (Except LexicalError Lexeme) → List LexicalError
  | [] => []
  | .ok _ :: es => errorsOf es
  | .error e :: es => e :: errorsOf es

theorem lexemesOf_map_append (ls : List Lexeme) (es : List (Except LexicalError Lexeme)) :
    lexemesOf (ls.map .ok ++ es) = ls ++ lexemesOf es := by
  induction ls with
  | nil => rfl
  | cons l ls ih => exact congrArg (l :: ·) ih

theorem errorsOf_map_append (ls : List Lexeme) (es : List (Except LexicalError Lexeme)) :
    errorsOf (ls.map .ok ++ es) = errorsOf es := by
  induction ls with
  | nil => rfl
  | cons l ls ih => exact ih

theorem lexemesOf_map (ls : List Lexeme) : lexemesOf (ls.map .ok) = ls := by
  have h := lexemesOf_map_append ls []
  rwa [List.append_nil, lexemesOf, List.append_nil] at h

theorem errorsOf_map (ls : List Lexeme) : errorsOf (ls.map .ok) = [] := by
  have h := errorsOf_map_append ls []
  rwa [List.append_nil] at h

theorem mem_lexemesOf : l ∈ lexemesOf es ↔ .ok l ∈ es := by
  induction es with
  | nil => simp [lexemesOf]
  | cons entry es ih =>
    cases entry with
    | error e => simpa [lexemesOf] using ih
    | ok l' => simp [lexemesOf, ih]

/-- Going `n` places along the entries meets an error, a lexeme at that place, or the end. -/
theorem exists_ahead (n : Nat) (es : List (Except LexicalError Lexeme)) :
    (∃ (ls : List Lexeme) (e : LexicalError) (more : List (Except LexicalError Lexeme)),
      es = ls.map .ok ++ .error e :: more ∧ ls.length ≤ n) ∨
    (∃ (ls : List Lexeme) (l : Lexeme) (more : List (Except LexicalError Lexeme)),
      es = ls.map .ok ++ .ok l :: more ∧ ls.length = n) ∨
    ∃ ls : List Lexeme, es = ls.map .ok ∧ ls.length ≤ n := by
  induction es generalizing n with
  | nil => exact .inr (.inr ⟨[], rfl, Nat.zero_le n⟩)
  | cons entry es ih =>
    cases entry with
    | error e => exact .inl ⟨[], e, es, rfl, Nat.zero_le n⟩
    | ok l =>
      cases n with
      | zero => exact .inr (.inl ⟨[], l, es, rfl, rfl⟩)
      | succ n =>
        rcases ih n with ⟨ls, e, more, rfl, hls⟩ | ⟨ls, l', more, rfl, hls⟩ | ⟨ls, rfl, hls⟩
        · exact .inl ⟨l :: ls, e, more, rfl, Nat.succ_le_succ hls⟩
        · exact .inr (.inl ⟨l :: ls, l', more, rfl, congrArg Nat.succ hls⟩)
        · exact .inr (.inr ⟨l :: ls, rfl, Nat.succ_le_succ hls⟩)

/-! ## Calls -/

/-- A call on a stream of lexemes. -/
inductive StreamCall
  | peek (n : Nat)
  | advance

/-- How far ahead a call looks. -/
def StreamCall.distance : StreamCall → Nat
  | .peek n => n
  | .advance => 0

/-- What a call answers, and what it leaves. -/
def Stream.call (s : Stream) : StreamCall → Except LexicalError Lexeme × Stream
  | .peek n => s.peek n
  | .advance => s.advance

/-- A sequence of calls, each with its answer. -/
def answers {σ : Type} (call : σ → StreamCall → Except LexicalError Lexeme × σ) :
    σ → List StreamCall → List (StreamCall × Except LexicalError Lexeme)
  | _, [] => []
  | s, c :: cs => (c, (call s c).1) :: answers call (call s c).2 cs

/-- What a sequence of calls leaves. -/
def afterCalls {σ : Type} (call : σ → StreamCall → Except LexicalError Lexeme × σ) :
    σ → List StreamCall → σ
  | s, [] => s
  | s, c :: cs => afterCalls call (call s c).2 cs

/-- The lexemes that calls of `advance` return. -/
def delivered : List (StreamCall × Except LexicalError Lexeme) → List Lexeme
  | [] => []
  | (.advance, .ok l) :: trace => l :: delivered trace
  | _ :: trace => delivered trace

/-- The lexical errors that calls report. -/
def reported (trace : List (StreamCall × Except LexicalError Lexeme)) : List LexicalError :=
  errorsOf (trace.map Prod.snd)

/-! ## Streams -/

namespace Stream

theorem firstError_error (hls : ls.length ≤ n) :
    firstError (n + 1) (ls.map .ok ++ .error e :: es) = some (e, ls.map .ok ++ es) := by
  induction ls generalizing n with
  | nil => rfl
  | cons l ls ih =>
    obtain ⟨n, rfl⟩ := Nat.exists_eq_add_of_lt (Nat.lt_of_lt_of_le (Nat.succ_pos _) hls)
    have hls : ls.length ≤ n := by simpa using hls
    rw [Nat.zero_add, List.map_cons, List.cons_append, firstError, ih hls]
    rfl

theorem firstError_readable (hls : n ≤ ls.length) : firstError n (ls.map .ok ++ es) = none := by
  induction ls generalizing n with
  | nil =>
    rw [Nat.le_zero.1 hls]
    rfl
  | cons l ls ih =>
    cases n with
    | zero => rfl
    | succ n =>
      rw [List.map_cons, List.cons_append, firstError, ih (Nat.le_of_succ_le_succ hls)]
      rfl

theorem firstError_ended (n : Nat) (ls : List Lexeme) : firstError n (ls.map .ok) = none := by
  induction ls generalizing n with
  | nil => cases n <;> rfl
  | cons l ls ih =>
    cases n with
    | zero => rfl
    | succ n =>
      rw [List.map_cons, firstError, ih n]
      rfl

theorem peek_error (hls : ls.length ≤ n) :
    peek ⟨ls.map .ok ++ .error e :: es, last⟩ n = (.error e, ⟨ls.map .ok ++ es, last⟩) := by
  unfold peek
  rw [firstError_error hls]

theorem peek_ahead (hls : ls.length = n) :
    peek ⟨ls.map .ok ++ .ok l :: es, last⟩ n = (.ok l, ⟨ls.map .ok ++ .ok l :: es, last⟩) := by
  have hnone : firstError (n + 1) (ls.map .ok ++ .ok l :: es) = none := by
    have hmore : ls.map .ok ++ .ok l :: es = (ls ++ [l]).map .ok ++ es := by simp
    rw [hmore]
    exact firstError_readable (by simp [hls])
  unfold peek
  rw [hnone]
  dsimp only
  rw [List.getElem?_append_right (by simp [hls])]
  simp [hls]

/-- Without lexical errors, looking ahead shows what stands there, or the end of input. -/
theorem peek_readable (ls : List Lexeme) (last : Lexeme) (n : Nat) :
    peek ⟨ls.map .ok, last⟩ n = (.ok (ls[n]?.getD last), ⟨ls.map .ok, last⟩) := by
  unfold peek
  rw [firstError_ended]
  dsimp only
  rw [List.getElem?_map]
  cases ls[n]? <;> rfl

theorem peek_beyond (hls : ls.length ≤ n) :
    peek ⟨ls.map .ok, last⟩ n = (.ok last, ⟨ls.map .ok, last⟩) := by
  rw [peek_readable, List.getElem?_eq_none hls, Option.getD_none]

/-- What a call answers when some entries and the end are left, and which entries it leaves. -/
inductive Answers (last : Lexeme) : List (Except LexicalError Lexeme) → StreamCall →
    Except LexicalError Lexeme → List (Except LexicalError Lexeme) → Prop
  | report {ls : List Lexeme} {e : LexicalError} {es : List (Except LexicalError Lexeme)}
      {c : StreamCall} (hls : ls.length ≤ c.distance) :
      Answers last (ls.map .ok ++ .error e :: es) c (.error e) (ls.map .ok ++ es)
  | ahead {ls : List Lexeme} {l : Lexeme} {es : List (Except LexicalError Lexeme)} :
      Answers last (ls.map .ok ++ .ok l :: es) (.peek ls.length) (.ok l)
        (ls.map .ok ++ .ok l :: es)
  | beyond {ls : List Lexeme} {n : Nat} (hls : ls.length ≤ n) :
      Answers last (ls.map .ok) (.peek n) (.ok last) (ls.map .ok)
  | consume {l : Lexeme} {es : List (Except LexicalError Lexeme)} :
      Answers last (.ok l :: es) .advance (.ok l) es
  | atEnd : Answers last [] .advance (.ok last) []

/-- Every call answers in one of these ways. -/
theorem call_answers (s : Stream) (c : StreamCall) :
    ∃ es, (s.call c).2 = ⟨es, s.last⟩ ∧ Answers s.last s.entries c (s.call c).1 es := by
  obtain ⟨es, last⟩ := s
  cases c with
  | peek n =>
    change ∃ es', (peek ⟨es, last⟩ n).2 = ⟨es', last⟩ ∧
      Answers last es (.peek n) (peek ⟨es, last⟩ n).1 es'
    rcases exists_ahead n es with ⟨ls, e, more, rfl, hls⟩ | ⟨ls, l, more, rfl, rfl⟩ | ⟨ls, rfl, hls⟩
    · rw [peek_error hls]
      exact ⟨_, rfl, .report hls⟩
    · rw [peek_ahead rfl]
      exact ⟨_, rfl, .ahead⟩
    · rw [peek_beyond hls]
      exact ⟨_, rfl, .beyond hls⟩
  | advance =>
    rcases es with _ | ⟨e | l, es⟩
    · exact ⟨_, rfl, .atEnd⟩
    · exact ⟨_, rfl, @Answers.report last [] e es .advance (Nat.le_refl 0)⟩
    · exact ⟨_, rfl, .consume⟩

theorem Answers.mem {c : StreamCall} {a : Except LexicalError Lexeme}
    {es' : List (Except LexicalError Lexeme)} (h : Answers last es c a es') (hl : .ok l ∈ es') :
    .ok l ∈ es := by
  cases h with
  | report =>
    rcases List.mem_append.1 hl with hl | hl
    · exact List.mem_append_left _ hl
    · exact List.mem_append_right _ (List.mem_cons_of_mem _ hl)
  | ahead | beyond | atEnd => exact hl
  | consume => exact List.mem_cons_of_mem _ hl

theorem EndsOnce.call {t : Stream} (ht : t.EndsOnce) (c : StreamCall) : (t.call c).2.EndsOnce := by
  obtain ⟨es, hcall, hanswers⟩ := t.call_answers c
  rw [hcall]
  exact ⟨ht.last, fun l hl => ht.entries l (hanswers.mem hl)⟩

/-! ### Sequences of calls -/

theorem EndsOnce.afterCalls {t : Stream} (ht : t.EndsOnce) (calls : List StreamCall) :
    (afterCalls Stream.call t calls).EndsOnce := by
  induction calls generalizing t with
  | nil => exact ht
  | cons c calls ih => exact ih (ht.call c)

/-- A sequence of calls with the answers of a stream that holds some entries and the end. -/
inductive Answered (last : Lexeme) : List (Except LexicalError Lexeme) →
    List (StreamCall × Except LexicalError Lexeme) → Prop
  | nil {es : List (Except LexicalError Lexeme)} : Answered last es []
  | cons {es es' : List (Except LexicalError Lexeme)} {c : StreamCall}
      {a : Except LexicalError Lexeme} {trace : List (StreamCall × Except LexicalError Lexeme)}
      (h : Answers last es c a es') (htrace : Answered last es' trace) :
      Answered last es ((c, a) :: trace)

theorem answers_answered (t : Stream) (calls : List StreamCall) :
    Answered t.last t.entries (answers call t calls) := by
  induction calls generalizing t with
  | nil => exact .nil
  | cons c calls ih =>
    obtain ⟨es, hcall, hanswers⟩ := t.call_answers c
    have htrace := ih (t.call c).2
    rw [hcall] at htrace
    rw [answers, hcall]
    exact .cons hanswers htrace

variable {trace earlier later : List (StreamCall × Except LexicalError Lexeme)}

theorem Answered.delivered_prefix (h : Answered last es trace) :
    delivered trace <+: lexemesOf es ++ List.replicate trace.length last := by
  induction h with
  | nil => exact List.nil_prefix
  | @cons es es' c a trace h _ ih =>
    have hlonger : lexemesOf es' ++ List.replicate trace.length last <+:
        lexemesOf es' ++ List.replicate (trace.length + 1) last := by
      rw [List.replicate_succ', ← List.append_assoc]
      exact List.prefix_append _ _
    cases h with
    | @report ls e es c =>
      have hdelivered : delivered ((c, .error e) :: trace) = delivered trace := by
        cases c <;> rfl
      rw [hdelivered, lexemesOf_map_append, lexemesOf, ← lexemesOf_map_append]
      exact ih.trans hlonger
    | ahead | beyond => exact ih.trans hlonger
    | consume => exact (List.prefix_cons_inj _).2 (ih.trans hlonger)
    | atEnd => exact (List.prefix_cons_inj last).2 ih

theorem Answered.reported_prefix (h : Answered last es trace) :
    reported trace <+: errorsOf es := by
  induction h with
  | nil => exact List.nil_prefix
  | cons h _ ih =>
    cases h with
    | report =>
      rw [errorsOf_map_append] at ih ⊢
      exact (List.prefix_cons_inj _).2 ih
    | ahead | beyond | consume | atEnd => exact ih

/-- A lexeme stands at a place of the run, counted in lexemes, and the errors before it are among
those that were reported; or it is the end of input, the run has fewer lexemes, and all its errors
were reported. -/
def Shows (items : List (Except LexicalError Lexeme)) (last : Lexeme) (done : List LexicalError)
    (place : Nat) (l : Lexeme) : Prop :=
  (∃ before after, items = before ++ .ok l :: after ∧ (lexemesOf before).length = place ∧
    errorsOf before <+: done) ∨
  l = last ∧ (lexemesOf items).length ≤ place ∧ done = errorsOf items

variable {done : List LexicalError} {place : Nat}

theorem Answers.shows {c : StreamCall} {es' : List (Except LexicalError Lexeme)}
    (h : Answers last es c (.ok l) es') : Shows es last [] c.distance l := by
  cases h with
  | @ahead ls =>
    refine .inl ⟨ls.map .ok, _, rfl, ?_, ?_⟩
    · rw [lexemesOf_map]
      rfl
    · exact List.prefix_nil.2 (errorsOf_map ls)
  | @beyond ls n hls =>
    refine .inr ⟨rfl, ?_, (errorsOf_map ls).symm⟩
    rw [lexemesOf_map]
    exact hls
  | consume => exact .inl ⟨[], _, rfl, rfl, List.nil_prefix⟩
  | atEnd => exact .inr ⟨rfl, Nat.le_refl 0, rfl⟩

/-- An error that was met while looking ahead stands before or behind what is shown later. -/
theorem Shows.report (h : Shows (ls.map .ok ++ es) last done place l) :
    Shows (ls.map .ok ++ .error e :: es) last (e :: done) place l := by
  rcases h with ⟨before, after, heq, rfl, herrors⟩ | ⟨rfl, hlength, rfl⟩
  · rcases List.append_eq_append_iff.1 heq with ⟨more, rfl, rfl⟩ | ⟨more, hls, hafter⟩
    · refine .inl ⟨ls.map .ok ++ .error e :: more, after, by simp, ?_, ?_⟩
      · rw [lexemesOf_map_append, lexemesOf_map_append, lexemesOf]
      · rw [errorsOf_map_append] at herrors ⊢
        exact (List.prefix_cons_inj e).2 herrors
    · obtain ⟨ls, ls', rfl, rfl, rfl⟩ := List.map_eq_append_iff.1 hls
      cases ls' with
      | nil =>
        obtain rfl : .ok l :: after = es := hafter
        refine .inl ⟨ls.map .ok ++ [.error e], after, by simp, ?_, ?_⟩
        · rw [lexemesOf_map_append, lexemesOf_map, lexemesOf, lexemesOf, List.append_nil]
        · rw [errorsOf_map_append]
          exact (List.prefix_cons_inj e).2 List.nil_prefix
      | cons l' ls' =>
        obtain ⟨hl, rfl⟩ := List.cons.inj hafter
        obtain rfl := Except.ok.inj hl
        refine .inl ⟨ls.map .ok, ls'.map .ok ++ .error e :: es, by simp, rfl, ?_⟩
        rw [errorsOf_map]
        exact List.nil_prefix
  · refine .inr ⟨rfl, ?_, ?_⟩
    · rwa [lexemesOf_map_append] at hlength ⊢
    · rw [errorsOf_map_append, errorsOf_map_append, errorsOf]

theorem Shows.consume {l' : Lexeme} (h : Shows es last done place l) :
    Shows (.ok l' :: es) last done (place + 1) l := by
  rcases h with ⟨before, after, rfl, rfl, herrors⟩ | ⟨rfl, hlength, rfl⟩
  · exact .inl ⟨.ok l' :: before, after, rfl, rfl, herrors⟩
  · exact .inr ⟨rfl, Nat.succ_le_succ hlength, rfl⟩

theorem Shows.further {place' : Nat} (h : Shows [] last done place l) (hplace : place ≤ place') :
    Shows [] last done place' l := by
  rcases h with ⟨before, after, heq, -⟩ | ⟨rfl, hlength, rfl⟩
  · cases before <;> cases heq
  · exact .inr ⟨rfl, Nat.le_trans hlength hplace, rfl⟩

theorem Answered.shows {c : StreamCall} (h : Answered last es (earlier ++ (c, .ok l) :: later)) :
    Shows es last (reported earlier) ((delivered earlier).length + c.distance) l := by
  induction earlier generalizing es with
  | nil =>
    cases h with
    | cons h _ =>
      rw [delivered, List.length_nil, Nat.zero_add]
      exact h.shows
  | cons first earlier ih =>
    cases h with
    | @cons _ es' c' a _ h htrace =>
      have hmore := ih htrace
      cases h with
      | report =>
        have hdelivered : ∀ e, delivered ((c', .error e) :: earlier) = delivered earlier := by
          cases c' <;> exact fun e => rfl
        rw [hdelivered]
        exact hmore.report
      | ahead | beyond => exact hmore
      | consume =>
        rw [delivered, List.length_cons, Nat.add_right_comm]
        exact hmore.consume
      | atEnd =>
        rw [delivered, List.length_cons, Nat.add_right_comm]
        exact hmore.further (Nat.le_succ _)

/-- What is shown ahead is what is consumed there. -/
theorem Answered.eq_of_peek {l' : Lexeme}
    (h : Answered last es (earlier ++ (.peek n, .ok l) :: later))
    (hlater : (delivered later)[n]? = some l') : l' = l := by
  induction earlier generalizing es with
  | nil =>
    cases h with
    | cons h htrace =>
      obtain ⟨rest, hrest⟩ := htrace.delivered_prefix
      have hget : (delivered later ++ rest)[n]? = (delivered later)[n]? :=
        List.getElem?_append_left (List.getElem?_eq_some_iff.1 hlater).1
      rw [hrest, hlater] at hget
      cases h with
      | @ahead ls l es =>
        rw [lexemesOf_map_append, List.append_assoc, List.getElem?_append_right (Nat.le_refl _),
          Nat.sub_self] at hget
        exact (Option.some.inj hget).symm
      | @beyond ls n hls =>
        rw [lexemesOf_map, List.getElem?_append_right hls] at hget
        exact List.eq_of_mem_replicate (List.mem_of_getElem? hget)
  | cons first earlier ih =>
    cases h with
    | cons _ htrace => exact ih htrace

end Stream

end MiniC
