import MiniC.Lexeme.Lookahead
import MiniC.Proofs.Lexeme.Calls
import MiniC.Proofs.Lexeme.OnDemand

/-!
# Looking ahead loses nothing

`s.Views t` says that a buffered lexer has still to deliver what the stream `t` holds: the buffer
first, then what its lexer delivers.  Every call keeps the two together and answers the same
(`Views.call`), however far it looks; so a sequence of calls is `Faithful` to what `advance` alone
would deliver.  Main statement: `lookahead_faithful`.
-/

namespace MiniC

variable {ls : List Lexeme} {l last : Lexeme} {e : LexicalError}
  {es : List (Except LexicalError Lexeme)} {n : Nat}

/-! ## Buffers -/

namespace Lookahead

variable {lexer : Lexer} {s : Lookahead} {t : Stream} {buffer : List Lexeme}

/-- What a call answers, and what it leaves. -/
def call (s : Lookahead) : StreamCall → Except LexicalError Lexeme × Lookahead
  | .peek n => s.peek n
  | .advance => s.advance

/-- What is still to be delivered: the buffer, and what the lexer delivers, unless the end of input
is buffered already. -/
inductive Views : Lookahead → Stream → Prop
  | reading {lexer : Lexer} {buffer : List Lexeme} {es : List (Except LexicalError Lexeme)}
      {last : Lexeme} (h : lexer.Delivers es last) :
      Views ⟨lexer, buffer⟩ ⟨buffer.map .ok ++ es, last⟩
  | ended {lexer : Lexer} {ls : List Lexeme} {last : Lexeme} :
      Views ⟨lexer, ls ++ [last]⟩ ⟨ls.map .ok, last⟩

theorem views_ofSource (source : String) : (ofSource source).Views (.ofSource source) :=
  @Views.reading _ [] _ _ (Lexer.delivers_ofSource source.toList)

theorem ended_iff : s.ended = true ↔ ∃ ls l, s.buffer = ls ++ [l] ∧ l.kind = .endOfInput := by
  unfold ended
  constructor
  · intro h
    obtain ⟨l, hl, hkind⟩ := (Option.any_eq_true _ _).1 h
    obtain ⟨ls, hls⟩ := List.getLast?_eq_some_iff.1 hl
    exact ⟨ls, l, hls, of_decide_eq_true hkind⟩
  · rintro ⟨ls, l, hbuffer, hkind⟩
    rw [hbuffer, List.getLast?_append]
    exact decide_eq_true hkind

theorem ended_eq_false (h : ∀ l ∈ s.buffer, l.kind ≠ .endOfInput) : s.ended = false := by
  refine Bool.eq_false_iff.2 fun hended => ?_
  obtain ⟨ls, l, hbuffer, hkind⟩ := ended_iff.1 hended
  exact h l (hbuffer ▸ List.mem_append_right ls List.mem_cons_self) hkind

theorem fill_ended (h : s.ended = true) (missing : Nat) : s.fill missing = (.ok (), s) := by
  cases missing with
  | zero => rfl
  | succ missing => rw [fill, if_pos h]

/-- Filling a buffer ends before the first lexical error, when enough is buffered, or with the end
of input. -/
theorem fill_cases (missing : Nat) (h : lexer.Delivers es last) (hlast : last.kind = .endOfInput)
    (hes : ∀ l, .ok l ∈ es → l.kind ≠ .endOfInput)
    (hbuffer : ∀ l ∈ buffer, l.kind ≠ .endOfInput) :
    (∃ (ls : List Lexeme) (e : LexicalError) (more : List (Except LexicalError Lexeme))
        (lexer' : Lexer),
      es = ls.map .ok ++ .error e :: more ∧ ls.length < missing ∧ lexer'.Delivers more last ∧
      fill missing ⟨lexer, buffer⟩ = (.error e, ⟨lexer', buffer ++ ls⟩)) ∨
    (∃ (ls : List Lexeme) (more : List (Except LexicalError Lexeme)) (lexer' : Lexer),
      es = ls.map .ok ++ more ∧ ls.length = missing ∧ lexer'.Delivers more last ∧
      fill missing ⟨lexer, buffer⟩ = (.ok (), ⟨lexer', buffer ++ ls⟩)) ∨
    ∃ (ls : List Lexeme) (lexer' : Lexer), es = ls.map .ok ∧ ls.length < missing ∧
      fill missing ⟨lexer, buffer⟩ = (.ok (), ⟨lexer', buffer ++ ls ++ [last]⟩) := by
  induction missing generalizing lexer buffer es with
  | zero =>
    refine .inr (.inl ⟨[], es, lexer, rfl, rfl, h, ?_⟩)
    rw [List.append_nil, fill]
  | succ missing ih =>
    have hended : ended ⟨lexer, buffer⟩ = false := ended_eq_false hbuffer
    cases h with
    | @done _ y hnext =>
      have hended' : ended ⟨y, buffer ++ [y.endOfInput]⟩ = true :=
        ended_iff.2 ⟨buffer, y.endOfInput, rfl, hlast⟩
      refine .inr (.inr ⟨[], y, rfl, Nat.succ_pos missing, ?_⟩)
      rw [fill, hended, if_neg Bool.false_ne_true, hnext, List.append_nil]
      exact fill_ended hended' missing
    | @more _ y entry es _ hnext hmore =>
      cases entry with
      | error e =>
        refine .inl ⟨[], e, es, y, rfl, Nat.succ_pos missing, hmore, ?_⟩
        rw [fill, hended, if_neg Bool.false_ne_true, hnext, List.append_nil]
      | ok l =>
        have hfill : fill (missing + 1) ⟨lexer, buffer⟩ = fill missing ⟨y, buffer ++ [l]⟩ := by
          rw [fill, hended, if_neg Bool.false_ne_true, hnext]
        have hbuffer' : ∀ l' ∈ buffer ++ [l], l'.kind ≠ .endOfInput := by
          intro l' hl'
          rcases List.mem_append.1 hl' with hl' | hl'
          · exact hbuffer l' hl'
          · exact hes l' (List.mem_singleton.1 hl' ▸ List.mem_cons_self)
        rw [hfill]
        rcases ih hmore (fun l' hl' => hes l' (List.mem_cons_of_mem _ hl')) hbuffer' with
          ⟨ls, e, more, lexer', rfl, hls, hmore', hfill'⟩ |
          ⟨ls, more, lexer', rfl, hls, hmore', hfill'⟩ | ⟨ls, lexer', rfl, hls, hfill'⟩
        · refine .inl ⟨l :: ls, e, more, lexer', rfl, Nat.succ_lt_succ hls, hmore', ?_⟩
          rw [hfill', List.append_assoc, List.singleton_append]
        · refine .inr (.inl ⟨l :: ls, more, lexer', rfl, congrArg Nat.succ hls, hmore', ?_⟩)
          rw [hfill', List.append_assoc, List.singleton_append]
        · refine .inr (.inr ⟨l :: ls, lexer', rfl, Nat.succ_lt_succ hls, ?_⟩)
          rw [hfill', List.append_assoc buffer, List.singleton_append]

/-- Filling a buffer to look `n` places ahead meets what stands there. -/
theorem fill_views (n : Nat) (h : s.Views t) (ht : t.EndsOnce) :
    (∃ (ls : List Lexeme) (e : LexicalError) (more : List (Except LexicalError Lexeme))
        (s' : Lookahead),
      t.entries = ls.map .ok ++ .error e :: more ∧ ls.length ≤ n ∧
      s.fill (n + 1 - s.buffer.length) = (.error e, s') ∧
      s'.Views ⟨ls.map .ok ++ more, t.last⟩) ∨
    (∃ (ls : List Lexeme) (l : Lexeme) (after : List Lexeme)
        (more : List (Except LexicalError Lexeme)) (lexer' : Lexer),
      t.entries = ls.map .ok ++ .ok l :: more ∧ ls.length = n ∧
      s.fill (n + 1 - s.buffer.length) = (.ok (), ⟨lexer', ls ++ l :: after⟩) ∧
      Views ⟨lexer', ls ++ l :: after⟩ t) ∨
    ∃ (ls : List Lexeme) (lexer' : Lexer), t.entries = ls.map .ok ∧ ls.length ≤ n ∧
      s.fill (n + 1 - s.buffer.length) = (.ok (), ⟨lexer', ls ++ [t.last]⟩) := by
  have hsplit : ∀ buffer : List Lexeme, n < buffer.length →
      ∃ ls l after, buffer = ls ++ l :: after ∧ ls.length = n := by
    intro buffer hn
    refine ⟨buffer.take n, buffer[n], buffer.drop (n + 1), ?_, List.length_take_of_le hn.le⟩
    rw [← List.drop_eq_getElem_cons hn, List.take_append_drop]
  cases h with
  | @reading lexer buffer es last hlexer =>
    have hes : ∀ l, .ok l ∈ es → l.kind ≠ .endOfInput :=
      fun l hl => ht.entries l (List.mem_append_right _ hl)
    have hbuffer : ∀ l ∈ buffer, l.kind ≠ .endOfInput :=
      fun l hl => ht.entries l (List.mem_append_left _ (List.mem_map_of_mem hl))
    rcases fill_cases (n + 1 - buffer.length) hlexer ht.last hes hbuffer with
      ⟨ls, e, more, lexer', rfl, hls, hmore, hfill⟩ |
      ⟨ls, more, lexer', rfl, hls, hmore, hfill⟩ | ⟨ls, lexer', rfl, hls, hfill⟩
    · refine .inl ⟨buffer ++ ls, e, more, _, by simp, ?_, hfill, .reading hmore⟩
      rw [List.length_append]
      omega
    · have hlong : n < (buffer ++ ls).length := by
        rw [List.length_append]
        omega
      have hviews :
          Views ⟨lexer', buffer ++ ls⟩ ⟨buffer.map .ok ++ (ls.map .ok ++ more), last⟩ := by
        rw [← List.append_assoc, ← List.map_append]
        exact .reading hmore
      obtain ⟨ls', l, after, hbuffer', hls'⟩ := hsplit _ hlong
      rw [hbuffer'] at hfill hviews
      refine .inr (.inl ⟨ls', l, after, after.map .ok ++ more, lexer', ?_, hls', hfill, hviews⟩)
      dsimp only
      rw [← List.append_assoc, ← List.map_append, hbuffer']
      simp
    · refine .inr (.inr ⟨buffer ++ ls, lexer', by simp, ?_, hfill⟩)
      rw [List.length_append]
      omega
  | @ended lexer buffer last =>
    have hended : ended ⟨lexer, buffer ++ [last]⟩ = true :=
      ended_iff.2 ⟨buffer, last, rfl, ht.last⟩
    have hfill := fill_ended hended (n + 1 - (buffer ++ [last]).length)
    by_cases hn : n < buffer.length
    · obtain ⟨ls, l, after, rfl, hls⟩ := hsplit _ hn
      rw [List.append_assoc, List.cons_append] at hfill ⊢
      refine .inr (.inl ⟨ls, l, after ++ [last], after.map .ok, lexer, by simp, hls, hfill, ?_⟩)
      rw [← List.cons_append, ← List.append_assoc]
      exact .ended
    · exact .inr (.inr ⟨buffer, lexer, rfl, Nat.le_of_not_lt hn, hfill⟩)

/-- Consuming the first lexeme of the buffer. -/
theorem Views.tail (h : Views ⟨lexer, l :: buffer⟩ ⟨.ok l :: es, last⟩) :
    Views ⟨lexer, buffer⟩ ⟨es, last⟩ := by
  generalize hs : (⟨lexer, l :: buffer⟩ : Lookahead) = s at h
  generalize ht : (⟨.ok l :: es, last⟩ : Stream) = t at h
  cases h with
  | reading h =>
    cases hs
    cases ht
    exact .reading h
  | @ended _ ls =>
    cases ls with
    | nil => cases ht
    | cons =>
      cases hs
      cases ht
      exact .ended

theorem call_of_fill_error {s' : Lookahead} {c : StreamCall}
    (h : s.fill (c.distance + 1 - s.buffer.length) = (.error e, s')) :
    s.call c = (.error e, s') := by
  cases c with
  | peek n =>
    unfold call peek
    dsimp only [StreamCall.distance] at h ⊢
    rw [h]
  | advance =>
    unfold call advance
    dsimp only [StreamCall.distance] at h ⊢
    rw [h]

theorem peek_of_fill {after : List Lexeme}
    (h : s.fill (n + 1 - s.buffer.length) = (.ok (), ⟨lexer, ls ++ l :: after⟩))
    (hls : min n (ls.length + after.length) = ls.length) :
    s.peek n = (.ok l, ⟨lexer, ls ++ l :: after⟩) := by
  have hlast : (ls ++ l :: after).length - 1 = ls.length + after.length := by simp
  unfold peek
  rw [h]
  dsimp only
  rw [hlast, hls, List.getElem?_append_right (Nat.le_refl _), Nat.sub_self]
  rfl

theorem advance_of_fill (h : s.fill (1 - s.buffer.length) = (.ok (), ⟨lexer, l :: buffer⟩)) :
    s.advance =
      (.ok l, if l.kind = .endOfInput then ⟨lexer, l :: buffer⟩ else ⟨lexer, buffer⟩) := by
  unfold advance
  rw [h]

/-- Every call answers as the stream does, and leaves what the stream leaves. -/
theorem Views.call (h : s.Views t) (ht : t.EndsOnce) (c : StreamCall) :
    (s.call c).1 = (t.call c).1 ∧ (s.call c).2.Views (t.call c).2 := by
  obtain ⟨entries, last⟩ := t
  rcases fill_views c.distance h ht with
    ⟨ls, e, more, s', rfl, hls, hfill, hviews⟩ |
    ⟨ls, l, after, more, lexer', rfl, hls, hfill, hviews⟩ | ⟨ls, lexer', rfl, hls, hfill⟩
  · have hstream : Stream.call ⟨ls.map .ok ++ .error e :: more, last⟩ c =
        (.error e, ⟨ls.map .ok ++ more, last⟩) := by
      cases c with
      | peek n => exact Stream.peek_error hls
      | advance =>
        rw [List.length_eq_zero_iff.1 (Nat.le_zero.1 hls)]
        rfl
    rw [call_of_fill_error hfill, hstream]
    exact ⟨rfl, hviews⟩
  · cases c with
    | peek n =>
      have hplace : min n (ls.length + after.length) = ls.length := by
        rw [hls]
        exact Nat.min_eq_left (Nat.le_add_right n _)
      have hpeek : s.call (.peek n) = (.ok l, ⟨lexer', ls ++ l :: after⟩) :=
        peek_of_fill hfill hplace
      rw [hpeek, show Stream.call _ (.peek n) = _ from Stream.peek_ahead hls]
      exact ⟨rfl, hviews⟩
    | advance =>
      obtain rfl := List.length_eq_zero_iff.1 hls
      have hkind : l.kind ≠ .endOfInput := ht.entries l List.mem_cons_self
      have hadvance := advance_of_fill hfill
      rw [if_neg hkind] at hadvance
      rw [show s.call .advance = _ from hadvance]
      exact ⟨rfl, hviews.tail⟩
  · cases c with
    | peek n =>
      have hpeek : s.call (.peek n) = (.ok last, ⟨lexer', ls ++ [last]⟩) :=
        peek_of_fill hfill (Nat.min_eq_right hls)
      rw [hpeek, show Stream.call _ (.peek n) = _ from Stream.peek_beyond hls]
      exact ⟨rfl, .ended⟩
    | advance =>
      obtain rfl := List.length_eq_zero_iff.1 (Nat.le_zero.1 hls)
      have hadvance := advance_of_fill hfill
      rw [if_pos ht.last] at hadvance
      rw [show s.call .advance = _ from hadvance]
      exact ⟨rfl, @Views.ended lexer' [] last⟩

/-- A buffered lexer answers every sequence of calls as the stream of the source text does. -/
theorem Views.answers_eq (h : s.Views t) (ht : t.EndsOnce) (calls : List StreamCall) :
    answers Lookahead.call s calls = answers Stream.call t calls := by
  induction calls generalizing s t with
  | nil => rfl
  | cons c calls ih =>
    obtain ⟨hanswer, hviews⟩ := h.call ht c
    rw [answers, answers, hanswer, ih hviews (ht.call c)]

/-- A buffered lexer and the stream stay together through every sequence of calls. -/
theorem Views.afterCalls (h : s.Views t) (ht : t.EndsOnce) (calls : List StreamCall) :
    (afterCalls Lookahead.call s calls).Views (afterCalls Stream.call t calls) := by
  induction calls generalizing s t with
  | nil => exact h
  | cons c calls ih => exact ih (h.call ht c).2 (ht.call c)

/-- Calling `advance` again and again gives some lexemes and lexical errors, and then the end of
input. -/
inductive Produces : Lookahead → List (Except LexicalError Lexeme) → Lexeme → Prop
  | done {s : Lookahead} {l : Lexeme} (h : s.advance.1 = .ok l) (hl : l.kind = .endOfInput) :
      Produces s [] l
  | more {s : Lookahead} {entry : Except LexicalError Lexeme} {last : Lexeme}
      {es : List (Except LexicalError Lexeme)} (h : s.advance.1 = entry)
      (hentry : ∀ l, entry = .ok l → l.kind ≠ .endOfInput) (hes : Produces s.advance.2 es last) :
      Produces s (entry :: es) last

theorem Views.produces (h : s.Views t) (ht : t.EndsOnce) : s.Produces t.entries t.last := by
  obtain ⟨es, last⟩ := t
  induction es generalizing s with
  | nil => exact .done (h.call ht .advance).1 ht.last
  | cons entry es ih =>
    obtain ⟨hanswer, hviews⟩ := h.call ht .advance
    have hes := ih hviews (ht.call .advance)
    exact .more hanswer (fun l hl => ht.entries l (hl ▸ List.mem_cons_self)) hes

/-- A source text gives the entries that `entries` finds in it. -/
theorem produces_ofSource (source : String) :
    (ofSource source).Produces (entries source.toList) (endOf source.toList) :=
  (views_ofSource source).produces (Stream.endsOnce_ofSource source)

theorem Produces.unique {es' : List (Except LexicalError Lexeme)} {last' : Lexeme}
    (h : s.Produces es last) (h' : s.Produces es' last') : es = es' ∧ last = last' := by
  induction h generalizing es' with
  | done h hl =>
    cases h' with
    | done h' => exact ⟨rfl, Except.ok.inj (h.symm.trans h')⟩
    | more h' hentry => exact absurd hl (hentry _ (h'.symm.trans h))
  | more h hentry _ ih =>
    cases h' with
    | done h' hl => exact absurd hl (hentry _ (h.symm.trans h'))
    | more h' _ hes' =>
      obtain ⟨rfl, rfl⟩ := ih hes'
      obtain rfl := h.symm.trans h'
      exact ⟨rfl, rfl⟩

end Lookahead

/-! ## Looking ahead -/

/-- A sequence of calls with its answers loses, repeats and reorders nothing of what `advance` alone
produces. -/
structure Faithful (items : List (Except LexicalError Lexeme)) (last : Lexeme)
    (trace : List (StreamCall × Except LexicalError Lexeme)) : Prop where
  /-- What is consumed is the lexemes in order, and then the end of input for ever. -/
  consumes : ∃ ends, delivered trace <+: lexemesOf items ++ List.replicate ends last
  /-- What is reported is the lexical errors in order, each one once. -/
  reports : reported trace <+: errorsOf items
  /-- A call returns the lexeme as far ahead as it looks, and no error before it is unreported. -/
  shows : ∀ earlier c l later, trace = earlier ++ (c, .ok l) :: later →
    Stream.Shows items last (reported earlier) ((delivered earlier).length + c.distance) l
  /-- What is shown ahead is consumed there. -/
  keeps : ∀ earlier n l later l', trace = earlier ++ (.peek n, .ok l) :: later →
    (delivered later)[n]? = some l' → l' = l

/-- For every source text and every sequence of calls, looking ahead any distance at any time
leaves what `advance` alone would deliver, and shows it. -/
theorem lookahead_faithful (source : String) (calls : List StreamCall) :
    ∃ items last, (Lookahead.ofSource source).Produces items last ∧
      Faithful items last (answers Lookahead.call (.ofSource source) calls) := by
  have hanswers :=
    (Lookahead.views_ofSource source).answers_eq (Stream.endsOnce_ofSource source) calls
  have htrace := Stream.answers_answered (.ofSource source) calls
  refine ⟨_, _, Lookahead.produces_ofSource source, ?_⟩
  rw [hanswers]
  refine ⟨⟨_, htrace.delivered_prefix⟩, htrace.reported_prefix, ?_, ?_⟩
  · intro earlier c l later heq
    rw [heq] at htrace
    exact htrace.shows
  · intro earlier n l later l' heq
    rw [heq] at htrace
    exact htrace.eq_of_peek

end MiniC
