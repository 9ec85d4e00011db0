import MiniC.Proofs.Lexeme.Calls
import MiniC.Proofs.Parse.Descent
import MiniC.Proofs.Parse.Left

/-!
# What a descent does

`m.Does s ts p` says that a descent on a stream with the readable lexemes `ts` does what a result
`p` of parsing `ts` says.  It goes through the combinators of `Parsed`, so a descent is followed
along the parser that it is compared with.
-/

namespace MiniC

open Parse

/-! ## Results -/

namespace Parsed

variable {α β γ : Type} {n : Nat}

/-- A result without the lexemes that an error leaves. -/
def result (p : Parsed n α) : Except SyntaxError (α × List Lexeme) :=
  match p with
  | .ok x rest _ => .ok (x, rest)
  | .error e _ => .error e

@[simp] theorem result_relax (p : Parsed n α) : p.relax.result = p.result := by
  cases p <;> rfl

theorem map_relax (p : Parsed n α) (f : α → β) : p.relax.map f = (p.map f).relax := by
  cases p <;> rfl

theorem map_followedBy (p : Parsed n α)
    (next : α → (rest : List Lexeme) → rest.length < n → Parsed (rest.length + 1) β) (f : β → γ) :
    (p.followedBy next).map f =
      p.followedBy fun x rest hs => (next x rest hs).map f := by
  cases p with
  | error e left => rfl
  | ok x rest shorter =>
    unfold Parsed.followedBy
    dsimp only
    cases next x rest shorter <;> rfl

theorem map_andThen (p : Parsed n α)
    (next : α → (rest : List Lexeme) → rest.length < n → Parsed rest.length β) (f : β → γ) :
    (p.andThen next).map f = p.andThen fun x rest hs => (next x rest hs).map f := by
  unfold andThen
  simp only [map_followedBy, map_relax]

theorem map_map (p : Parsed n α) (f : α → β) (g : β → γ) :
    (p.map f).map g = p.map fun x => g (f x) := by
  cases p <;> rfl

theorem map_refuse (stop : Stop) (expected : Expected) (f : α → β) :
    (refuse stop expected : Parsed n α).map f = refuse stop expected := by
  cases stop <;> rfl

theorem map_atEnd (stop : Stop) (p : Parsed n α) (f : α → β) :
    (atEnd stop p).map f = atEnd stop (p.map f) := by
  cases stop <;> rfl

/-- A loop that ends behind some items. -/
theorem map_append_leaving (xs : List α) (rest : List Lexeme) :
    (leaving [] rest).map (xs ++ ·) = leaving xs rest := by
  unfold leaving map
  dsimp only
  rw [List.append_nil]

/-- A loop that begins with nothing. -/
theorem map_nil_append (p : Parsed n (List α)) : p.map ([] ++ ·) = p := by
  cases p <;> rfl

/-- One more item behind the state of a loop. -/
theorem map_cons_map_append (p : Parsed n (List α)) (xs : List α) (x : α) :
    (p.map (x :: ·)).map (xs ++ ·) = p.map ((xs ++ [x]) ++ ·) := by
  cases p with
  | error e left => rfl
  | ok ys rest shorter =>
    have happend : xs ++ x :: ys = xs ++ [x] ++ ys := List.append_cons xs x ys
    simp only [map, happend]

end Parsed

namespace Descent

open Parsed

variable {α β γ δ : Type} {n : Nat} {s : Stream} {ts us : List Lexeme} {l : Lexeme}

/-- A descent ends, on a stream that holds `ts`.  Where it fails, `res` is the failure; else it
leaves an end of `ts`, and `R` tells what becomes of `res` then. -/
def Answers (m : Descent γ) (s : Stream) (ts : List Lexeme)
    (R : γ → List Lexeme → Except SyntaxError (α × List Lexeme) → Prop)
    (res : Except SyntaxError (α × List Lexeme)) : Prop :=
  (∃ e, m (s.leaving ts) = some (.error e) ∧ res = .error e) ∨
    ∃ x us, m (s.leaving ts) = some (.ok (x, s.leaving us)) ∧ us <:+ ts ∧ R x us res

/-- The value and what is left are the result. -/
def Returns (x : α) (us : List Lexeme) (res : Except SyntaxError (α × List Lexeme)) : Prop :=
  res = .ok (x, us)

/-- A descent does what a result of parsing `ts` says. -/
abbrev Does (m : Descent α) (s : Stream) (ts : List Lexeme) (p : Parsed n α) : Prop :=
  m.Answers s ts Returns p.result

variable {R : γ → List Lexeme → Except SyntaxError (α × List Lexeme) → Prop}
  {res : Except SyntaxError (α × List Lexeme)}

theorem answers_pure {x : γ} (h : R x ts res) : (pure x : Descent γ).Answers s ts R res :=
  .inr ⟨x, ts, rfl, List.suffix_refl ts, h⟩

theorem answers_fail {e : SyntaxError} (h : res = .error e) :
    (fail e : Descent γ).Answers s ts R res :=
  .inl ⟨e, rfl, h⟩

/-- What a descent does on its way to an end of `ts`. -/
theorem Answers.of_suffix {m m' : Descent γ} (h : m'.Answers s us R res) (hus : us <:+ ts)
    (hm : m (s.leaving ts) = m' (s.leaving us)) : m.Answers s ts R res := by
  rcases h with ⟨e, he, hres⟩ | ⟨x, left, hx, hleft, hR⟩
  · exact .inl ⟨e, hm.trans he, hres⟩
  · exact .inr ⟨x, left, hm.trans hx, hleft.trans hus, hR⟩

theorem Does.followedBy {m : Descent β} {k : β → Descent γ} {p : Parsed n β}
    {next : β → (rest : List Lexeme) → rest.length < n → Parsed (rest.length + 1) α}
    (h : m.Does s ts p)
    (hk : ∀ x rest hs, rest <:+ ts → (k x).Answers s rest R (next x rest hs).result) :
    (m >>= k).Answers s ts R (p.followedBy next).result := by
  rcases h with ⟨e, hm, hp⟩ | ⟨x, rest, hm, hrest, hp⟩
  · refine .inl ⟨e, bind_of_error hm, ?_⟩
    cases p <;> cases hp
    rfl
  · cases p with
    | error e left => cases hp
    | ok y left shorter =>
      cases hp
      have hnext : (Parsed.followedBy (.ok x rest shorter) next).result =
          (next x rest shorter).result := by
        unfold Parsed.followedBy
        dsimp only
        cases next x rest shorter <;> rfl
      rw [hnext]
      exact (hk x rest shorter hrest).of_suffix hrest (bind_of_ok hm)

theorem Does.relax {m : Descent α} {p : Parsed n α} (h : m.Does s ts p) : m.Does s ts p.relax := by
  unfold Does
  rwa [result_relax]

theorem Does.of_relax {m : Descent α} {p : Parsed n α} (h : m.Does s ts p.relax) :
    m.Does s ts p := by
  unfold Does at h
  rwa [result_relax] at h

theorem Does.andThen {m : Descent β} {k : β → Descent γ} {p : Parsed n β}
    {next : β → (rest : List Lexeme) → rest.length < n → Parsed rest.length α}
    (h : m.Does s ts p)
    (hk : ∀ x rest hs, rest <:+ ts → (k x).Answers s rest R (next x rest hs).result) :
    (m >>= k).Answers s ts R (p.andThen next).result := by
  refine h.followedBy fun x rest hs hrest => ?_
  rw [result_relax]
  exact hk x rest hs hrest

/-- After the last call of a parser. -/
theorem Does.last {m : Descent β} {k : β → Descent γ} {f : β → α} {p : Parsed n β}
    (h : m.Does s ts p) (hk : ∀ x rest, (k x).Answers s rest R (.ok (f x, rest))) :
    (m >>= k).Answers s ts R (p.map f).result := by
  rcases h with ⟨e, hm, hp⟩ | ⟨x, rest, hm, hrest, hp⟩
  · refine .inl ⟨e, bind_of_error hm, ?_⟩
    cases p <;> cases hp
    rfl
  · cases p with
    | error e left => cases hp
    | ok y left shorter =>
      cases hp
      exact (hk x rest).of_suffix hrest (bind_of_ok hm)

theorem Does.map {m : Descent β} {k : β → Descent α} {f : β → α} {p : Parsed n β}
    (h : m.Does s ts p) (hk : ∀ x, k x = pure (f x)) : (m >>= k).Does s ts (p.map f) := by
  refine h.last fun x rest => ?_
  rw [hk]
  exact answers_pure rfl

/-! ### Calls on the stream -/

theorem ofCall_of_ok {call : Stream → Except LexicalError Lexeme × Stream} {s' : Stream}
    (h : call s = (.ok l, s')) : ofCall call s = some (.ok (l, s')) := by
  unfold ofCall
  rw [h]

theorem ofCall_of_error {call : Stream → Except LexicalError Lexeme × Stream} {s' : Stream}
    {e : LexicalError} (h : call s = (.error e, s')) :
    ofCall call s = some (.error (.lexical e)) := by
  unfold ofCall
  rw [h]

/-- Looking ahead shows a readable lexeme. -/
theorem peek_ahead (before : List Lexeme) :
    peek before.length (s.leaving (before ++ l :: ts)) =
      some (.ok (l, s.leaving (before ++ l :: ts))) := by
  refine ofCall_of_ok ?_
  have hentries : s.leaving (before ++ l :: ts) =
      ⟨before.map .ok ++ .ok l :: (ts.map .ok ++ s.unreadable), s.last⟩ := by
    unfold Stream.leaving
    rw [List.map_append, List.map_cons, List.append_assoc, List.cons_append]
  rw [hentries]
  exact Stream.peek_ahead rfl

/-- What stands behind the readable lexemes: the end of input, which is not consumed, or a lexical
error. -/
def stopped (s : Stream) (ts : List Lexeme) : Except SyntaxError (Lexeme × Stream) :=
  match s.stop with
  | .ok last => .ok (last, s.leaving ts)
  | .error e => .error (.lexical e)

theorem stopped_ended (h : s.stop = .ok s.last) : stopped s ts = .ok (s.last, s.leaving ts) := by
  unfold stopped
  rw [h]

theorem stopped_error {e : LexicalError} (h : s.stop = .error e) :
    stopped s ts = .error (.lexical e) := by
  unfold stopped
  rw [h]

theorem peek_behind (h : ts.length ≤ n) : peek n (s.leaving ts) = some (stopped s ts) := by
  rcases s.unreadable_cases with ⟨hnone, hstop⟩ | ⟨e, more, hmore, hstop⟩
  · have hentries : s.leaving ts = ⟨ts.map .ok, s.last⟩ := by
      unfold Stream.leaving
      rw [hnone, List.append_nil]
    rw [stopped_ended hstop, hentries]
    exact ofCall_of_ok (Stream.peek_beyond h)
  · have hentries : s.leaving ts = ⟨ts.map .ok ++ .error e :: more, s.last⟩ := by
      unfold Stream.leaving
      rw [hmore]
    rw [stopped_error hstop, hentries]
    exact ofCall_of_error (Stream.peek_error h)

theorem advance_cons : advance (s.leaving (l :: ts)) = some (.ok (l, s.leaving ts)) := rfl

/-- At the end of input nothing is consumed. -/
theorem advance_nil : advance (s.leaving []) = some (stopped s []) := by
  rcases s.unreadable_cases with ⟨hnone, hstop⟩ | ⟨e, more, hmore, hstop⟩
  · have hentries : s.leaving [] = ⟨[], s.last⟩ := by
      unfold Stream.leaving
      rw [hnone]
      rfl
    rw [stopped_ended hstop, hentries]
    rfl
  · have hentries : s.leaving [] = ⟨.error e :: more, s.last⟩ := by
      unfold Stream.leaving
      rw [hmore]
      rfl
    rw [stopped_error hstop, hentries]
    rfl

variable {k : Lexeme → Descent γ} {expected : Expected}

theorem answers_peek_cons (h : (k l).Answers s (l :: ts) R res) :
    (peek 0 >>= k).Answers s (l :: ts) R res :=
  h.of_suffix (List.suffix_refl _) (bind_of_ok (peek_ahead []))

/-- At the end, looking and consuming both show the end of input or fail. -/
theorem answers_nil {m : Descent Lexeme} (hm : m (s.leaving []) = some (stopped s []))
    (herror : ∀ e, s.stop = .error e → res = .error (.lexical e))
    (hok : s.stop = .ok s.last → (k s.last).Answers s [] R res) :
    (m >>= k).Answers s [] R res := by
  rcases s.unreadable_cases with ⟨-, hstop⟩ | ⟨e, -, -, hstop⟩
  · rw [stopped_ended hstop] at hm
    exact (hok hstop).of_suffix (List.suffix_refl _) (bind_of_ok hm)
  · rw [stopped_error hstop] at hm
    exact .inl ⟨_, bind_of_error hm, herror e hstop⟩

theorem answers_peek_nil (herror : ∀ e, s.stop = .error e → res = .error (.lexical e))
    (hok : s.stop = .ok s.last → (k s.last).Answers s [] R res) :
    (peek 0 >>= k).Answers s [] R res :=
  answers_nil (peek_behind (Nat.le_refl 0)) herror hok

/-- Looking behind the current lexeme. -/
theorem answers_peek_one
    (herror : ∀ e, currentKind s.stop ts = .error e → res = .error (.lexical e))
    (hok : ∀ next : Lexeme, currentKind s.stop ts = .ok next.kind →
      (k next).Answers s (l :: ts) R res) :
    (peek 1 >>= k).Answers s (l :: ts) R res := by
  cases ts with
  | cons next ts =>
    exact (hok next rfl).of_suffix (List.suffix_refl _) (bind_of_ok (peek_ahead [l]))
  | nil =>
    have hpeek := @peek_behind 1 s [l] (Nat.le_refl 1)
    rcases s.unreadable_cases with ⟨-, hstop⟩ | ⟨e, -, -, hstop⟩
    · rw [stopped_ended hstop] at hpeek
      refine (hok s.last ?_).of_suffix (List.suffix_refl _) (bind_of_ok hpeek)
      rw [hstop]
      rfl
    · rw [stopped_error hstop] at hpeek
      refine .inl ⟨_, bind_of_error hpeek, herror e ?_⟩
      rw [hstop]
      rfl

theorem answers_kindBehindBrackets {k : TokenKind → Descent γ}
    (herror : ∀ e, currentKind s.stop (afterBrackets 0 (ts.drop 2)) = .error e →
      res = .error (.lexical e))
    (hok : ∀ next, currentKind s.stop (afterBrackets 0 (ts.drop 2)) = .ok next →
      (k next).Answers s ts R res) :
    (kindBehindBrackets >>= k).Answers s ts R res := by
  cases hnext : currentKind s.stop (afterBrackets 0 (ts.drop 2)) with
  | error e =>
    have hlook : kindBehindBrackets (s.leaving ts) = some (.error (.lexical e)) := by
      unfold kindBehindBrackets
      rw [Stream.stop_leaving, Stream.readable_leaving, hnext]
    exact .inl ⟨_, bind_of_error hlook, herror e hnext⟩
  | ok next =>
    have hlook : kindBehindBrackets (s.leaving ts) = some (.ok (next, s.leaving ts)) := by
      unfold kindBehindBrackets
      rw [Stream.stop_leaving, Stream.readable_leaving, hnext]
    exact (hok next hnext).of_suffix (List.suffix_refl ts) (bind_of_ok hlook)

theorem answers_advance (h : (k l).Answers s ts R res) :
    (advance >>= k).Answers s (l :: ts) R res :=
  h.of_suffix (List.suffix_cons l ts) (bind_of_ok advance_cons)

/-- Failing at the current lexeme. -/
theorem answers_unexpected (h : res = .error (.unexpected l expected)) :
    (unexpected expected : Descent γ).Answers s (l :: ts) R res :=
  answers_advance (answers_fail h)

theorem result_refuse {e : LexicalError} (h : s.stop = .error e) :
    (refuse s.stop expected : Parsed n α).result = .error (.lexical e) := by
  rw [h]
  rfl

theorem result_refuse_ended (h : s.stop = .ok s.last) :
    (refuse s.stop expected : Parsed n α).result = .error (.unexpected s.last expected) := by
  rw [h]
  rfl

/-- Failing where nothing is readable. -/
theorem answers_refuse :
    (unexpected expected : Descent γ).Answers s [] R (refuse s.stop expected : Parsed n α).result :=
  answers_nil advance_nil (fun _ => result_refuse) fun hstop =>
    answers_fail (result_refuse_ended hstop)

/-! ### Lexemes that are accepted -/

variable {accept : Lexeme → Option α}

theorem does_expect_nil (h : accept s.last = none) :
    (expect accept expected).Does s [] (refuse s.stop expected : Parsed n α) := by
  refine answers_nil advance_nil (fun _ => result_refuse) fun hstop => ?_
  rw [h]
  exact answers_fail (result_refuse_ended hstop)

theorem does_expect_some {x : α} (h : accept l = some x) :
    (expect accept expected).Does s (l :: ts) (leaving x ts) := by
  refine answers_advance ?_
  rw [h]
  exact answers_pure rfl

theorem does_expect_none (h : accept l = none) :
    (expect accept expected).Does s (l :: ts)
      (.error (.unexpected l expected) ts : Parsed n α) := by
  refine answers_advance ?_
  rw [h]
  exact answers_fail rfl

/-! ### One lexeme, or none -/

variable {c : TokenKind}

theorem does_advance : advance.Does s (l :: ts) (leaving l ts) :=
  .inr ⟨l, ts, advance_cons, List.suffix_cons l ts, rfl⟩

/-- Consuming a lexeme that is known to be of a category. -/
theorem does_advance_eat (hl : l.kind = c) :
    advance.Does s (l :: ts) (Parse.eat s.stop c (l :: ts)) := by
  unfold Parse.eat
  dsimp only
  rw [if_pos hl]
  exact does_advance

theorem does_eat (hlast : s.last.kind = .endOfInput) (hc : c ≠ .endOfInput) (ts : List Lexeme) :
    (eat c).Does s ts (Parse.eat s.stop c ts) := by
  unfold eat
  cases ts with
  | nil =>
    refine answers_peek_nil (fun _ => result_refuse) fun hstop => ?_
    rw [hlast, if_neg hc.symm]
    exact answers_refuse
  | cons l ts =>
    refine answers_peek_cons ?_
    unfold Parse.eat
    dsimp only
    by_cases hl : l.kind = c
    · rw [if_pos hl, if_pos hl]
      exact does_advance
    · rw [if_neg hl, if_neg hl]
      exact answers_unexpected rfl

theorem result_atEnd {e : LexicalError} {p : Parsed n α} (h : s.stop = .error e) :
    (atEnd s.stop p).result = .error (.lexical e) := by
  rw [h]
  rfl

theorem result_atEnd_ended {p : Parsed n α} (h : s.stop = .ok s.last) :
    (atEnd s.stop p).result = p.result := by
  rw [h]
  rfl

theorem does_optionalAfter (hlast : s.last.kind = .endOfInput) (hc : c ≠ .endOfInput)
    {m : Descent α} {following : (rest : List Lexeme) → Parsed rest.length α}
    (h : ∀ rest, rest <:+ ts → m.Does s rest (following rest)) :
    (optionalAfter c m).Does s ts (Parse.optionalAfter s.stop c ts following) := by
  unfold optionalAfter
  cases ts with
  | nil =>
    refine answers_peek_nil (fun _ => result_atEnd) fun hstop => ?_
    rw [hlast, if_neg hc.symm]
    exact answers_pure (result_atEnd_ended hstop)
  | cons l ts =>
    refine answers_peek_cons ?_
    unfold Parse.optionalAfter
    dsimp only
    by_cases hl : l.kind = c
    · rw [if_pos hl, if_pos hl, result_relax, result_relax]
      refine answers_advance ?_
      exact (h ts (List.suffix_cons l ts)).map fun _ => rfl
    · rw [if_neg hl, if_neg hl]
      exact answers_pure rfl

end Descent

/-- What stands in front of a closing symbol, if anything does, through that symbol. -/
def Parse.through (stop : Stop) (closing : Symbol) (ts : List Lexeme) (p : Parsed ts.length α) :
    Parsed ts.length (Option α) :=
  ifNext stop (.symbol closing) ts
    (fun rest _ => .leaving none rest)
    (fun _ => p.andThen fun x rest _ =>
      (eat stop (.symbol closing) rest).map fun _ => some x)

theorem Parse.result_map_through (stop : Stop) (closing : Symbol) (ts : List Lexeme)
    (p : Parsed ts.length α) (f : Option α → β) :
    ((through stop closing ts p).map f).result =
      (ifNext stop (.symbol closing) ts (fun rest _ => .leaving (f none) rest) fun _ =>
        p.andThen fun x rest _ =>
          (eat stop (.symbol closing) rest).map fun _ => f (some x)).result := by
  have hmore : (p.andThen fun x rest _ =>
      (eat stop (.symbol closing) rest).map fun _ => some x).map f =
      p.andThen fun x rest _ => (eat stop (.symbol closing) rest).map fun _ => f (some x) := by
    rw [Parsed.map_andThen]
    congr 1
    funext x rest _
    cases eat stop (.symbol closing) rest <;> rfl
  unfold through
  cases ts with
  | nil =>
    cases stop with
    | error e => rfl
    | ok last => exact congrArg Parsed.result hmore
  | cons l ts =>
    unfold ifNext
    dsimp only
    by_cases hl : l.kind = .symbol closing
    · rw [if_pos hl, if_pos hl]
      rfl
    · rw [if_neg hl, if_neg hl, hmore]

theorem Descent.does_optionalThrough {s : Stream} {ts : List Lexeme} {closing : Symbol}
    {close : Descent Lexeme} {m : Descent α} {p : Parsed ts.length α}
    (hlast : s.last.kind = .endOfInput)
    (hclose : ∀ us, us <:+ ts → close.Does s us (Parse.eat s.stop (.symbol closing) us))
    (h : m.Does s ts p) :
    (optionalThrough closing close m).Does s ts (through s.stop closing ts p) := by
  have hinner : (some <$> m >>= fun x => close >>= fun _ => pure x).Does s ts
      (p.andThen fun x rest _ =>
        (Parse.eat s.stop (.symbol closing) rest).map fun _ => some x) := by
    rw [map_bind]
    exact h.andThen fun x rest _ hrest => (hclose rest hrest).map fun _ => rfl
  unfold optionalThrough through
  cases ts with
  | nil =>
    refine answers_peek_nil (fun e hstop => ?_) fun hstop => ?_
    · rw [hstop]
      rfl
    · rw [hlast, if_neg (by rintro ⟨⟩), hstop]
      rw [hstop] at hinner
      exact hinner
  | cons l ts =>
    refine answers_peek_cons ?_
    unfold ifNext
    dsimp only
    by_cases hl : l.kind = .symbol closing
    · rw [if_pos hl, if_pos hl]
      have heat := hclose (l :: ts) (List.suffix_refl _)
      unfold Parse.eat at heat
      dsimp only at heat
      rw [if_pos hl] at heat
      exact heat.map (f := fun _ => none) fun _ => rfl
    · rw [if_neg hl, if_neg hl]
      exact hinner

end MiniC
