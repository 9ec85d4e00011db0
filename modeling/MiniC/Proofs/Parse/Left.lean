import MiniC.Proofs.Lexeme.Delivered
import MiniC.Proofs.Parse.Gives

/-!
# What parsing leaves

A stream holds its readable lexemes and what stands behind them, the end of input or a lexical
error.  `s.leaving ts` is the stream with other readable lexemes, which is what a parser leaves of
`s` when it succeeds.
-/

namespace MiniC

namespace Stream

/-- The stream with other readable lexemes. -/
def leaving (s : Stream) (ts : List Lexeme) : Stream :=
  { s with entries := ts.map .ok ++ s.unreadable }

/-- Behind the readable lexemes stands the end of input or a lexical error. -/
theorem unreadable_cases (s : Stream) :
    (s.unreadable = [] ∧ s.stop = .ok s.last) ∨
      ∃ e more, s.unreadable = .error e :: more ∧ s.stop = .error e := by
  rcases entries_eq s.entries with h | ⟨e, more, h⟩
  · have hnil : s.unreadable = [] := by
      unfold unreadable readable
      rw [h, leadingLexemes_map]
      exact List.drop_of_length_le (Nat.le_of_eq (List.length_map _))
    refine .inl ⟨hnil, ?_⟩
    unfold stop
    rw [hnil]
  · have hcons : s.unreadable = .error e :: more := h
    refine .inr ⟨e, more, hcons, ?_⟩
    unfold stop
    rw [hcons]

theorem leadingLexemes_append {es : List (Except LexicalError Lexeme)} (ts : List Lexeme)
    (h : leadingLexemes es = []) : leadingLexemes (ts.map .ok ++ es) = ts := by
  induction ts with
  | nil => exact h
  | cons l ts ih => rw [List.map_cons, List.cons_append, leadingLexemes, ih]

theorem leadingLexemes_unreadable (s : Stream) : leadingLexemes s.unreadable = [] := by
  rcases s.unreadable_cases with ⟨h, -⟩ | ⟨e, more, h, -⟩ <;> rw [h] <;> rfl

variable (s : Stream) (ts us : List Lexeme)

@[simp] theorem readable_leaving : (s.leaving ts).readable = ts :=
  leadingLexemes_append ts s.leadingLexemes_unreadable

@[simp] theorem unreadable_leaving : (s.leaving ts).unreadable = s.unreadable := by
  have hreadable := s.readable_leaving ts
  unfold unreadable at hreadable ⊢
  rw [hreadable]
  exact List.drop_left' (List.length_map _)

@[simp] theorem stop_leaving : (s.leaving ts).stop = s.stop := by
  unfold stop
  rw [unreadable_leaving]
  rfl

@[simp] theorem leaving_leaving : (s.leaving ts).leaving us = s.leaving us := by
  change Stream.mk (us.map .ok ++ (s.leaving ts).unreadable) s.last = s.leaving us
  rw [unreadable_leaving]
  rfl

theorem entries_readable : s.readable.map .ok ++ s.unreadable = s.entries := by
  have happend : ∀ es : List (Except LexicalError Lexeme),
      (leadingLexemes es).map .ok ++ es.drop (leadingLexemes es).length = es := by
    intro es
    induction es with
    | nil => rfl
    | cons entry es ih =>
      cases entry with
      | error e => rfl
      | ok l => exact congrArg (.ok l :: ·) ih
  exact happend s.entries

@[simp] theorem leaving_readable : s.leaving s.readable = s := by
  unfold leaving
  rw [entries_readable]

theorem length_entries : s.entries.length = s.readable.length + s.unreadable.length := by
  rw [← entries_readable, List.length_append, List.length_map]

theorem length_entries_leaving :
    (s.leaving ts).entries.length = ts.length + s.unreadable.length := by
  unfold leaving
  rw [List.length_append, List.length_map]

/-- A parser that succeeds leaves some of the readable lexemes. -/
theorem parse_ok {α : Type} {s s' : Stream} {p : Parser α} {x : α} (h : s.parse p = (.ok x, s')) :
    ∃ rest, (p s.stop s.readable).Gives x rest ∧ s' = s.leaving rest := by
  unfold parse at h
  dsimp only at h
  cases hp : p s.stop s.readable with
  | error e rest =>
    rw [hp] at h
    cases h
  | ok y rest shorter =>
    rw [hp] at h
    obtain ⟨hy, rfl⟩ := Prod.mk.inj h
    exact ⟨rest, ⟨Except.ok.inj hy, rfl⟩, rfl⟩

end Stream

end MiniC
