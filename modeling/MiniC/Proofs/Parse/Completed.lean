import MiniC.Proofs.Lexeme.Spelled
import MiniC.Proofs.Parse.Gives

/-!
# Parsers that fail behind a prefix

`Completes Is ls` says that some spelled lexemes can be written behind `ls` so that the whole is
what `Is` says.  `p.FailsAfter stop ts Ok` says of a result of parsing `ts`: an unexpected lexeme
stands behind a prefix of `ts` that is `Ok`, in front of what is left, or it is the end of input.
The combinators keep it: a parser that goes on after a success fails behind what was read before.
-/

namespace MiniC

/-- Something can be written behind some lexemes. -/
def Completes {α : Type} (Is : List Lexeme → α → Prop) (ls : List Lexeme) : Prop :=
  ∃ more x, AllSpelled more ∧ Is (ls ++ more) x

/-- What is completed is completed in front of and behind other lexemes. -/
theorem Completes.within {α β : Type} {Is : List Lexeme → α → Prop}
    {Is' : List Lexeme → β → Prop} {ls front back : List Lexeme} (h : Completes Is ls)
    (hback : AllSpelled back) (hIs : ∀ ls x, Is ls x → ∃ y, Is' (front ++ (ls ++ back)) y) :
    Completes Is' (front ++ ls) := by
  obtain ⟨more, x, hmore, hx⟩ := h
  obtain ⟨y, hy⟩ := hIs _ x hx
  refine ⟨more ++ back, y, allSpelled_append.2 ⟨hmore, hback⟩, ?_⟩
  rwa [List.append_assoc, ← List.append_assoc ls]

namespace Parsed

variable {α β γ : Type} {n : Nat} {stop : Stop} {ts : List Lexeme} {Ok Ok' : List Lexeme → Prop}
  {p : Parsed n α}

/-- An unexpected lexeme stands behind a prefix, in front of what is left, or is the end of
input. -/
def FailsAfter (stop : Stop) (ts : List Lexeme) (Ok : List Lexeme → Prop) (p : Parsed n α) : Prop :=
  ∀ ⦃l expected rest⦄, p = .error (.unexpected l expected) rest →
    ∃ before, Ok before ∧ (ts = before ++ l :: rest ∨ ts = before ∧ stop = .ok l ∧ rest = [])

/-- A failure at the first lexeme. -/
abbrev FailsAtOnce (stop : Stop) (ts : List Lexeme) (p : Parsed n α) : Prop :=
  p.FailsAfter stop ts (· = [])

theorem failsAfter_leaving {x : α} {rest : List Lexeme} :
    (leaving x rest).FailsAfter stop ts Ok :=
  fun _ _ _ h => by cases h

theorem failsAfter_lexical {e : LexicalError} {rest : List Lexeme} :
    (error (.lexical e) rest : Parsed n α).FailsAfter stop ts Ok :=
  fun _ _ _ h => by cases h

theorem failsAtOnce_unexpected {l : Lexeme} {expected : Expected} {rest : List Lexeme} :
    (error (.unexpected l expected) rest : Parsed n α).FailsAtOnce stop (l :: rest) := by
  rintro l' expected' rest' ⟨⟩
  exact ⟨[], rfl, .inl rfl⟩

theorem FailsAfter.relax (h : p.FailsAfter stop ts Ok) : p.relax.FailsAfter stop ts Ok := by
  cases p with
  | ok value rest shorter => exact fun _ _ _ heq => by cases heq
  | error e rest =>
    intro l expected rest' heq
    cases heq
    exact h rfl

theorem FailsAfter.map {f : α → β} (h : p.FailsAfter stop ts Ok) :
    (p.map f).FailsAfter stop ts Ok := by
  cases p with
  | ok value rest shorter => exact fun _ _ _ heq => by cases heq
  | error e rest =>
    intro l expected rest' heq
    cases heq
    exact h rfl

theorem FailsAfter.mono (h : p.FailsAfter stop ts Ok)
    (hOk : ∀ before, before <+: ts → Ok before → Ok' before) : p.FailsAfter stop ts Ok' := by
  intro l expected rest heq
  obtain ⟨before, hbefore, hts⟩ := h heq
  refine ⟨before, hOk before ?_ hbefore, hts⟩
  rcases hts with rfl | ⟨rfl, -⟩
  · exact List.prefix_append _ _
  · exact List.prefix_refl _

theorem FailsAfter.and {P : Prop} (hP : P) (h : p.FailsAfter stop ts Ok) :
    p.FailsAfter stop ts fun before => P ∧ Ok before :=
  h.mono fun _ _ hbefore => ⟨hP, hbefore⟩

/-- A failure behind some lexemes that were read. -/
theorem FailsAfter.behind {front us : List Lexeme} (hts : ts = front ++ us)
    (h : p.FailsAfter stop us fun before => Ok (front ++ before)) : p.FailsAfter stop ts Ok := by
  intro l expected rest heq
  obtain ⟨before, hbefore, hus⟩ := h heq
  refine ⟨front ++ before, hbefore, ?_⟩
  rcases hus with rfl | ⟨rfl, hstop⟩
  · exact .inl (hts.trans (List.append_assoc _ _ _).symm)
  · exact .inr ⟨hts, hstop⟩

/-- What is completed behind some lexemes is completed with them, and with what has to follow. -/
theorem FailsAfter.completing {Is : List Lexeme → β → Prop} {Is' : List Lexeme → γ → Prop}
    {us back : List Lexeme} (h : p.FailsAfter stop us (Completes Is)) (front : List Lexeme)
    (hts : ts = front ++ us) (hback : AllSpelled back)
    (hIs : ∀ ls x, Is ls x → ∃ y, Is' (front ++ (ls ++ back)) y) :
    p.FailsAfter stop ts (Completes Is') :=
  (h.mono fun _ _ hbefore => hbefore.within hback hIs).behind hts

/-- Nothing has to follow. -/
theorem FailsAfter.joined {Is : List Lexeme → β → Prop} {Is' : List Lexeme → γ → Prop}
    {us : List Lexeme} (h : p.FailsAfter stop us (Completes Is)) (front : List Lexeme)
    (hts : ts = front ++ us) (hIs : ∀ ls x, Is ls x → ∃ y, Is' (front ++ ls) y) :
    p.FailsAfter stop ts (Completes Is') := by
  refine h.completing front hts allSpelled_nil fun ls x hx => ?_
  rw [List.append_nil]
  exact hIs ls x hx

/-- Nothing was read before. -/
theorem FailsAfter.imp {Is : List Lexeme → β → Prop} {Is' : List Lexeme → γ → Prop}
    (h : p.FailsAfter stop ts (Completes Is)) (hIs : ∀ ls x, Is ls x → ∃ y, Is' ls y) :
    p.FailsAfter stop ts (Completes Is') :=
  h.joined [] rfl hIs

theorem FailsAtOnce.first (h : p.FailsAtOnce stop ts) (hOk : Ok []) : p.FailsAfter stop ts Ok :=
  h.mono fun before _ hbefore => by rwa [hbefore]

theorem FailsAtOnce.after {Is : List Lexeme → β → Prop} {us : List Lexeme}
    (h : p.FailsAtOnce stop us) (front : List Lexeme) (hts : ts = front ++ us)
    (hfront : Completes Is front) :
    p.FailsAfter stop ts (Completes Is) :=
  FailsAfter.behind hts (h.first (by rwa [List.append_nil]))

theorem FailsAfter.followedBy
    {next : α → (rest : List Lexeme) → rest.length < n → Parsed (rest.length + 1) β}
    (h : p.FailsAfter stop ts Ok)
    (hnext : ∀ x rest shorter, p.Gives x rest → (next x rest shorter).FailsAfter stop ts Ok) :
    (p.followedBy next).FailsAfter stop ts Ok := by
  cases p with
  | error e rest =>
    intro l expected rest' heq
    cases heq
    exact h rfl
  | ok value rest shorter =>
    have hvalue := hnext value rest shorter ⟨rfl, rfl⟩
    unfold Parsed.followedBy
    dsimp only
    generalize next value rest shorter = q at hvalue
    cases q with
    | ok value' left noLonger => exact fun _ _ _ heq => by cases heq
    | error e left =>
      intro l expected rest' heq
      cases heq
      exact hvalue rfl

theorem FailsAfter.andThen
    {next : α → (rest : List Lexeme) → rest.length < n → Parsed rest.length β}
    (h : p.FailsAfter stop ts Ok)
    (hnext : ∀ x rest shorter, p.Gives x rest → (next x rest shorter).FailsAfter stop ts Ok) :
    (p.andThen next).FailsAfter stop ts Ok :=
  h.followedBy fun x rest shorter hx => (hnext x rest shorter hx).relax

end Parsed

namespace Parse

open Parsed

variable {α : Type} {stop : Stop} {Ok : List Lexeme → Prop} {ts : List Lexeme}

/-! ## Small parsers

They fail at their first lexeme. -/

theorem fails_refuse {n : Nat} (expected : Expected) :
    (refuse stop expected : Parsed n α).FailsAtOnce stop [] := by
  cases stop with
  | error e => exact failsAfter_lexical
  | ok last =>
    rintro l expected' rest ⟨⟩
    exact ⟨[], rfl, .inr ⟨rfl, rfl, rfl⟩⟩

theorem fails_atEnd {n : Nat} {next : Parsed n α} (h : next.FailsAfter stop ts Ok) :
    (atEnd stop next).FailsAfter stop ts Ok := by
  cases stop with
  | error e => exact failsAfter_lexical
  | ok last => exact h

theorem fails_ifNext (k : TokenKind) {us : List Lexeme}
    {yes : (rest : List Lexeme) → rest.length < us.length → Parsed (rest.length + 1) α}
    {no : Unit → Parsed us.length α}
    (hyes : ∀ l rest shorter, us = l :: rest → l.kind = k →
      (yes rest shorter).FailsAfter stop ts Ok)
    (hno : (∀ l rest, us = l :: rest → l.kind ≠ k) → (no ()).FailsAfter stop ts Ok) :
    (ifNext stop k us yes no).FailsAfter stop ts Ok := by
  cases us with
  | nil =>
    cases stop with
    | error e => exact failsAfter_lexical
    | ok last => exact hno fun _ _ h => by cases h
  | cons l rest =>
    unfold ifNext
    dsimp only
    split
    · next hk => exact hyes l rest _ rfl hk
    · next hk =>
      refine hno ?_
      rintro l' rest' ⟨⟩
      exact hk

theorem fails_optionalAfter (k : TokenKind) {us : List Lexeme}
    {following : (rest : List Lexeme) → Parsed rest.length α}
    (h : ∀ l rest, us = l :: rest → l.kind = k → (following rest).FailsAfter stop ts Ok) :
    (optionalAfter stop k us following).FailsAfter stop ts Ok := by
  cases us with
  | nil => exact fails_atEnd failsAfter_leaving
  | cons l rest =>
    unfold optionalAfter
    dsimp only
    split
    · next hk => exact FailsAfter.relax (FailsAfter.relax (FailsAfter.map (h l rest rfl hk)))
    · exact failsAfter_leaving

theorem fails_eat (k : TokenKind) (ts : List Lexeme) : (eat stop k ts).FailsAtOnce stop ts := by
  cases ts with
  | nil => exact fails_refuse _
  | cons l rest =>
    unfold eat
    dsimp only
    split
    · exact failsAfter_leaving
    · exact failsAtOnce_unexpected

theorem fails_identifier (ts : List Lexeme) : (identifier stop ts).FailsAtOnce stop ts := by
  cases ts with
  | nil => exact fails_refuse _
  | cons l rest =>
    unfold identifier
    dsimp only
    split
    · exact failsAfter_leaving
    · exact failsAtOnce_unexpected

theorem fails_valueType (ts : List Lexeme) : (valueType stop ts).FailsAtOnce stop ts := by
  cases ts with
  | nil => exact fails_refuse _
  | cons l rest =>
    unfold valueType
    dsimp only
    split
    · split
      · exact failsAtOnce_unexpected
      · exact failsAfter_leaving
    · exact failsAtOnce_unexpected

theorem fails_returnType (ts : List Lexeme) : (returnType stop ts).FailsAtOnce stop ts := by
  cases ts with
  | nil => exact fails_refuse _
  | cons l rest =>
    unfold returnType
    dsimp only
    split
    · exact failsAfter_leaving
    · exact failsAtOnce_unexpected

theorem fails_assignOp (ts : List Lexeme) : (assignOp stop ts).FailsAtOnce stop ts := by
  cases ts with
  | nil => exact fails_refuse _
  | cons l rest =>
    unfold assignOp
    dsimp only
    split
    · exact failsAfter_leaving
    · exact failsAtOnce_unexpected

end Parse

end MiniC
