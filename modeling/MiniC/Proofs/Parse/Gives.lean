import MiniC.Parse.Program

/-!
# What parsers give

`p.Gives x rest` says that a parser succeeds with a value and leaves a rest.  Each combinator and
each small parser is described once by what it gives; the parsers of the grammar are followed
through these descriptions alone, in both directions.
-/

namespace MiniC

namespace Parsed

variable {α β : Type} {n : Nat}

/-- Success with a value and a rest. -/
def Gives (p : Parsed n α) (x : α) (rest : List Lexeme) : Prop :=
  match p with
  | .ok value left _ => value = x ∧ left = rest
  | .error _ _ => False

theorem Gives.shorter {p : Parsed n α} {x : α} {rest : List Lexeme} (h : p.Gives x rest) :
    rest.length < n := by
  cases p with
  | ok value left shorter =>
    obtain ⟨-, rfl⟩ := h
    exact shorter
  | error e left => exact h.elim

theorem not_gives_error {e : SyntaxError} {left rest : List Lexeme} {x : α} :
    ¬ (error e left : Parsed n α).Gives x rest := id

theorem gives_leaving {x y : α} {rest rest' : List Lexeme} :
    (leaving x rest).Gives y rest' ↔ x = y ∧ rest = rest' := Iff.rfl

theorem gives_relax {p : Parsed n α} {x : α} {rest : List Lexeme} :
    p.relax.Gives x rest ↔ p.Gives x rest := by
  cases p with
  | ok value left shorter => exact Iff.rfl
  | error e left => exact Iff.rfl

theorem gives_map {p : Parsed n α} {f : α → β} {y : β} {rest : List Lexeme} :
    (p.map f).Gives y rest ↔ ∃ x, p.Gives x rest ∧ f x = y := by
  cases p with
  | ok value left shorter =>
    constructor
    · rintro ⟨rfl, rfl⟩
      exact ⟨value, ⟨rfl, rfl⟩, rfl⟩
    · rintro ⟨x, ⟨rfl, rfl⟩, rfl⟩
      exact ⟨rfl, rfl⟩
  | error e left =>
    constructor
    · exact False.elim
    · rintro ⟨x, hx, -⟩
      exact hx

theorem gives_followedBy {p : Parsed n α}
    {next : α → (rest : List Lexeme) → rest.length < n → Parsed (rest.length + 1) β} {y : β}
    {rest' : List Lexeme} :
    (p.followedBy next).Gives y rest' ↔
      ∃ x rest, ∃ h : rest.length < n, p.Gives x rest ∧ (next x rest h).Gives y rest' := by
  cases p with
  | error e left =>
    constructor
    · exact False.elim
    · rintro ⟨x, rest, h, hx, -⟩
      exact hx
  | ok value left shorter =>
    have hnext : (Parsed.followedBy (.ok value left shorter) next).Gives y rest' ↔
        (next value left shorter).Gives y rest' := by
      unfold Parsed.followedBy
      dsimp only
      generalize next value left shorter = q
      cases q with
      | ok value' left' noLonger => exact Iff.rfl
      | error e left' => exact Iff.rfl
    rw [hnext]
    constructor
    · intro h
      exact ⟨value, left, shorter, ⟨rfl, rfl⟩, h⟩
    · rintro ⟨x, rest, h, ⟨rfl, rfl⟩, hy⟩
      exact hy

theorem gives_andThen {p : Parsed n α}
    {next : α → (rest : List Lexeme) → rest.length < n → Parsed rest.length β} {y : β}
    {rest' : List Lexeme} :
    (p.andThen next).Gives y rest' ↔
      ∃ x rest, ∃ h : rest.length < n, p.Gives x rest ∧ (next x rest h).Gives y rest' := by
  unfold andThen
  simp only [gives_followedBy, gives_relax]

theorem Gives.followedBy {p : Parsed n α}
    {next : α → (rest : List Lexeme) → rest.length < n → Parsed (rest.length + 1) β} {x : α}
    {y : β} {rest rest' : List Lexeme} (h : p.Gives x rest)
    (hnext : (next x rest h.shorter).Gives y rest') : (p.followedBy next).Gives y rest' :=
  gives_followedBy.2 ⟨x, rest, h.shorter, h, hnext⟩

theorem Gives.andThen {p : Parsed n α}
    {next : α → (rest : List Lexeme) → rest.length < n → Parsed rest.length β} {x : α}
    {y : β} {rest rest' : List Lexeme} (h : p.Gives x rest)
    (hnext : (next x rest h.shorter).Gives y rest') : (p.andThen next).Gives y rest' :=
  gives_andThen.2 ⟨x, rest, h.shorter, h, hnext⟩

theorem Gives.map {p : Parsed n α} {f : α → β} {x : α} {rest : List Lexeme}
    (h : p.Gives x rest) : (p.map f).Gives (f x) rest :=
  gives_map.2 ⟨x, h, rfl⟩

theorem Gives.relax {p : Parsed n α} {x : α} {rest : List Lexeme} (h : p.Gives x rest) :
    p.relax.Gives x rest :=
  gives_relax.2 h

end Parsed

namespace Parse

open Parsed

variable {α : Type} {stop : Stop} {ts rest : List Lexeme} {x : α}

theorem not_gives_refuse {n : Nat} {expected : Expected} :
    ¬ (refuse stop expected : Parsed n α).Gives x rest := by
  cases stop with
  | error e => exact id
  | ok last => exact id

theorem gives_atEnd {n : Nat} {next : Parsed n α} :
    (atEnd stop next).Gives x rest ↔ (∃ last, stop = .ok last) ∧ next.Gives x rest := by
  cases stop with
  | error e => simp [atEnd, not_gives_error]
  | ok last => simp [atEnd]

/-- The category of what stands at the front of some lexemes before the end of input. -/
def headKind (last : Lexeme) : List Lexeme → TokenKind
  | [] => last.kind
  | l :: _ => l.kind

@[simp] theorem headKind_cons (last l : Lexeme) (ts : List Lexeme) :
    headKind last (l :: ts) = l.kind := rfl

theorem currentKind_ok (last : Lexeme) (ts : List Lexeme) :
    currentKind (.ok last) ts = .ok (headKind last ts) := by
  cases ts with
  | nil => rfl
  | cons l rest => rfl

theorem gives_ifNext {k : TokenKind}
    {yes : (rest : List Lexeme) → rest.length < ts.length → Parsed (rest.length + 1) α}
    {no : Unit → Parsed ts.length α} (h : (ifNext stop k ts yes no).Gives x rest) :
    (∃ l left, ∃ hs : left.length < ts.length, ts = l :: left ∧ l.kind = k ∧
      (yes left hs).Gives x rest) ∨
      (∀ l left, ts = l :: left → l.kind ≠ k) ∧ (no ()).Gives x rest := by
  cases ts with
  | nil =>
    cases stop with
    | error e => exact h.elim
    | ok last => exact Or.inr ⟨fun _ _ hts => absurd hts (List.cons_ne_nil _ _).symm, h⟩
  | cons l left =>
    unfold ifNext at h
    dsimp only at h
    split at h
    · next hk => exact Or.inl ⟨l, left, Nat.lt_succ_self _, rfl, hk, h⟩
    · next hk =>
      refine Or.inr ⟨?_, h⟩
      rintro l' left' ⟨⟩
      exact hk

theorem ifNext_yes {k : TokenKind} {l : Lexeme}
    {yes : (rest : List Lexeme) → rest.length < (l :: ts).length → Parsed (rest.length + 1) α}
    {no : Unit → Parsed (l :: ts).length α} (hk : l.kind = k)
    (h : (yes ts (Nat.lt_succ_self _)).Gives x rest) :
    (ifNext stop k (l :: ts) yes no).Gives x rest := by
  unfold ifNext
  dsimp only
  rwa [if_pos hk]

theorem ifNext_no {last : Lexeme} {k : TokenKind}
    {yes : (rest : List Lexeme) → rest.length < ts.length → Parsed (rest.length + 1) α}
    {no : Unit → Parsed ts.length α} (hk : headKind last ts ≠ k) (h : (no ()).Gives x rest) :
    (ifNext (.ok last) k ts yes no).Gives x rest := by
  cases ts with
  | nil => exact h
  | cons l left =>
    have hk : l.kind ≠ k := hk
    unfold ifNext
    dsimp only
    rwa [if_neg hk]

theorem gives_optionalAfter {k : TokenKind}
    {following : (rest : List Lexeme) → Parsed rest.length α} {o : Option α}
    (h : (optionalAfter stop k ts following).Gives o rest) :
    (∃ l left x, ts = l :: left ∧ l.kind = k ∧ (following left).Gives x rest ∧ o = some x) ∨
      o = none ∧ rest = ts := by
  cases ts with
  | nil =>
    obtain ⟨-, rfl, rfl⟩ := gives_atEnd.1 h
    exact Or.inr ⟨rfl, rfl⟩
  | cons l left =>
    unfold optionalAfter at h
    dsimp only at h
    split at h
    · next hk =>
      obtain ⟨x, hx, rfl⟩ := gives_map.1 (gives_relax.1 (gives_relax.1 h))
      exact Or.inl ⟨l, left, x, rfl, hk, hx, rfl⟩
    · obtain ⟨rfl, rfl⟩ := h
      exact Or.inr ⟨rfl, rfl⟩

theorem optionalAfter_some {k : TokenKind} {l : Lexeme}
    {following : (rest : List Lexeme) → Parsed rest.length α} (hk : l.kind = k)
    (h : (following ts).Gives x rest) :
    (optionalAfter stop k (l :: ts) following).Gives (some x) rest := by
  unfold optionalAfter
  dsimp only
  rw [if_pos hk]
  exact h.map.relax.relax

theorem optionalAfter_none {last : Lexeme} {k : TokenKind}
    {following : (rest : List Lexeme) → Parsed rest.length α} (hk : headKind last ts ≠ k) :
    (optionalAfter (.ok last) k ts following).Gives none ts := by
  cases ts with
  | nil => exact ⟨rfl, rfl⟩
  | cons l left =>
    have hk : l.kind ≠ k := hk
    unfold optionalAfter
    dsimp only
    rw [if_neg hk]
    exact ⟨rfl, rfl⟩

theorem gives_eat {k : TokenKind} {l : Lexeme} :
    (eat stop k ts).Gives l rest ↔ ts = l :: rest ∧ l.kind = k := by
  cases ts with
  | nil => simp [eat, not_gives_refuse]
  | cons l' left =>
    unfold eat
    dsimp only
    split <;> grind [gives_leaving, not_gives_error]

theorem gives_identifier {name : String} {l : Lexeme} :
    (identifier stop ts).Gives (name, l) rest ↔ ts = l :: rest ∧ l.token = .identifier name := by
  cases ts with
  | nil => simp [identifier, not_gives_refuse]
  | cons l' left =>
    unfold identifier
    dsimp only
    split <;> grind [gives_leaving, not_gives_error]

theorem gives_valueType {type : TypeName} :
    (valueType stop ts).Gives type rest ↔
      ∃ l, ts = l :: rest ∧ TypeName.ofKind? l.kind = some type ∧ type ≠ .void := by
  cases ts with
  | nil => simp [valueType, not_gives_refuse]
  | cons l left =>
    unfold valueType
    dsimp only
    split
    · split <;> grind [gives_leaving, not_gives_error]
    · grind [not_gives_error]

theorem gives_returnType {type : TypeName} :
    (returnType stop ts).Gives type rest ↔
      ∃ l, ts = l :: rest ∧ TypeName.ofKind? l.kind = some type := by
  cases ts with
  | nil => simp [returnType, not_gives_refuse]
  | cons l left =>
    unfold returnType
    dsimp only
    split <;> grind [gives_leaving, not_gives_error]

theorem gives_assignOp {op : AssignOp} {l : Lexeme} :
    (assignOp stop ts).Gives (op, l) rest ↔ ts = l :: rest ∧ AssignOp.ofKind? l.kind = some op := by
  cases ts with
  | nil => simp [assignOp, not_gives_refuse]
  | cons l' left =>
    unfold assignOp
    dsimp only
    split <;> grind [gives_leaving, not_gives_error]

theorem gives_jump {k : Keyword} {l : Lexeme} :
    (jump stop k ts).Gives l rest ↔
      ∃ s, ts = l :: s :: rest ∧ l.kind = .keyword k ∧ s.kind = .symbol .semicolon := by
  unfold jump
  simp only [gives_andThen, gives_map, gives_eat]
  constructor
  · rintro ⟨l', left, -, ⟨rfl, hl⟩, s, ⟨rfl, hs⟩, rfl⟩
    exact ⟨s, rfl, hl, hs⟩
  · rintro ⟨s, rfl, hl, hs⟩
    exact ⟨l, s :: rest, by simp, ⟨rfl, hl⟩, s, ⟨rfl, hs⟩, rfl⟩

end Parse

end MiniC
