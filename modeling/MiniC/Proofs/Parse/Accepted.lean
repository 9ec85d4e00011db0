import MiniC.Proofs.Lexeme.Delivered
import MiniC.Proofs.Parse.Lookahead
import MiniC.Proofs.Parse.Sound

/-!
# The programs that are accepted

A source text is accepted exactly if it can be read lexeme by lexeme without a lexical error and the
grammar derives what was read.  Main statement: `ofSource_accepts_grammar`.
-/

namespace MiniC

open Grammar

namespace Parsed

variable {α : Type} {n : Nat}

theorem outcome_ok {p : Parsed n α} {x : α} :
    p.outcome = .ok x ↔ ∃ rest, p.Gives x rest := by
  cases p with
  | ok value left shorter =>
    constructor
    · rintro ⟨⟩
      exact ⟨left, rfl, rfl⟩
    · rintro ⟨rest, rfl, rfl⟩
      rfl
  | error e left =>
    constructor
    · rintro ⟨⟩
    · rintro ⟨rest, h⟩
      exact h.elim

end Parsed

theorem Program.parse_ok {s : Stream} {p : Program} :
    (Program.parse s).1 = .ok p ↔ ∃ rest, (Parse.items s.stop s.readable).Gives p.items rest := by
  rw [← Parsed.outcome_ok]
  unfold Program.parse Stream.parse
  dsimp only
  cases (Parse.items s.stop s.readable).outcome with
  | error e =>
    constructor
    · rintro ⟨⟩
    · rintro ⟨⟩
  | ok items =>
    constructor
    · rintro ⟨⟩
      rfl
    · intro h
      cases h
      rfl

/-- A stream holds a program if it delivers lexemes that the grammar derives the program from. -/
theorem Program.parse_ok_iff_delivers {s : Stream} {p : Program} (hs : s.EndsOnce) :
    (Program.parse s).1 = .ok p ↔ ∃ ls, s.Delivers ls ∧ IsItems ls p.items := by
  rw [Program.parse_ok]
  constructor
  · rintro ⟨rest, h⟩
    obtain ⟨hstop, hitems⟩ := Parse.reads_items _ h
    exact ⟨s.readable, (hs.delivers_iff_readable).2 ⟨hstop, rfl⟩, hitems⟩
  · rintro ⟨ls, hls, hitems⟩
    obtain ⟨⟨last, hlast⟩, rfl⟩ := hs.delivers_iff_readable.1 hls
    rw [hlast]
    exact ⟨[], Parse.items_gives hitems⟩

/-- The functions that the grammar derives have blocks. -/
theorem Grammar.body_of_isItems {ls : List Lexeme} {items : List Item} (h : IsItems ls items)
    {f : FunctionDecl} (hf : .function f ∈ items) : ∃ body l, f.body = .block body l := by
  induction h with
  | none => cases hf
  | more hi _ ih =>
    rcases List.mem_cons.1 hf with rfl | hf
    · cases hi with
      | function hfunction =>
        cases hfunction
        exact ⟨_, _, rfl⟩
    · exact ih hf

theorem Program.body_of_ofSource {source : String} {p : Program}
    (hp : Program.ofSource source = .ok p) {f : FunctionDecl} (hf : .function f ∈ p.items) :
    ∃ body l, f.body = .block body l := by
  obtain ⟨rest, hgives⟩ := Program.parse_ok.1 hp
  exact Grammar.body_of_isItems (Parse.reads_items _ hgives).2 hf

/-- Parsing accepts exactly the grammar, with the tree that the grammar derives.  The lookahead that
chooses between a function and a global declaration takes what the grammar derives as one of them
for that one, whatever follows it. -/
theorem ofSource_accepts_grammar (source : String) :
    ((∃ p, Program.ofSource source = .ok p) ↔
      ∃ ls, (Stream.ofSource source).Delivers ls ∧ ∃ is, IsItems ls is) ∧
    (∀ p, Program.ofSource source = .ok p ↔
      ∃ ls, (Stream.ofSource source).Delivers ls ∧ IsItems ls p.items) ∧
    ∀ stop ls rest,
      (∀ f, IsFunction ls f →
        Parse.item stop (ls ++ rest) = (Parse.function stop (ls ++ rest)).map .function) ∧
      ∀ d, IsGlobal ls d →
        Parse.item stop (ls ++ rest) = (Parse.global stop (ls ++ rest)).map .global := by
  have hparse := fun p => Program.parse_ok_iff_delivers (p := p) (Stream.endsOnce_ofSource source)
  refine ⟨?_, hparse, fun stop ls rest => ⟨fun f => Parse.item_of_isFunction,
    fun d => Parse.item_of_isGlobal⟩⟩
  constructor
  · rintro ⟨p, hp⟩
    obtain ⟨ls, hls, his⟩ := (hparse p).1 hp
    exact ⟨ls, hls, p.items, his⟩
  · rintro ⟨ls, hls, is, his⟩
    exact ⟨⟨is⟩, (hparse ⟨is⟩).2 ⟨ls, hls, his⟩⟩

end MiniC
