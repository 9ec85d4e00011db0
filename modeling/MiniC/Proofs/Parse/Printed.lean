import MiniC.Proofs.Lexeme.Relexed
import MiniC.Proofs.Parse.Accepted
import MiniC.Proofs.Parse.Unplaced
import MiniC.Proofs.Parse.Written

/-!
# Printing and parsing

A parsed program that is printed parses to the same program, up to positions.  Main statement:
`ofSource_print`.
-/

namespace MiniC

open Grammar

namespace Parsed

variable {α : Type} {m n : Nat} {f : α → α} {p : Parsed n α} {p' : Parsed m α}

theorem Unplaces.gives (h : p.Unplaces f p') {x : α} {rest : List Lexeme} (hp : p.Gives x rest) :
    p'.Gives (f x) (unplacedLexemes rest) := by
  cases p <;> cases p'
  · obtain ⟨rfl, rfl⟩ := hp
    exact h
  · exact h.elim
  · exact h.elim
  · exact hp.elim

theorem Unplaces.exists_gives (h : p.Unplaces f p') {y : α} {rest' : List Lexeme}
    (hp' : p'.Gives y rest') : ∃ x rest, p.Gives x rest ∧ y = f x := by
  cases p <;> cases p'
  · obtain ⟨rfl, rfl⟩ := hp'
    exact ⟨_, _, ⟨rfl, rfl⟩, h.1⟩
  · exact h.elim
  · exact h.elim
  · exact hp'.elim

end Parsed

/-- Lexemes that differ in their places alone are parsed to items that differ in theirs. -/
theorem Parse.items_give_of_unplaced_eq {last : Lexeme} {ts ts' rest : List Lexeme}
    {is : List Item} (h : (items (.ok last) ts).Gives is rest)
    (hts : unplacedLexemes ts' = unplacedLexemes ts) :
    ∃ is' rest', (items (.ok last) ts').Gives is' rest' ∧
      is'.map Item.unplaced = is.map Item.unplaced := by
  have hunplaced := (unplaced_items ts).gives h
  rw [← hts] at hunplaced
  obtain ⟨is', rest', his', heq⟩ := (unplaced_items ts').exists_gives hunplaced
  exact ⟨is', rest', his', heq.symm⟩

/-- Printing and parsing give a program back, up to positions: the text delivers the lexemes that
the program is written as, and they parse to the program. -/
theorem ofSource_print {source : String} {p : Program} (h : Program.ofSource source = .ok p) :
    ∃ ls q, (Stream.ofSource p.print).Delivers ls ∧
      unplacedLexemes ls = unplacedLexemes p.write ∧
      Program.ofSource p.print = .ok q ∧ q.unplaced = p.unplaced := by
  obtain ⟨ls, hls, hitems⟩ := (Program.parse_ok_iff_delivers (Stream.endsOnce_ofSource source)).1 h
  have hwritten : IsWritten IsItems p.write p.unplaced.items := written_items hitems hls.allSpelled
  have hdelivers : ∃ ls', (Stream.ofSource p.print).Delivers ls' ∧
      unplacedLexemes ls' = unplacedLexemes p.write := delivers_joined hwritten.2
  obtain ⟨ls', hls', heq⟩ := hdelivers
  obtain ⟨⟨last, hlast⟩, hreadable⟩ := (Stream.endsOnce_ofSource _).delivers_iff_readable.1 hls'
  obtain ⟨is, rest, his, hunplaced⟩ :=
    Parse.items_give_of_unplaced_eq (Parse.items_gives hwritten.1) heq
  have hidempotent : p.unplaced.items.map Item.unplaced = p.unplaced.items := by
    rw [Program.unplaced, List.map_map]
    exact List.map_congr_left fun i _ => i.unplaced_unplaced
  refine ⟨ls', ⟨is⟩, hls', heq, Program.parse_ok.2 ⟨rest, ?_⟩, ?_⟩
  · rw [hlast, hreadable]
    exact his
  · rw [Program.unplaced, hunplaced, hidempotent]

/-- A program with a parenthesized operand and an `else` that belongs to the inner `if`. -/
theorem nested_print :
    let source := "int f(int a[3]) \x7b if (a[0]) if (2 * (a[1] - -1) > 3) f(a); else f(1); \x7d"
    ∃ p q, Program.ofSource source = .ok p ∧
      Program.ofSource p.print = .ok q ∧ q.unplaced = p.unplaced := by
  intro source
  have hparses : (Program.ofSource source).toOption.isSome = true := by decide +kernel
  cases hp : Program.ofSource source with
  | error e =>
    rw [hp] at hparses
    cases hparses
  | ok p =>
    obtain ⟨ls, q, -, -, hq, heq⟩ := ofSource_print hp
    exact ⟨p, q, rfl, hq, heq⟩

end MiniC
