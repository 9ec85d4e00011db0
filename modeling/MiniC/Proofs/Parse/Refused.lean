import MiniC.Proofs.Parse.Cited
import MiniC.Proofs.Parse.Printed
import MiniC.Proofs.Parse.Viable

/-!
# Where source texts are refused

A source text that is no program is refused at the first lexeme that no program goes on with: the
lexemes before it are those that some program begins with, and the lexemes after it are still to be
read.  Main statement: `refused_behind_viable`.
-/

namespace MiniC

open Grammar

/-- Spelled lexemes that the grammar derives a program from are those of a source text that is
accepted. -/
theorem exists_accepted {ls : List Lexeme} {is : List Item} (hspelled : AllSpelled ls)
    (his : IsItems ls is) :
    ∃ source ls' p, (Stream.ofSource source).Delivers ls' ∧
      (ls'.map fun l => (l.token, l.literal)) = (ls.map fun l => (l.token, l.literal)) ∧
      Program.ofSource source = .ok p := by
  obtain ⟨ls', hls', heq⟩ := delivers_joined hspelled
  obtain ⟨hstop, hreadable⟩ := Stream.stop_of_delivers hls'
  obtain ⟨is', rest, hgives, -⟩ := Parse.items_give_of_unplaced_eq (Parse.items_gives his) heq
  refine ⟨_, ls', ⟨is'⟩, hls', tokens_eq_of_unplaced heq, Program.parse_ok.2 ⟨rest, ?_⟩⟩
  rw [hstop, hreadable]
  exact hgives

theorem Program.parse_error {s s' : Stream} {e : SyntaxError}
    (h : Program.parse s = (.error e, s')) :
    ∃ rest, Parse.items s.stop s.readable = .error e rest ∧
      s' = s.afterParsing (.error e rest : Parsed 0 (List Item)) := by
  unfold Program.parse Stream.parse at h
  dsimp only at h
  generalize Parse.items s.stop s.readable = p at h ⊢
  cases p with
  | ok is rest shorter => cases h
  | error e' rest =>
    cases h
    exact ⟨rest, rfl, by cases e <;> rfl⟩

variable {source : String} {ls front rest : List Lexeme} {l : Lexeme} {expected : Expected}
  {s : Stream}

/-- What is left of the lexemes of a source text is delivered. -/
theorem Stream.delivers_left (h : (ofSource source).Delivers (front ++ rest)) :
    Delivers ⟨rest.map .ok, endOf source.toList⟩ rest := by
  have hsource := endsOnce_ofSource source
  have hentries := hsource.delivers_iff.1 h
  have hleft : EndsOnce ⟨rest.map .ok, endOf source.toList⟩ := by
    refine ⟨hsource.last, fun l hl => hsource.entries l ?_⟩
    rw [hentries, List.map_append]
    exact List.mem_append_right _ hl
  exact hleft.delivers_iff.2 rfl

/-- A source text delivers what is readable if it has no lexical error. -/
theorem Stream.delivers_of_stop (h : (ofSource source).stop.toOption.isSome = true) :
    (ofSource source).Delivers (leadingLexemes (MiniC.entries source.toList)) := by
  refine (endsOnce_ofSource source).delivers_iff_readable.2 ⟨?_, rfl⟩
  cases hstop : (ofSource source).stop with
  | ok last => exact ⟨last, rfl⟩
  | error e =>
    rw [hstop] at h
    cases h

/-- Where parsing fails, the stream is left with what the parser leaves. -/
theorem Stream.afterParsing_error (h : (ofSource source).Delivers ls) :
    (ofSource source).afterParsing
      (.error (.unexpected l expected) rest : Parsed 0 (List Item)) =
      ⟨rest.map .ok, endOf source.toList⟩ := by
  have hentries := (endsOnce_ofSource source).delivers_iff.1 h
  unfold afterParsing unreadable
  rw [(stop_of_delivers h).2, hentries, List.drop_of_length_le (List.length_map _).le]
  dsimp only
  rw [List.append_nil]
  rfl

/-- A source text without lexical errors that is refused is refused at a lexeme behind which the
stream goes on, or at its end.  The lexemes before it are those that an accepted source text begins
with. -/
theorem refused_behind_viable (hls : (Stream.ofSource source).Delivers ls)
    (h : Program.parse (.ofSource source) = (.error (.unexpected l expected), s)) :
    ∃ before, ((∃ after, ls = before ++ l :: after ∧ s.Delivers after) ∨
        ls = before ∧ l = endOf source.toList ∧ s.Delivers []) ∧
      ∃ more source' ls' p, (Stream.ofSource source').Delivers ls' ∧
        (ls'.map fun l => (l.token, l.literal)) =
          ((before ++ more).map fun l => (l.token, l.literal)) ∧
        Program.ofSource source' = .ok p := by
  obtain ⟨hstop, hreadable⟩ := Stream.stop_of_delivers hls
  obtain ⟨rest, hitems, rfl⟩ := Program.parse_error h
  rw [hstop, hreadable] at hitems
  rw [Stream.afterParsing_error hls]
  obtain ⟨before, ⟨more, is, hmore, his⟩, hbefore⟩ := Parse.viable_items ls hitems
  have hspelled : AllSpelled before := by
    intro l hl
    refine hls.allSpelled l ?_
    rcases hbefore with rfl | ⟨rfl, -⟩
    · exact List.mem_append_left _ hl
    · exact hl
  refine ⟨before, ?_, more, exists_accepted (allSpelled_append.2 ⟨hspelled, hmore⟩) his⟩
  rcases hbefore with rfl | ⟨rfl, hlast, rfl⟩
  · rw [List.append_cons] at hls
    exact .inl ⟨rest, rfl, Stream.delivers_left hls⟩
  · rw [← List.append_nil ls] at hls
    exact .inr ⟨rfl, (Except.ok.inj hlast).symm, Stream.delivers_left hls⟩

/-- An operand is missing, with a parenthesis, an `if` and a block still open. -/
theorem operand_refused :
    let source := "int main() \x7b if (x[0]) x = 2 * (1 + ; \x7d"
    let ls := Stream.leadingLexemes (entries source.toList)
    ∃ l expected s before after more source' ls' p,
      (Stream.ofSource source).Delivers ls ∧
      Program.parse (.ofSource source) = (.error (.unexpected l expected), s) ∧
      ls = before ++ l :: after ∧ s.Delivers after ∧ (Stream.ofSource source').Delivers ls' ∧
      (ls'.map fun l => (l.token, l.literal)) =
        ((before ++ more).map fun l => (l.token, l.literal)) ∧
      Program.ofSource source' = .ok p := by
  intro source ls
  have hls : (Stream.ofSource source).Delivers ls := Stream.delivers_of_stop (by decide +kernel)
  have hfails : (Program.ofSource source).toOption.isSome = false := by decide +kernel
  have hnext : (Program.parse (.ofSource source)).2.advance.1.toOption.map Lexeme.kind =
      some (.symbol .rightBrace) := by
    decide +kernel
  rcases hparse : Program.parse (.ofSource source) with ⟨(e | ⟨l, expected⟩) | p, s⟩
  · have hstop := Program.ofSource_lexical (congrArg Prod.fst hparse)
    rw [(Stream.stop_of_delivers hls).1] at hstop
    cases hstop
  · obtain ⟨before, hbefore, more, source', ls', p, hls', htokens, hp⟩ :=
      refused_behind_viable hls hparse
    rw [hparse] at hnext
    rcases hbefore with ⟨after, hafter, hleft⟩ | ⟨-, -, hleft⟩
    · exact ⟨l, expected, s, before, after, more, source', ls', p, hls, rfl, hafter, hleft, hls',
        htokens, hp⟩
    · cases hleft with
      | done hadvance hkind =>
        rw [hadvance] at hnext
        have hbrace := Option.some.inj hnext
        rw [hkind] at hbrace
        cases hbrace
  · rw [show Program.ofSource source = .ok p from congrArg Prod.fst hparse] at hfails
    cases hfails

end MiniC
