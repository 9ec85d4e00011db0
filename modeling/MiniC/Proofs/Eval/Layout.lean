import MiniC.Proofs.Eval.Unplaced
import MiniC.Proofs.Lexeme.Spelled
import MiniC.Proofs.Parse.Cited

/-!
# Layout

Two source texts with the same lexemes are the same program, whatever stands between the lexemes.
Reading one of them without positions is reading the other without positions, so both are the same
tree except for places, or fail at the same lexeme; and running the trees differs in places only.
Main statement: `layout_irrelevant`.
-/

namespace MiniC

/-- The end of a run without positions.  Outputs stay as they are. -/
def RunResult.unplaced : RunResult → RunResult
  | .rejected e => .rejected e.unplaced
  | .ran o => .ran (o.unplaced id)

/-! ## Reading -/

variable {source source' : String} {ls ls' : List Lexeme}

theorem unplacedLexemes_eq
    (h : ls.map (fun l => (l.token, l.literal)) = ls'.map fun l => (l.token, l.literal)) :
    unplacedLexemes ls = unplacedLexemes ls' := by
  have hunplaced : ∀ us : List Lexeme, unplacedLexemes us =
      (us.map fun l => (l.token, l.literal)).map fun pair => ⟨pair.1, pair.2, .nowhere⟩ := by
    intro us
    rw [List.map_map]
    rfl
  rw [hunplaced, hunplaced, h]

/-- Where an unexpected lexeme stands among the lexemes of a source text and its end. -/
theorem Program.getElem?_of_parsed {l : Lexeme} {expected : Expected} {rest : List Lexeme}
    (hls : (Stream.ofSource source).Delivers ls)
    (h : Program.parsed source = .error (.unexpected l expected) rest) :
    (ls ++ [endOf source.toList])[
      if l.kind = .endOfInput then ls.length else ls.length - (rest.length + 1)]? = some l := by
  obtain ⟨hstop, hreadable⟩ := Stream.stop_of_delivers hls
  have hcites := parsed_cites source Stream.mem_readable
  rw [h, hreadable] at hcites
  rcases hcites with ⟨before, hbefore⟩ | ⟨hlast, -⟩
  · have hmem : l ∈ (Stream.ofSource source).readable := by
      rw [hreadable, ← hbefore]
      exact List.mem_append_right _ List.mem_cons_self
    have hindex : ls.length - (rest.length + 1) = before.length := by
      rw [← hbefore, List.length_append, List.length_cons, Nat.add_sub_cancel]
    rw [if_neg (entries_ne_endOfInput (Stream.mem_readable l hmem)), hindex, ← hbefore]
    simp
  · rw [hstop] at hlast
    cases hlast
    rw [if_pos (show (endOf source.toList).kind = .endOfInput from rfl)]
    simp

/-- Source texts with the same lexemes are read alike, with positions forgotten. -/
theorem Program.exists_unplaces_parsed (hls : (Stream.ofSource source).Delivers ls)
    (hls' : (Stream.ofSource source').Delivers ls')
    (hsame : ls.map (fun l => (l.token, l.literal)) = ls'.map fun l => (l.token, l.literal)) :
    ∃ (n : Nat) (q : Parsed n (List Item)),
      (parsed source).Unplaces (List.map Item.unplaced) q ∧
      (parsed source').Unplaces (List.map Item.unplaced) q := by
  obtain ⟨hstop, hreadable⟩ := Stream.stop_of_delivers hls
  obtain ⟨hstop', hreadable'⟩ := Stream.stop_of_delivers hls'
  have hlexemes : unplacedLexemes (Stream.ofSource source').readable =
      unplacedLexemes (Stream.ofSource source).readable := by
    rw [hreadable, hreadable', unplacedLexemes_eq hsame]
  have hend : (Stream.ofSource source').stop.unplaced =
      (Stream.ofSource source).stop.unplaced := by
    rw [hstop, hstop']
    rfl
  have hright : (parsed source').Unplaces (List.map Item.unplaced) _ := Parse.unplaced_items _
  rw [hlexemes, hend] at hright
  exact ⟨_, _, Parse.unplaced_items _, hright⟩

/-- Source texts with the same lexemes hold the same program except for places, or both fail at the
same lexeme. -/
theorem Program.ofSource_unplaced (hls : (Stream.ofSource source).Delivers ls)
    (hls' : (Stream.ofSource source').Delivers ls')
    (hsame : ls.map (fun l => (l.token, l.literal)) = ls'.map fun l => (l.token, l.literal)) :
    (∃ p p', Program.ofSource source = .ok p ∧ Program.ofSource source' = .ok p' ∧
      p.unplaced = p'.unplaced) ∨
    ∃ (i : Nat) (l l' : Lexeme) (expected : Expected),
      (ls ++ [endOf source.toList])[i]? = some l ∧
      (ls' ++ [endOf source'.toList])[i]? = some l' ∧ l.unplaced = l'.unplaced ∧
      Program.ofSource source = .error (.unexpected l expected) ∧
      Program.ofSource source' = .error (.unexpected l' expected) := by
  obtain ⟨n, q, hq, hq'⟩ := exists_unplaces_parsed hls hls' hsame
  rcases hq.alike hq' with ⟨is, _, _, is', _, _, hp, hp', his⟩ |
    ⟨e, rest, e', rest', hp, hp', he, hrest⟩
  · rw [ofSource_eq, ofSource_eq, hp, hp']
    exact .inl ⟨⟨is⟩, ⟨is'⟩, rfl, rfl, congrArg Program.mk his⟩
  · have herror : ofSource source = .error e := by rw [ofSource_eq, hp]; rfl
    have herror' : ofSource source' = .error e' := by rw [ofSource_eq, hp']; rfl
    cases e with
    | lexical e =>
      -- no lexical error stands behind what is delivered
      have hstop := (Stream.stop_of_delivers hls).1
      rw [ofSource_lexical herror] at hstop
      cases hstop
    | unexpected l expected =>
      cases e' with
      | lexical e' => cases he
      | unexpected l' expected' =>
        obtain ⟨hl, rfl⟩ := SyntaxError.unexpected.inj he
        have hkind : l.unplaced.kind = l'.unplaced.kind := congrArg Lexeme.kind hl
        rw [Lexeme.kind_unplaced, Lexeme.kind_unplaced] at hkind
        have hlength : ls.length = ls'.length := by
          simpa using congrArg List.length hsame
        have hindex := getElem?_of_parsed hls hp
        have hindex' := getElem?_of_parsed hls' hp'
        rw [← hkind, ← hrest, ← hlength] at hindex'
        exact .inr ⟨_, l, l', expected, hindex, hindex', hl, herror, herror'⟩

/-! ## Running -/

/-- Programs that differ in places only run alike, on machines that differ in places only. -/
theorem Program.run_unplaced {p p' : Program} (h : p.unplaced = p'.unplaced) (steps : Nat)
    {m m' : Machine} (hm : m.unplaced = m'.unplaced) :
    (p.run steps m).unplaced id = (p'.run steps m').unplaced id := by
  rw [← p.unplaces_run steps m, ← p'.unplaces_run steps m', h, hm]

/-- Layout does not matter.  Let two source texts have no lexical errors and the same lexemes, up to
where these stand.  Either both hold a program, the same one up to line and column numbers, or both
are refused at the lexeme with the same number, the end of input being the last, for the same
expectation.  On the same console both run alike, under any number of steps: to the same result, or
to the same failure up to the line and column of its lexeme, or to none, and they read and write the
same. -/
theorem layout_irrelevant (hls : (Stream.ofSource source).Delivers ls)
    (hls' : (Stream.ofSource source').Delivers ls')
    (hsame : ls.map (fun l => (l.token, l.literal)) = ls'.map fun l => (l.token, l.literal)) :
    ((∃ p p', Program.ofSource source = .ok p ∧ Program.ofSource source' = .ok p' ∧
        p.unplaced = p'.unplaced) ∨
      ∃ (i : Nat) (l l' : Lexeme) (expected : Expected),
        (ls ++ [endOf source.toList])[i]? = some l ∧
        (ls' ++ [endOf source'.toList])[i]? = some l' ∧
        Program.ofSource source = .error (.unexpected l expected) ∧
        Program.ofSource source' = .error (.unexpected l' expected)) ∧
    ∀ steps console,
      (runSource steps source console).unplaced = (runSource steps source' console).unplaced := by
  unfold runSource
  rcases Program.ofSource_unplaced hls hls' hsame with
    ⟨p, p', hp, hp', hunplaced⟩ | ⟨i, l, l', expected, hi, hi', hl, hp, hp'⟩
  · refine ⟨Or.inl ⟨p, p', hp, hp', hunplaced⟩, fun steps console => ?_⟩
    rw [hp, hp']
    exact congrArg RunResult.ran (Program.run_unplaced hunplaced steps rfl)
  · refine ⟨Or.inr ⟨i, l, l', expected, hi, hi', hp, hp'⟩, fun steps console => ?_⟩
    rw [hp, hp']
    exact congrArg (RunResult.rejected <| .unexpected · expected) hl

/-- The same program on one line and, with comments, on three; it prints and then fails. -/
theorem comment_irrelevant :
    let source := "int main() \x7b prints(\"a\"); return x; \x7d"
    let source' := "int main() // entry\n\x7b prints /* text */ (\"a\");\nreturn x;\x7d"
    let ls := Stream.leadingLexemes (entries source.toList)
    let ls' := Stream.leadingLexemes (entries source'.toList)
    let console : Console := ⟨⟨[]⟩, .unlimited⟩
    (Stream.ofSource source).Delivers ls ∧ (Stream.ofSource source').Delivers ls' ∧
      (ls.map fun l => (l.token, l.literal)) = (ls'.map fun l => (l.token, l.literal)) ∧
      (∃ p p', Program.ofSource source = .ok p ∧ Program.ofSource source' = .ok p' ∧
        p.unplaced = p'.unplaced) ∧
      (runSource 8 source console).unplaced = (runSource 8 source' console).unplaced := by
  intro source source' ls ls' console
  have hdelivers : ∀ text, (Stream.ofSource text).stop.toOption.isSome = true →
      (Stream.ofSource text).Delivers (Stream.leadingLexemes (entries text.toList)) := by
    intro text hstop
    refine (Stream.endsOnce_ofSource text).delivers_iff_readable.2 ⟨?_, rfl⟩
    cases hlast : (Stream.ofSource text).stop with
    | ok last => exact ⟨last, rfl⟩
    | error e =>
      rw [hlast] at hstop
      cases hstop
  have hls := hdelivers source (by decide +kernel)
  have hls' := hdelivers source' (by decide +kernel)
  have hliterals : ls.map Lexeme.literal = ls'.map Lexeme.literal := by decide +kernel
  have hsame := hls.allSpelled.tokens_eq hls'.allSpelled hliterals
  have hok : (Program.ofSource source).toOption.isSome = true := by decide +kernel
  obtain ⟨hread, hrun⟩ := layout_irrelevant hls hls' hsame
  refine ⟨hls, hls', hsame, hread.resolve_right ?_, hrun 8 console⟩
  rintro ⟨_, _, _, _, _, _, herror, _⟩
  rw [herror] at hok
  cases hok

end MiniC
