import MiniC.Proofs.Parse.Descends

/-!
# Parsing ends

A call comes with fewer lexemes than the parser that makes it was given, or with as many at a lower
rank (`Rule.Precedes`).  So the calls go down sixteen levels for each lexeme at most
(`Rule.unfold_eq`), and the parsers are total.  What succeeds has consumed a lexeme, other than
where no subscripts or no items are read, and never the end of input.  Main statement:
`parsing_ends`.
-/

namespace MiniC

open Parse Parsed Descent

/-! ## What is consumed -/

/-- Whether a rule consumes a lexeme whenever it succeeds.  Subscripts, the items of a program and
the rounds of some loops can be missing. -/
def Rule.consumes : Rule α → Bool
  | .subscripts | .program => false
  | .loop (.operators _) _ | .loop .subscripts _ | .loop .branches _ | .loop .items _ => false
  | _ => true

section

variable {stop : Stop} {ts rest : List Lexeme} {α : Type} {x : α}

theorem Rule.shorter (r : Rule α) (hr : r.consumes = true) (h : (r.parser stop ts).Gives x rest) :
    rest.length < ts.length := by
  cases r with
  | subscripts | program => cases hr
  | loop l state =>
    cases l with
    | separated | statements => exact (gives_relax.1 h).shorter
    | operators | subscripts | branches | items => cases hr
  | _ => exact (gives_relax.1 h).shorter

/-- Where nothing is consumed there are no subscripts. -/
theorem Parse.indices_eq_nil {is : List (Option Expr)} (h : (indices stop ts).Gives is ts) :
    is = [] := by
  cases ts with
  | nil =>
    rw [indices] at h
    exact (gives_atEnd.1 h).2.1.symm
  | cons l ts =>
    rw [indices] at h
    split at h
    · have hshorter := (gives_relax.1 (gives_relax.1 h)).shorter
      rw [List.length_cons] at hshorter
      omega
    · exact h.1.symm

/-- Where nothing is consumed there are no items. -/
theorem Parse.items_eq_nil {is : List Item} (h : (items stop ts).Gives is ts) : is = [] := by
  cases ts with
  | nil =>
    rw [items] at h
    exact (gives_atEnd.1 h).2.1.symm
  | cons l ts =>
    rw [items] at h
    exact absurd (gives_relax.1 h).shorter (Nat.lt_irrefl _)

end

namespace Stream

variable {s : Stream} {ts us : List Lexeme}

theorem entries_leaving_suffix (hus : us <:+ s.readable) :
    (s.leaving us).entries <:+ s.entries := by
  obtain ⟨consumed, hconsumed⟩ := hus
  refine ⟨consumed.map .ok, ?_⟩
  unfold leaving
  rw [← s.entries_readable, ← hconsumed, List.map_append, List.append_assoc]

theorem mem_readable_of_endsOnce (hs : s.EndsOnce) : ∀ l ∈ s.readable, l.kind ≠ .endOfInput :=
  fun l hl => hs.entries l (mem_of_mem_leadingLexemes hl)

/-- What a parser of a rule consumes stands at the front of the stream. -/
theorem parse_rule {s' : Stream} {r : Rule α} {x : α} (hs : s.EndsOnce)
    (h : s.parse r.parser = (.ok x, s')) :
    ∃ consumed : List Lexeme, s.entries = consumed.map .ok ++ s'.entries ∧ s'.last = s.last ∧
      (∀ l ∈ consumed, l.kind ≠ .endOfInput) ∧ (r.consumes = true → consumed ≠ []) := by
  obtain ⟨rest, hgives, rfl⟩ := parse_ok h
  obtain ⟨consumed, hconsumed⟩ := (Rule.cites r).suffix hgives
  refine ⟨consumed, ?_, rfl, fun l hl => ?_, fun hr hnil => ?_⟩
  · unfold leaving
    rw [← s.entries_readable, ← hconsumed, List.map_append, List.append_assoc]
  · refine mem_readable_of_endsOnce hs l ?_
    rw [← hconsumed]
    exact List.mem_append_left rest hl
  · have hshorter := r.shorter hr hgives
    rw [← hconsumed, hnil] at hshorter
    exact Nat.lt_irrefl _ hshorter

/-- What leaves as many entries leaves everything. -/
theorem readable_of_length {s' : Stream} {r : Rule α} {x : α}
    (h : s.parse r.parser = (.ok x, s')) (hlength : s'.entries.length = s.entries.length) :
    (r.parser s.stop s.readable).Gives x s.readable := by
  obtain ⟨rest, hgives, rfl⟩ := parse_ok h
  have hsuffix := (Rule.cites r).suffix hgives
  rw [length_entries_leaving, length_entries] at hlength
  rwa [hsuffix.eq_of_length (Nat.add_right_cancel hlength)] at hgives

end Stream

/-! ## Calls go down -/

section

variable {call : {β : Type} → Rule β → Descent β} {s : Stream} {α : Type} {r : Rule α}

theorem answeredBelow_of_precedes
    (h : ∀ ⦃β : Type⦄ (r' : Rule β) s', r'.Precedes s' r s → call r' s' = r'.run s') :
    AnsweredBelow call s r.rank s.readable := by
  intro β r' us hus hlower
  refine h r' _ ⟨rfl, Stream.entries_leaving_suffix hus, ?_⟩
  rw [Stream.length_entries_leaving, Stream.length_entries]
  omega

/-- A rule does what its running parser does, if the calls that come first are answered so. -/
theorem Rule.body_eq (r : Rule α) (hs : s.EndsOnce)
    (h : ∀ ⦃β : Type⦄ (r' : Rule β) s', r'.Precedes s' r s → call r' s' = r'.run s') :
    r.body call s = r.run s := by
  have hbody := r.body_does hs.last (Stream.mem_readable_of_endsOnce hs)
    (answeredBelow_of_precedes h)
  have hrun := r.run_does (s := s) s.readable
  unfold Does Answers at hbody hrun
  rw [Stream.leaving_readable] at hbody hrun
  rcases hbody with ⟨e, hb, hres⟩ | ⟨x, us, hb, -, hres⟩ <;>
    rcases hrun with ⟨e', hr, hres'⟩ | ⟨x', us', hr, -, hres'⟩
  · cases hres.symm.trans hres'
    exact hb.trans hr.symm
  · cases hres.symm.trans hres'
  · cases hres.symm.trans hres'
  · cases Eq.trans (Eq.symm hres) hres'
    exact hb.trans hr.symm

theorem Rule.Precedes.endsOnce {β : Type} {r' : Rule β} {s' : Stream} (h : r'.Precedes s' r s)
    (hs : s.EndsOnce) : s'.EndsOnce :=
  ⟨h.1 ▸ hs.last, fun l hl => hs.entries l (h.2.1.subset hl)⟩

theorem Rule.Precedes.measure_lt {β : Type} {r' : Rule β} {s' : Stream} (h : r'.Precedes s' r s) :
    r'.measure s' < r.measure s := by
  have hrank := r'.rank_lt
  unfold Rule.measure
  obtain ⟨-, -, hlt | ⟨heq, hlt⟩⟩ := h <;> omega

/-- Calls that come first cannot go on for ever. -/
theorem Rule.precedes_wellFounded :
    WellFounded fun c' c : (Σ α, Rule α) × Stream => c'.1.2.Precedes c'.2 c.1.2 c.2 :=
  Subrelation.wf (fun h => h.measure_lt)
    (InvImage.wf (fun c : (Σ α, Rule α) × Stream => c.1.2.measure c.2) Nat.lt_wfRel.wf)

/-- Calls go down no more levels than the measure says. -/
theorem Rule.unfold_eq (depth : Nat) :
    ∀ {α : Type} (r : Rule α) {s : Stream}, s.EndsOnce → r.measure s < depth →
      r.unfold depth s = r.run s := by
  induction depth with
  | zero => exact fun r s hs hdepth => absurd hdepth (Nat.not_lt_zero _)
  | succ depth ih =>
    intro α r s hs hdepth
    refine r.body_eq hs fun β r' s' hprecedes => ih r' (hprecedes.endsOnce hs) ?_
    exact Nat.lt_of_lt_of_le hprecedes.measure_lt (Nat.le_of_lt_succ hdepth)

/-- A round of a loop ends.  It goes round again with fewer lexemes only. -/
theorem Loop.iteration_run {σ : Type} (l : Loop σ α) (state : σ) (hs : s.EndsOnce) :
    ∃ a, l.iteration Rule.run state s = some a ∧
      ∀ state' s', a = .ok (.inl state', s') → s'.entries.length < s.entries.length := by
  have hround := iteration_continues l state hs.last (Stream.mem_readable_of_endsOnce hs)
    (@answeredBelow_of_precedes Rule.run s α (.loop l state) fun _ _ _ _ => rfl)
  unfold Answers at hround
  rw [Stream.leaving_readable] at hround
  rcases hround with ⟨e, hm, -⟩ | ⟨next, us, hm, -, hnext⟩
  · refine ⟨_, hm, ?_⟩
    rintro state' s' ⟨⟩
  · refine ⟨_, hm, fun state' s' heq => ?_⟩
    obtain ⟨rfl, rfl⟩ := Prod.mk.inj (Except.ok.inj heq)
    rw [Stream.length_entries_leaving, Stream.length_entries]
    exact Nat.add_lt_add_right hnext.1 _

end

/-! ## Parsing -/

theorem Rule.run_program (s : Stream) :
    (Rule.program.run s).map (·.map Prod.fst) = some (Program.parse s).1 := by
  have hparse : s.parse Rule.program.parser =
      (((items s.stop s.readable).map Program.mk).outcome,
        s.afterParsing ((items s.stop s.readable).map Program.mk)) := rfl
  unfold Rule.run Program.parse Stream.parse
  rw [← Stream.parse, hparse]
  cases items s.stop s.readable <;> rfl

/-- For every source text, well formed or not, and whatever was read of it before: what a parser
consumes before it succeeds is at least one lexeme, other than where there are no subscripts or no
items, and no end of input; a round of a loop fails, ends the loop or leaves fewer entries; the
calls that a parser makes come with fewer entries or at a lower rank; and so all parsers end. -/
theorem parsing_ends (source : String) (calls : List StreamCall) :
    let s := afterCalls Stream.call (.ofSource source) calls
    (∀ {α : Type} (r : Rule α) (x : α) s', s.parse r.parser = (.ok x, s') →
      ∃ consumed : List Lexeme, s.entries = consumed.map .ok ++ s'.entries ∧ s'.last = s.last ∧
        (∀ l ∈ consumed, l.kind ≠ .endOfInput) ∧ (r.consumes = true → consumed ≠ [])) ∧
    (∀ is s', s.parse Rule.subscripts.parser = (.ok is, s') →
      s'.entries.length = s.entries.length → is = []) ∧
    (∀ program s', s.parse Rule.program.parser = (.ok program, s') →
      s'.entries.length = s.entries.length → program.items = []) ∧
    (∀ {σ α : Type} (l : Loop σ α) (state : σ), ∃ a, l.iteration Rule.run state s = some a ∧
      ∀ state' s', a = .ok (.inl state', s') → s'.entries.length < s.entries.length) ∧
    (∀ {α : Type} (r : Rule α) (call : {β : Type} → Rule β → Descent β),
      (∀ ⦃β : Type⦄ (r' : Rule β) s', r'.Precedes s' r s → call r' s' = r'.run s') →
        r.body call s = r.run s) ∧
    (WellFounded fun c' c : (Σ α, Rule α) × Stream => c'.1.2.Precedes c'.2 c.1.2 c.2) ∧
    (∀ {α : Type} (r : Rule α) depth, r.measure s < depth → r.unfold depth s = r.run s) ∧
    ∀ depth, Rule.program.measure s < depth →
      (Rule.program.unfold depth s).map (·.map Prod.fst) = some (Program.parse s).1 := by
  intro s
  have hs : s.EndsOnce := (Stream.endsOnce_ofSource source).afterCalls calls
  refine ⟨fun r x s' => Stream.parse_rule hs, fun is s' hparse hlength => ?_,
    fun program s' hparse hlength => ?_, fun l state => l.iteration_run state hs,
    fun r call => r.body_eq hs, Rule.precedes_wellFounded, fun r depth => r.unfold_eq depth hs,
    fun depth hdepth => ?_⟩
  · exact indices_eq_nil (Stream.readable_of_length hparse hlength)
  · obtain ⟨is, his, rfl⟩ := gives_map.1 (Stream.readable_of_length hparse hlength)
    exact items_eq_nil his
  · rw [Rule.program.unfold_eq depth hs hdepth, Rule.run_program]

/-- A program that stops in the middle of a condition is refused after finitely many calls. -/
theorem unfinished_program_ends :
    let source := "int main() \x7b if (x"
    ∃ e, (Rule.program.unfold 132 (.ofSource source)).map (·.map Prod.fst) = some (.error e) := by
  intro source
  have hmeasure : Rule.program.measure (.ofSource source) < 132 := by decide +kernel
  have hfails : (Program.parse (.ofSource source)).1.toOption.isSome = false := by decide +kernel
  obtain ⟨-, -, -, -, -, -, -, hends⟩ := parsing_ends source []
  have hends := hends 132 hmeasure
  cases hparse : (Program.parse (.ofSource source)).1 with
  | error e => exact ⟨e, hends.trans (congrArg some hparse)⟩
  | ok program =>
    rw [hparse] at hfails
    cases hfails

theorem Stream.exists_parse {s : Stream} {p : Parser α}
    (hok : (s.parse p).1.toOption.isSome = true)
    (hlength : (s.parse p).2.entries.length = s.entries.length) :
    ∃ x s', s.parse p = (.ok x, s') ∧ s'.entries.length = s.entries.length := by
  rcases hparse : s.parse p with ⟨e | x, s'⟩
  · rw [hparse] at hok
    cases hok
  · rw [hparse] at hlength
    exact ⟨x, s', rfl, hlength⟩

/-- A program without items, subscripts where no bracket stands, and the round that ends a loop
consume nothing. -/
theorem nothing_consumed :
    (∃ program s', (Stream.ofSource "").parse Rule.program.parser = (.ok program, s') ∧
      s'.entries.length = (Stream.ofSource "").entries.length) ∧
    (∃ is s', (Stream.ofSource ";").parse Rule.subscripts.parser = (.ok is, s') ∧
      s'.entries.length = (Stream.ofSource ";").entries.length) ∧
    ∃ next s', Loop.branches.iteration Rule.run [] (.ofSource ";") = some (.ok (next, s')) ∧
      s'.entries.length = (Stream.ofSource ";").entries.length := by
  have hround : ((Loop.branches.iteration Rule.run [] (.ofSource ";")).bind Except.toOption).map
      (·.2.entries.length) = some (Stream.ofSource ";").entries.length := by decide +kernel
  refine ⟨Stream.exists_parse (by decide +kernel) (by decide +kernel),
    Stream.exists_parse (by decide +kernel) (by decide +kernel), ?_⟩
  rcases h : Loop.branches.iteration Rule.run [] (.ofSource ";") with - | e | ⟨next, s'⟩
  · rw [h] at hround
    cases hround
  · rw [h] at hround
    cases hround
  · rw [h] at hround
    exact ⟨next, s', rfl, Option.some.inj hround⟩

end MiniC
