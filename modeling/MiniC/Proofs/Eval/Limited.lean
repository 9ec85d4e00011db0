import MiniC.Proofs.Eval.Composed
import MiniC.Proofs.Run.Done

/-!
# Refused writes

A run on a sink that takes `n` bytes does what it does on one that takes everything, until a write
does not fit.  There it fails, and nothing is written any more.  The two runs are compared for
everything that is composed of primitive activities (`Run.Composed.cuts`).  Main statement:
`runSource_limited`.
-/

namespace MiniC

/-- A sink that takes `n` bytes in all and can be flushed. -/
def Sink.limited (n : Nat) : Sink := ⟨#[], some n, false⟩

namespace Machine

variable {m k : Machine}

/-- The bytes that were written. -/
def written (m : Machine) : List UInt8 := m.console.output.written.toList

/-- The machine with a sink that takes `n` bytes in all. -/
def limitTo (n : Nat) (m : Machine) : Machine :=
  { m with console := { m.console with output := { m.console.output with capacity := some n } } }

/-- The sink takes everything, and can be flushed. -/
def TakesAll (m : Machine) : Prop :=
  m.console.output.capacity = none ∧ m.console.output.refusesFlush = false

/-- What was written stays, and the sink still takes everything. -/
def Extends (m k : Machine) : Prop := k.TakesAll ∧ m.written <+: k.written

theorem TakesAll.extends_refl (h : m.TakesAll) : m.Extends m := ⟨h, List.prefix_refl _⟩

theorem Extends.trans {l : Machine} (hmk : m.Extends k) (hkl : k.Extends l) : m.Extends l :=
  ⟨hkl.1, hmk.2.trans hkl.2⟩

end Machine

/-- The second outcome is the first one on a sink that takes `n` bytes: the same as long as they are
enough, else a refused write after exactly `n` bytes. -/
inductive Outcome.CutAt {α : Type} (n : Nat) : Outcome α → Outcome α → Prop
  | done (value : α) {m : Machine} (h : m.written.length ≤ n) :
      CutAt n (.done value m) (.done value (m.limitTo n))
  | failed (f : Failure) {m : Machine} (h : m.written.length ≤ n) :
      CutAt n (.failed f m) (.failed f (m.limitTo n))
  | unfinished : CutAt n .unfinished .unfinished
  | refused {o : Outcome α} {f : Failure} {k : Machine} (hf : f.fault = .writeRefused)
      (h : ∀ m, o.machine? = some m → n < m.written.length ∧ k.written = m.written.take n) :
      CutAt n o (.failed f k)

namespace Run

variable {α β : Type} {r : Run α} {next : α → Run β} {m k : Machine} {n : Nat}
  {I : Scope → Prop} {F : Failure → Prop} {V : α → Prop}

/-! ## Output grows -/

/-- Whatever is composed only adds to the output. -/
theorem Composed.extends (hr : r.Composed I F V) (hI : I m.scope) (hm : m.TakesAll)
    (hk : (r m).machine? = some k) : m.Extends k := by
  induction hr generalizing m k with
  | pure | failWith | inspect =>
    cases hk
    exact hm.extends_refl
  | unfinished => cases hk
  | modifyScope =>
    cases hk
    exact ⟨hm, List.prefix_refl _⟩
  | read =>
    unfold Run.read lift at hk
    dsimp only at hk
    split at hk
    · cases hk
      exact ⟨hm, List.prefix_refl _⟩
    · cases hk
      exact ⟨hm, List.prefix_refl _⟩
  | writeLine =>
    obtain ⟨scope, input, written, capacity, refusesFlush⟩ := m
    obtain ⟨rfl, hflush⟩ : capacity = none ∧ refusesFlush = false := hm
    cases hk
    refine ⟨⟨rfl, hflush⟩, ?_⟩
    simp [Machine.written]
  | bind hr _ ihr ihnext =>
    obtain hk | ⟨value, l, hl, hk⟩ := bind_machine? hk
    · exact ihr hI hm hk
    · have hmeets := hr.meets hI
      rw [hl] at hmeets
      have hml := ihr hI hm (by rw [hl]; rfl)
      exact hml.trans (ihnext value hmeets.1 hmeets.2 hml.1 hk)
  | locate _ _ ih =>
    rw [locate_machine?] at hk
    exact ih hI hm hk
  | afterwards _ _ ih =>
    rw [afterwards_machine?] at hk
    obtain ⟨l, hl, rfl⟩ := Option.map_eq_some_iff.1 hk
    have hml := ih hI hm hl
    exact hml

/-! ## A sink that is full -/

/-- A line that does not fit is written as far as it does, and refused. -/
theorem writeLine_cuts (hm : m.TakesAll) (hn : m.written.length ≤ n) (text : String) :
    (writeLine text m).CutAt n (writeLine text (m.limitTo n)) := by
  obtain ⟨scope, input, written, capacity, refusesFlush⟩ := m
  obtain ⟨rfl, -⟩ : capacity = none ∧ refusesFlush = false := hm
  have hsize : written.size ≤ n := hn
  unfold Run.writeLine Sink.writeLine
  generalize Text.Utf8.encode (text ++ "\n") = bytes
  have hlength : (written ++ bytes).toList.length = written.size + bytes.length := by
    rw [Array.toList_appendList, List.length_append, Array.length_toList]
  unfold Sink.write Machine.limitTo
  dsimp only
  split
  · next hfits =>
    rw [List.take_of_length_le hfits]
    refine .done () ?_
    show (written ++ bytes).toList.length ≤ n
    omega
  · next hfits =>
    have hcut : (written ++ bytes.take (n - written.size)).toList
        = (written ++ bytes).toList.take n := by
      rw [Array.toList_appendList, Array.toList_appendList, List.take_append, Array.length_toList,
        List.take_of_length_le hsize]
    refine .refused rfl fun k hk => ?_
    cases hk
    refine ⟨?_, hcut⟩
    show n < (written ++ bytes).toList.length
    omega

/-- What comes after a run is cut where that or the rest is. -/
theorem bind_cuts {m' : Machine} (hr : (r m).CutAt n (r m'))
    (hnext : ∀ value l, r m = .done value l → l.written.length ≤ n →
      (next value l).CutAt n (next value (l.limitTo n)))
    (hgrows : ∀ value l k, r m = .done value l → (next value l).machine? = some k →
      l.written <+: k.written) :
    ((r >>= next) m).CutAt n ((r >>= next) m') := by
  show (Run.bind r next m).CutAt n (Run.bind r next m')
  unfold Run.bind
  generalize r m = o at hr hnext hgrows
  generalize r m' = o' at hr
  cases hr with
  | done value h => exact hnext value _ rfl h
  | failed f h => exact .failed f h
  | unfinished => exact .unfinished
  | refused hf h =>
    -- the rest of the first run only adds to bytes that are too many already
    refine .refused hf fun k hk => ?_
    cases o with
    | done value l =>
      obtain ⟨hlong, hwritten⟩ := h l rfl
      obtain ⟨more, hmore⟩ := hgrows value l k rfl hk
      have hshort : n ≤ l.written.length := Nat.le_of_lt hlong
      rw [hwritten, ← hmore, List.length_append, List.take_append_of_le_length hshort]
      exact ⟨Nat.lt_add_right _ hlong, rfl⟩
    | failed f l => exact h k hk
    | unfinished => cases hk

/-- Whatever is composed is cut where the sink is full. -/
theorem Composed.cuts (hr : r.Composed I F V) (hI : I m.scope) (hm : m.TakesAll)
    (hn : m.written.length ≤ n) : (r m).CutAt n (r (m.limitTo n)) := by
  induction hr generalizing m with
  | pure | inspect | modifyScope => exact .done _ hn
  | unfinished => exact .unfinished
  | failWith => exact .failed _ hn
  | read =>
    unfold Run.read lift
    dsimp only [Machine.limitTo]
    split
    · exact .done _ hn
    · exact .failed _ hn
  | writeLine => exact writeLine_cuts hm hn _
  | @bind _ _ _ _ _ r next hr hnext ihr ihnext =>
    have hmeets := hr.meets hI
    have hextends : ∀ value l, r m = .done value l → m.Extends l := fun value l hl =>
      hr.extends hI hm (by rw [hl]; rfl)
    refine bind_cuts (ihr hI hm hn) (fun value l hl hlength => ?_) fun value l k hl hk => ?_
    · rw [hl] at hmeets
      exact ihnext value hmeets.1 hmeets.2 (hextends value l hl).1 hlength
    · rw [hl] at hmeets
      exact ((hnext value hmeets.1).extends hmeets.2 (hextends value l hl).1 hk).2
  | @locate _ _ _ _ r _ _ _ ih =>
    have hcut := ih hI hm hn
    unfold Run.locate
    generalize r m = o at hcut
    generalize r (m.limitTo n) = o' at hcut
    cases hcut with
    | done value h => exact .done value h
    | failed f h => exact .failed _ h
    | unfinished => exact .unfinished
    | refused hf h =>
      refine .refused hf fun k hk => h k ?_
      cases o <;> exact hk
  | @afterwards _ _ _ r _ _ _ ih =>
    have hcut := ih hI hm hn
    unfold Run.afterwards
    generalize r m = o at hcut
    generalize r (m.limitTo n) = o' at hcut
    cases hcut with
    | done value h => exact .done value h
    | failed f h => exact .failed f h
    | unfinished => exact .unfinished
    | refused hf h =>
      refine .refused hf fun k hk => ?_
      cases o with
      | done value l | failed f l =>
        cases hk
        exact h l rfl
      | unfinished => cases hk

end Run

/-! ## Programs -/

namespace Run

variable {α : Type} {r : Run α} {m : Machine} {n : Nat} {I : Scope → Prop} {F : Failure → Prop}
  {V : α → Prop}

theorem flushed_eq
    (h : ∀ value k, r m = .done value k → k.console.output.refusesFlush = false) :
    r.flushed m = r m := by
  unfold flushed
  cases hr : r m with
  | done value k =>
    dsimp only
    unfold Sink.flush
    rw [h value k hr]
    rfl
  | failed f k => rfl
  | unfinished => rfl

/-- Flushing at the end changes nothing, on either sink. -/
theorem Composed.flushed_cuts (hr : r.Composed I F V) (hI : I m.scope) (hm : m.TakesAll)
    (hn : m.written.length ≤ n) : (r.flushed m).CutAt n (r.flushed (m.limitTo n)) := by
  have hcut := hr.cuts hI hm hn
  have hflushes : ∀ value k, r m = .done value k → k.console.output.refusesFlush = false :=
    fun value k hk => (hr.extends hI hm (by rw [hk]; rfl)).1.2
  have hflushes' : ∀ value k, r (m.limitTo n) = .done value k →
      k.console.output.refusesFlush = false := by
    intro value k hk
    rw [hk] at hcut
    generalize r m = o at hcut hflushes
    cases hcut with
    | done _ h =>
      have hfree := hflushes value _ rfl
      exact hfree
  rw [flushed_eq hflushes, flushed_eq hflushes']
  exact hcut

end Run

namespace RunResult

/-- What a run that ended has written. -/
def written? : RunResult → Option (List UInt8)
  | .rejected _ => some []
  | .ran o => o.machine?.map Machine.written

/-- The same rejection, value or failure. -/
inductive SameResult : RunResult → RunResult → Prop
  | rejected (e : SyntaxError) : SameResult (.rejected e) (.rejected e)
  | done (value : Int64) (m m' : Machine) :
      SameResult (.ran (.done value m)) (.ran (.done value m'))
  | failed (f : Failure) (m m' : Machine) : SameResult (.ran (.failed f m)) (.ran (.failed f m'))

end RunResult

/-- A refused write stops a program exactly there.  Let a run of a source text end on a sink that
takes everything, with some output.  On a sink that takes `n` bytes the run ends under the same
steps: with the same result and output if these are enough, else with an input/output failure after
exactly the first `n` bytes of that output. -/
theorem runSource_limited (source : String) (input : Source) (steps n : Nat) {output : List UInt8}
    (h : (runSource steps source ⟨input, .unlimited⟩).written? = some output) :
    let free := runSource steps source ⟨input, .unlimited⟩
    let limited := runSource steps source ⟨input, .limited n⟩
    (output.length ≤ n → free.SameResult limited ∧ limited.written? = some output) ∧
    (n < output.length → ∃ f m, limited = .ran (.failed f m) ∧ f.fault.kind = .inputOutput ∧
      limited.written? = some (output.take n)) := by
  unfold runSource at h ⊢
  cases hp : Program.ofSource source with
  | error e =>
    rw [hp] at h
    cases h
    exact ⟨fun _ => ⟨.rejected e, rfl⟩, fun hlong => absurd hlong (Nat.not_lt_zero n)⟩
  | ok p =>
    rw [hp] at h
    have hcomposed := Run.setting_trivial.program steps
      (fun f (_ : .function f ∈ p.items) => trivial) fun _ _ => trivial
    have hcut : (p.run steps (.initial ⟨input, .unlimited⟩)).CutAt n
        (p.run steps (.initial ⟨input, .limited n⟩)) :=
      hcomposed.composed.flushed_cuts trivial ⟨rfl, rfl⟩ (Nat.zero_le n)
    dsimp only at h ⊢
    generalize p.run steps (.initial ⟨input, .unlimited⟩) = o at h hcut
    generalize p.run steps (.initial ⟨input, .limited n⟩) = o' at hcut
    cases hcut with
    | @done value m hfits =>
      cases h
      exact ⟨fun _ => ⟨.done value m _, rfl⟩, fun hlong => absurd hfits (Nat.not_le_of_lt hlong)⟩
    | @failed f m hfits =>
      cases h
      exact ⟨fun _ => ⟨.failed f m _, rfl⟩, fun hlong => absurd hfits (Nat.not_le_of_lt hlong)⟩
    | unfinished => cases h
    | @refused _ f k hf hrefused =>
      obtain ⟨m, hm, rfl⟩ := Option.map_eq_some_iff.1 h
      obtain ⟨hlong, hwritten⟩ := hrefused m hm
      refine ⟨fun hfits => absurd hlong (Nat.not_lt_of_le hfits), fun _ => ⟨f, k, rfl, ?_, ?_⟩⟩
      · rw [hf]
        rfl
      · exact congrArg some hwritten

/-- A run that is cut in the middle of its second line, inside of a call that is an operand. -/
theorem second_line_limited :
    let print := "int f(int n) \x7b printi(n); return n; \x7d "
    let source := print ++ "int main() \x7b return f(12) + f(345) + f(6); \x7d"
    let output := Text.Utf8.encode "12\n345\n6\n"
    (runSource 8 source ⟨⟨[]⟩, .unlimited⟩).written? = some output ∧
      ∃ f m, runSource 8 source ⟨⟨[]⟩, .limited 4⟩ = .ran (.failed f m) ∧
        f.fault.kind = .inputOutput ∧
        (runSource 8 source ⟨⟨[]⟩, .limited 4⟩).written? = some (output.take 4) := by
  intro print source output
  have hends : (runSource 8 source ⟨⟨[]⟩, .unlimited⟩).written? = some output := by
    decide +kernel
  have hlong : 4 < output.length := by decide +kernel
  exact ⟨hends, (runSource_limited source ⟨[]⟩ 8 4 hends).2 hlong⟩

end MiniC
