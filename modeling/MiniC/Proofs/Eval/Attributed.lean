import MiniC.Proofs.Eval.Balanced
import MiniC.Proofs.Eval.Composed
import MiniC.Proofs.Eval.Reachable
import MiniC.Proofs.Parse.Cited
import MiniC.Proofs.Scope.Models

/-!
# Failures point at the source

A failure inside a program is attributed to a lexeme of the source text.  The functions that can be
called are built-in or declared by the program (`Program.Reaches.knowsAll`), so whatever runs keeps
lexemes of the source text, and a failure in a built-in function gets the lexeme of its call.  Main
statement: `failure_cites_source`.
-/

namespace MiniC

/-! ## Functions that are bound -/

/-- The functions that a frame binds are known to the program. -/
def Frame.KnownTo (p : Program) (frame : Frame) : Prop :=
  ∀ name f, frame.find? name = some (.function f) → p.Knows f

/-- The functions that any frame binds are known to the program. -/
def Program.KnowsAll (p : Program) (s : Scope) : Prop := ∀ frame ∈ s.frames, frame.KnownTo p

variable {p : Program}

theorem Value.eq_function_of_setAt {w v : Value} {path : List Int64} {f : FunctionDecl}
    (hv : v.IsPlain) (h : w.setAt path v = .function f) : w = .function f := by
  cases path with
  | nil => exact absurd h (hv f)
  | cons index path =>
    unfold setAt at h
    split at h
    · cases h
    · exact h

namespace Frame

variable {frame : Frame} {name : String} {v : Value}

theorem knownTo_empty : Frame.empty.KnownTo p := fun _ _ h => by cases h

theorem KnownTo.insert (h : frame.KnownTo p)
    (hv : v.IsPlain ∨ ∃ f, v = .function f ∧ p.Knows f) : (frame.insert name v).KnownTo p := by
  intro x g hg
  rw [find?_insert] at hg
  split at hg
  · cases hg
    rcases hv with hplain | ⟨f, hf, hknown⟩
    · exact absurd rfl (hplain g)
    · cases hf
      exact hknown
  · exact h x g hg

theorem KnownTo.store (h : frame.KnownTo p) {path : List Int64} (hv : v.IsPlain) :
    (frame.modify name (·.setAt path v)).KnownTo p := by
  intro x g hg
  rw [find?_modify] at hg
  split at hg
  · obtain ⟨w, hw, hset⟩ := Option.map_eq_some_iff.1 hg
    rw [Value.eq_function_of_setAt hv hset] at hw
    exact h x g hw
  · exact h x g hg

end Frame

theorem Context.knownTo_store {c : Context} {name : String} {path : List Int64} {v : Value}
    (h : ∀ frame ∈ c, frame.KnownTo p) (hv : v.IsPlain) :
    ∀ frame ∈ c.modify name (·.setAt path v), frame.KnownTo p := by
  induction c with
  | nil => exact List.forall_mem_nil _
  | cons frame outer ih =>
    obtain ⟨hframe, houter⟩ := List.forall_mem_cons.1 h
    unfold modify
    split
    · exact List.forall_mem_cons.2 ⟨hframe.store hv, houter⟩
    · exact List.forall_mem_cons.2 ⟨hframe, ih houter⟩

theorem Scope.frames_pop_subset (s : Scope) : s.pop.frames ⊆ s.frames := by
  obtain ⟨root, current, callers⟩ := s
  unfold pop frames
  split
  · next h _ =>
    cases h
    exact List.cons_subset_cons _ (List.subset_cons_self _ _)
  · next h _ =>
    cases h
    exact List.cons_subset_cons _ (List.subset_cons_self _ _)
  · exact List.Subset.refl _

theorem Scope.frames_exitCall_subset (s : Scope) : s.exitCall.frames ⊆ s.frames := by
  obtain ⟨root, current, callers⟩ := s
  cases callers with
  | nil => exact List.Subset.refl _
  | cons caller callers => exact List.cons_subset_cons _ (List.subset_append_right _ _)

namespace Program.KnowsAll

variable {s t : Scope} {name : String} {v : Value}

theorem push (h : p.KnowsAll s) : p.KnowsAll s.push := by
  obtain ⟨hroot, hframes⟩ := List.forall_mem_cons.1 h
  exact List.forall_mem_cons.2 ⟨hroot, List.forall_mem_cons.2 ⟨Frame.knownTo_empty, hframes⟩⟩

theorem pop (h : p.KnowsAll s) : p.KnowsAll s.pop :=
  fun frame hframe => h frame (s.frames_pop_subset hframe)

theorem enterCall (h : p.KnowsAll s) : p.KnowsAll s.enterCall := by
  obtain ⟨hroot, hframes⟩ := List.forall_mem_cons.1 h
  exact List.forall_mem_cons.2 ⟨hroot, List.forall_mem_cons.2 ⟨Frame.knownTo_empty, hframes⟩⟩

theorem exitCall (h : p.KnowsAll s) : p.KnowsAll s.exitCall :=
  fun frame hframe => h frame (s.frames_exitCall_subset hframe)

theorem declare (h : p.KnowsAll s) (hv : v.IsPlain ∨ ∃ f, v = .function f ∧ p.Knows f)
    (ht : s.declare name v = .ok t) : p.KnowsAll t := by
  obtain ⟨root, current, callers⟩ := s
  obtain ⟨hroot, hframes⟩ := List.forall_mem_cons.1 h
  cases current with
  | nil =>
    simp only [Scope.declare] at ht
    split at ht
    · cases ht
    · cases ht
      exact List.forall_mem_cons.2 ⟨hroot.insert hv, hframes⟩
  | cons frame outer =>
    simp only [Scope.declare] at ht
    split at ht
    · cases ht
    · cases ht
      obtain ⟨hframe, hframes⟩ := List.forall_mem_cons.1 hframes
      exact List.forall_mem_cons.2 ⟨hroot, List.forall_mem_cons.2 ⟨hframe.insert hv, hframes⟩⟩

theorem store (h : p.KnowsAll s) {path : List Int64} (hv : v.IsPlain) :
    p.KnowsAll (s.modify name (·.setAt path v)) := by
  obtain ⟨hroot, hframes⟩ := List.forall_mem_cons.1 h
  obtain ⟨hcurrent, hcallers⟩ := List.forall_mem_append.1 hframes
  unfold Scope.modify
  split
  · refine List.forall_mem_cons.2 ⟨hroot, List.forall_mem_append.2 ⟨?_, hcallers⟩⟩
    exact Context.knownTo_store hcurrent hv
  · exact List.forall_mem_cons.2 ⟨hroot.store hv, hframes⟩

theorem find (h : p.KnowsAll s) {f : FunctionDecl} (hf : s.find? name = some (.function f)) :
    p.Knows f := by
  obtain ⟨hroot, hframes⟩ := List.forall_mem_cons.1 h
  rcases Option.or_eq_some_iff.1 hf with hcurrent | ⟨-, hf⟩
  · obtain ⟨frame, hframe, hf⟩ := List.exists_of_findSome?_eq_some hcurrent
    exact hframes frame (List.mem_append_left _ hframe) name f hf
  · exact hroot name f hf

/-- All that a well-formed scope binds to functions stands in the root frame, and stays. -/
theorem kept (h : p.KnowsAll s) (hs : s.WellFormed) (hkept : s.Kept True t) : p.KnowsAll t := by
  have hgrounds : p.Grounds [] s := ⟨hs, List.forall_mem_nil _, h _ List.mem_cons_self⟩
  have hkeptGrounds := hgrounds.kept hkept
  have hlocal : ∀ frame ∈ t.current ++ t.callers.flatten, frame.Local := by
    refine List.forall_mem_append.2 ⟨hkeptGrounds.wellFormed.current, fun frame hframe => ?_⟩
    obtain ⟨c, hc, hframe⟩ := List.mem_flatten.1 hframe
    exact hkeptGrounds.wellFormed.callers c hc frame hframe
  refine List.forall_mem_cons.2 ⟨hkeptGrounds.known, fun frame hframe name f hf => ?_⟩
  obtain ⟨leaf, dims, hshaped⟩ := hlocal frame hframe name _ hf
  exact absurd rfl (hshaped.ne_function f)

end Program.KnowsAll

/-- Programs run in scopes that bind functions they know. -/
theorem Program.invariant {src : Lexeme → Prop} (h : ∀ l ∈ p.lexemes, src l) :
    Run.Invariant p.KnowsAll p.Knows src where
  push := KnowsAll.push
  pop := KnowsAll.pop
  enterCall := KnowsAll.enterCall
  exitCall := KnowsAll.exitCall
  declare := KnowsAll.declare
  store hs hv := hs.store hv
  find hs hf := hs.find hf
  lexemes hf := hf.imp_right fun hitem l hl => h l (mem_lexemes (i := .function _) hitem hl)

/-- A jump can only stray in a function that the program declares. -/
theorem Program.Knows.declared {f : FunctionDecl} {l : Lexeme} (hf : p.Knows f)
    (hl : f.StraysAt l) : .function f ∈ p.items := by
  rcases hf with ⟨b, rfl⟩ | hitem
  · rcases hl with ⟨_, _, hbody, -⟩ | ⟨_, _, hbody, -⟩
    · cases hbody
    · cases hbody
  · exact hitem

/-- Programs fail at their own lexemes. -/
theorem Program.setting {src : Lexeme → Prop} (h : ∀ l ∈ p.lexemes, src l) :
    Run.Setting .silent p.KnowsAll p.Knows src (Failure.Within src) where
  toInvariant := p.invariant h
  unlocated _ _ := Failure.within_unlocated _
  locate := Failure.Within.locate
  stray hf hl := by
    rintro _ ⟨⟩
    exact h _ (mem_lexemes (hf.declared hl) hl.lexemes)
  call _ _ := rfl
  builtin _ _ _ := Run.inCall_silent

theorem Program.knowsAll_initial (p : Program) : p.KnowsAll Scope.initial := by
  have hgrounds := (p.models_initial).toGrounds
  exact List.forall_mem_singleton.2 hgrounds.known

/-- In every machine that a program can be found in, the functions that are bound are known. -/
theorem Program.Reaches.knowsAll {console : Console} {m : Machine}
    (hp : ∀ d, p.Declares d → d.Valued) (h : p.Reaches console m) : p.KnowsAll m.scope := by
  have hset : Run.Setting .silent p.KnowsAll p.Knows (fun _ => True) _ :=
    p.setting fun _ _ => trivial
  have heval := fun steps => (hset.evaluates steps).eval
  induction h with
  | start => exact p.knowsAll_initial
  | function _ hf _ hn ih => exact (hset.declareFunction (Or.inr hf) trivial).keeps ih hn
  | declaration _ _ hn ih =>
    exact (hset.execDeclaration (heval _) fun _ _ => trivial).keeps ih hn
  | statement _ _ hn ih => exact ((hset.evaluates _).exec _ fun _ _ => trivial).keeps ih hn
  | expression _ hn ih => exact (heval _ _ fun _ _ => trivial).keeps ih hn
  | call hm hn ih =>
    have hwf := hm.wellFormed hp
    exact ih.kept hwf (invoke_keeps _ _ _ _ _ hwf.valid hn)
  | openFrame _ ih => exact ih.push
  | closeFrame _ ih => exact ih.pop
  | @beginCall f es arguments steps m k n _ harguments hcheck hn ih =>
    have hk : p.KnowsAll k.scope := by
      have hall := Run.agrees_each fun e (_ : e ∈ es) =>
        (heval steps e fun _ _ => trivial).unlocated
      exact hall.keeps ih (by rw [harguments]; rfl)
    have hplain := FunctionDecl.isPlain_of_checkArguments hcheck
    exact (hset.bindParameters (fun _ _ => trivial) hplain).keeps hk.enterCall hn
  | endCall _ ih => exact ih.exitCall

/-! ## Lexemes of failures -/

/-- If the outcome is a failure, then it is attributed to a lexeme of the source text, which has a
place there. -/
def Outcome.Cites {α : Type} (source : String) (o : Outcome α) : Prop :=
  ∀ f n, o = .failed f n → ∃ l, f.lexeme = some l ∧ .ok l ∈ entries source.toList ∧
    l.position ≠ .nowhere

theorem Run.Agrees.cites {α : Type} {source : String} {I : Scope → Prop} {V : α → Prop}
    {r r' : Run α} {m : Machine}
    (hr : r.Agrees I (Failure.Located (Failure.Within (.ok · ∈ entries source.toList))) V r')
    (hm : I m.scope) : (r m).Cites source := by
  intro f n hf
  have hmeets := hr.composed.meets hm
  rw [hf] at hmeets
  obtain ⟨⟨hwithin, l, hl⟩, -⟩ := hmeets
  have hsource := hwithin l hl
  exact ⟨l, hl, hsource, position_ne_nowhere_of_mem_entries hsource⟩

/-- Whatever fails in a program points at its source text: in any machine that the program can be
found in, a statement, an expression, as a condition or not, a call, a declaration of a variable and
a declaration of a function fail only at a lexeme of the source text.  A source text that is no
program for an unexpected lexeme has that lexeme, or ends with it. -/
theorem failure_cites_source (source : String) :
    (∀ p, Program.ofSource source = .ok p → ∀ console m, p.Reaches console m → ∀ steps,
      (∀ s, p.Contains s → (exec steps s m).Cites source) ∧
      (∀ e, p.Mentions e →
        (eval steps e m).Cites source ∧ (evalCondition (eval steps) e m).Cites source) ∧
      (∀ c : Call, p.Mentions c.expr → (evalCall (eval steps) (invoke steps) c m).Cites source) ∧
      (∀ d, p.Declares d → (execDeclaration (eval steps) d m).Cites source) ∧
      ∀ f, .function f ∈ p.items → (declareFunction f m).Cites source) ∧
    ∀ l expected, Program.ofSource source = .error (.unexpected l expected) →
      .ok l ∈ entries source.toList ∨ l = endOf source.toList := by
  refine ⟨fun p hp console m hm steps => ?_, fun l expected => Program.ofSource_unexpected⟩
  have hlexemes : ∀ l ∈ p.lexemes, .ok l ∈ entries source.toList :=
    fun l => Program.ofSource_lexemes hp
  have hknows := hm.knowsAll fun d hd => Program.declares_valueType hp hd
  have hset := p.setting hlexemes
  obtain ⟨heval, hexec, hinvoke⟩ := hset.evaluates steps
  refine ⟨fun s hs => ?_, fun e he => ?_, fun c hc => ?_, fun d hd => ?_, fun f hf => ?_⟩
  · exact (hexec s fun l hl => hlexemes l (hs.lexemes hl)).cites hknows
  · have hmentioned : ∀ l ∈ e.lexemes, .ok l ∈ entries source.toList :=
      fun l hl => hlexemes l (he.lexemes hl)
    have hcondition := hset.evalCondition heval hmentioned
    exact ⟨(heval e hmentioned).cites hknows, hcondition.cites hknows⟩
  · exact (hset.evalCall heval hinvoke fun l hl => hlexemes l (hc.lexemes hl)).cites hknows
  · exact (hset.execDeclaration heval fun l hl => hlexemes l (hd.lexemes hl)).cites hknows
  · have hlexeme : .ok f.lexeme ∈ entries source.toList :=
      hlexemes _ (Program.mem_lexemes hf List.mem_cons_self)
    exact (hset.declareFunction (Or.inr hf) hlexeme).cites hknows

/-- A built-in function, which has no place itself, fails at its call: here a global is initialized
from an input that has ended.  And a semicolon stands where a name has to. -/
theorem input_cites_source :
    let source := "float size = inputf(); int main() \x7b return 0; \x7d"
    let start : Machine := .initial ⟨⟨[]⟩, .unlimited⟩
    (∃ p i f n l, Program.ofSource source = .ok p ∧ i ∈ p.items ∧
      declareItem 4 i start = .failed f n ∧ f.lexeme = some l ∧ .ok l ∈ entries source.toList ∧
      l.position ≠ .nowhere) ∧
    ∃ l expected, Program.ofSource "int ;" = .error (.unexpected l expected) ∧
      (.ok l ∈ entries "int ;".toList ∨ l = endOf "int ;".toList) := by
  intro source start
  constructor
  · have hends : ((Program.ofSource source).toOption.any fun p => p.items.any fun i =>
        (declareItem 4 i start).machine?.isSome && !(declareItem 4 i start).isDone) = true := by
      decide +kernel
    cases hsource : Program.ofSource source with
    | error e =>
      rw [hsource] at hends
      cases hends
    | ok p =>
      rw [hsource] at hends
      obtain ⟨i, hi, hends⟩ := List.any_eq_true.1 hends
      have hcites : (declareItem 4 i start).Cites source := by
        have hrun := (failure_cites_source source).1 p hsource _ start .start 4
        cases i with
        | function f => exact hrun.2.2.2.2 f hi
        | global d => exact hrun.2.2.2.1 d (Or.inl hi)
      cases hfailed : declareItem 4 i start with
      | done v n | unfinished =>
        rw [hfailed] at hends
        cases hends
      | failed f n =>
        obtain ⟨l, hl, hsrc, hplace⟩ := hcites f n hfailed
        exact ⟨p, i, f, n, l, rfl, hi, hfailed, hl, hsrc, hplace⟩
  · have hnone : (Program.ofSource "int ;").toOption.isNone = true := by decide +kernel
    have hstop : (Stream.ofSource "int ;").stop.toOption.isSome = true := by decide +kernel
    cases herror : Program.ofSource "int ;" with
    | ok p =>
      rw [herror] at hnone
      cases hnone
    | error e =>
      cases e with
      | lexical e =>
        rw [Program.ofSource_lexical herror] at hstop
        cases hstop
      | unexpected l expected =>
        exact ⟨l, expected, rfl, (failure_cites_source "int ;").2 l expected herror⟩

end MiniC
