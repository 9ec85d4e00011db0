import MiniC.Proofs.Eval.Watched
import MiniC.Proofs.Eval.WellFormed
import MiniC.Proofs.Run.Agreed
import MiniC.Proofs.Syntax.Jumps

/-!
# The evaluator is put together from primitive activities

Everything that the evaluator runs is composed, where functions and lexemes come from a given
program (`Run.Setting`), and the evaluator that is watched agrees with it, whatever the monitor does
about calls that are not proper.  Expressions, conditions and statements fail only at a lexeme, and
jumps come out of a statement only where they are exposed in it.  The only values that are bound are
the functions of the program and values that are no functions.  Main statements:
`Run.Setting.evaluates`, `Run.Setting.program`.
-/

namespace MiniC

/-! ## Values that are not functions -/

/-- The value is no function, so binding it makes none known. -/
def Value.IsPlain (v : Value) : Prop := ∀ f, v ≠ .function f

theorem Value.Shaped.isPlain {v : Value} {leaf : TypeName} {dims : List Nat}
    (h : v.Shaped leaf dims) : v.IsPlain := h.ne_function

theorem Value.isPlain_of_leafType? {v : Value} {type : TypeName} (h : v.leafType? = some type) :
    v.IsPlain := by
  rintro f rfl
  cases h

theorem Value.isPlain_defaultFor (type : TypeName) : (Value.defaultFor type).IsPlain := by
  intro f h
  cases type <;> cases h

/-- What a variable is declared with is no function, whatever its initial value is. -/
theorem isPlain_initialValue {d : Declaration} {dims : List (Option Nat)} {initial : Option Value}
    {v : Value} (h : initialValue d dims initial = .ok v) : v.IsPlain := by
  unfold initialValue at h
  split at h
  · exact (Value.coerce_ok h).isPlain
  · cases h
    exact Value.isPlain_defaultFor d.type
  · next w _ =>
    cases hconform : w.conform d.type dims with
    | error fault =>
      rw [hconform] at h
      cases h
    | ok lengths =>
      rw [hconform] at h
      cases h
      exact Value.isPlain_of_leafType? (Value.leafType?_of_conform hconform)
  · split at h
    · next lengths _ =>
      rw [Value.eq_nested_of_filled h]
      cases lengths with
      | nil => exact Value.isPlain_defaultFor d.type
      | cons length lengths => exact fun f hf => by cases hf
    · cases h

theorem Parameter.isPlain_of_accepts {p : Parameter} {v : Value} (h : p.accepts v = true) :
    v.IsPlain := by
  rintro f rfl
  unfold Parameter.accepts at h
  split at h
  · cases h
  · simp [Value.isArray, Value.isScalar] at h

/-- Arguments that fit are no functions. -/
theorem FunctionDecl.isPlain_of_checkArguments {f : FunctionDecl} {arguments : List Value}
    (h : f.checkArguments arguments = .ok ()) : ∀ b ∈ f.parameters.zip arguments, b.2.IsPlain :=
  fun _ hb => Parameter.isPlain_of_accepts
    ((List.forall₂_iff_zip.1 (checkArguments_ok_iff.1 h)).2 hb)

/-- The entry point takes no arguments. -/
theorem checkArguments_entryPoint {s : Scope} {main : FunctionDecl} (h : entryPoint s = .ok main) :
    main.checkArguments [] = .ok () := by
  rw [FunctionDecl.checkArguments_ok_iff, (entryPoint_ok h).2]
  exact .nil

/-- What the entry point can return is an int. -/
theorem eq_int_of_entryPoint {s : Scope} {main : FunctionDecl} {v : Value}
    (h : entryPoint s = .ok main) (hv : v.HasType main.resultType) : ∃ n, v = .int n := by
  unfold FunctionDecl.resultType at hv
  rw [entryPoint_returns h] at hv
  obtain ⟨shape, hshape, hshaped⟩ := hv
  rw [List.length_eq_zero_iff.1 hshape] at hshaped
  exact Value.eq_int_of_shaped hshaped

namespace Run

/-- What is relied on about scopes: `I` is an invariant, `known` holds of all functions that can be
called, and `src` of the lexemes of those that are not built-in. -/
structure Invariant (I : Scope → Prop) (known : FunctionDecl → Prop) (src : Lexeme → Prop) :
    Prop where
  push : ∀ {s}, I s → I s.push
  pop : ∀ {s}, I s → I s.pop
  enterCall : ∀ {s}, I s → I s.enterCall
  exitCall : ∀ {s}, I s → I s.exitCall
  declare : ∀ {s t name v}, I s → (v.IsPlain ∨ ∃ f, v = .function f ∧ known f) →
    s.declare name v = .ok t → I t
  store : ∀ {s name path v}, I s → v.IsPlain → I (s.modify name (·.setAt path v))
  find : ∀ {s name f}, I s → s.find? name = some (.function f) → known f
  lexemes : ∀ {f}, known f → (∃ b : Builtin, f = b.declaration) ∨ ∀ l ∈ f.lexemes, src l

/-- What is relied on besides while programs run: `F` holds of all failures, and the monitor lets
calls of known functions with arguments that fit pass. -/
structure Setting (w : Monitor) (I : Scope → Prop) (known : FunctionDecl → Prop)
    (src : Lexeme → Prop) (F : Failure → Prop) : Prop extends Invariant I known src where
  unlocated : ∀ {fault : Fault}, fault.kind ≠ .jumpWithoutLoop → fault.kind ≠ .invalidMain →
    F (.unlocated fault)
  locate : ∀ {f l}, F f → src l → F (f.locate l)
  stray : ∀ {f l}, known f → f.StraysAt l → F ⟨.strayJump, some l⟩
  call : ∀ {f arguments}, f.checkArguments arguments = .ok () → ∀ r, w.call f arguments r = r
  builtin : ∀ {f b arguments}, known f → f.body = .builtin b →
    f.checkArguments arguments = .ok () → ∀ exec,
      Run.inCall (bodyWith exec w.runBuiltin f arguments) =
        Run.inCall (bodyWith exec Builtin.run f arguments)

namespace Setting

variable {α β : Type} {w : Monitor} {I : Scope → Prop} {known : FunctionDecl → Prop}
  {src : Lexeme → Prop} {F G : Failure → Prop} {V : α → Prop} {r r' : Run α}

/-! ## Parts of statements -/

section

variable (hset : Setting w I known src F)

include hset

/-- A fault of a computation on values is accounted for. -/
theorem of_isComputed {fault : Fault} (h : fault.kind.isComputed = true) :
    F (.unlocated fault) := by
  refine hset.unlocated ?_ ?_
  · intro hkind
    rw [hkind] at h
    cases h
  · intro hkind
    rw [hkind] at h
    cases h

theorem composed_resolved {e : Except Fault α} (h : Resolved e) :
    (lift e).Composed I F (e = .ok ·) :=
  composed_lift fun _ he => hset.of_isComputed (h.isComputed he)

theorem agrees_resolved {e : Except Fault α} (h : Resolved e) :
    (lift e).Agrees I F anything (lift e) :=
  (hset.composed_resolved h).agrees.ignore

theorem agrees_fail {fault : Fault} (h : fault.kind.isComputed = true) :
    (fail fault : Run α).Agrees I F V (fail fault) :=
  Composed.agrees (.failWith (hset.of_isComputed h))

theorem agrees_lookup (name : String) :
    (lookup name).Agrees I F (fun v => ∃ s, I s ∧ s.find? name = some v) (lookup name) := by
  have hundeclared : F (.unlocated (.undeclared name)) := hset.unlocated nofun nofun
  exact (composed_lookup name hundeclared).agrees

/-- A lexeme of the program is attached. -/
theorem located {l : Lexeme} (hl : src l) (hr : r.Agrees I F V r') :
    (Run.locate l r).Agrees I (Failure.Located F) V (Run.locate l r') :=
  hr.locate fun _ hf => hset.locate hf hl

theorem inFrame (hr : r.Agrees I G V r') : (Run.inFrame r).Agrees I G V (Run.inFrame r') := by
  have hpush : (modifyScope Scope.push).Composed I G anything :=
    .modifyScope (fun _ => hset.push) trivial
  exact hpush.agrees.bind fun _ _ => hr.afterwards fun _ => hset.pop

theorem inCall (hr : r.Agrees I G V r') : (Run.inCall r).Agrees I G V (Run.inCall r') := by
  have henter : (modifyScope Scope.enterCall).Composed I G anything :=
    .modifyScope (fun _ => hset.enterCall) trivial
  exact henter.agrees.bind fun _ _ => hr.afterwards fun _ => hset.exitCall

/-- What is declared is known or no function, and its name may be taken. -/
theorem agrees_declare {name : String} {v : Value}
    (hv : v.IsPlain ∨ ∃ f, v = .function f ∧ known f) :
    (changeScope (·.declare name v)).Agrees I F anything (changeScope (·.declare name v)) := by
  have hfault : ∀ (s : Scope) (fault : Fault), s.declare name v = .error fault →
      F (.unlocated fault) := by
    intro s fault h
    have hredeclared : fault = .redeclared name := by
      unfold Scope.declare at h
      split at h <;> split at h <;> cases h <;> rfl
    rw [hredeclared]
    exact hset.unlocated nofun nofun
  exact (composed_changeScope (fun s t hs ht => hset.toInvariant.declare hs hv ht) hfault).agrees

end

/-- Indices or dimensions, each evaluated in the same way. -/
theorem agrees_each_option {f f' : Option Expr → Run β}
    (hf : ∀ i, (∀ l ∈ Expr.lexemesOption i, src l) → (f i).Agrees I F anything (f' i))
    {indices : List (Option Expr)} (h : ∀ l ∈ Expr.lexemesIndices indices, src l) :
    (Run.each f indices).Agrees I F anything (Run.each f' indices) := by
  refine agrees_each fun i hi => hf i fun l hl => ?_
  cases i with
  | none => cases hl
  | some e => exact h l (Expr.mem_lexemesIndices hi hl)

section Parts

variable {eval eval' : Expr → Run Value} (hset : Setting w I known src F)
  (heval : ∀ e, (∀ l ∈ e.lexemes, src l) →
    (eval e).Agrees I (Failure.Located F) anything (eval' e))

include heval

theorem evalOption {e : Option Expr} (he : ∀ l ∈ Expr.lexemesOption e, src l) :
    (evalOption eval e).Agrees I (Failure.Located F) anything (evalOption eval' e) := by
  cases e with
  | none => exact agrees_pure trivial
  | some e => exact (heval e he).bind fun v _ => agrees_pure trivial

include hset

theorem evalCondition {e : Expr} (he : ∀ l ∈ e.lexemes, src l) :
    (evalCondition eval e).Agrees I (Failure.Located F) anything (evalCondition eval' e) :=
  (heval e he).bind fun v _ =>
    hset.located (he _ e.lexeme_mem_lexemes) (hset.agrees_resolved v.resolved_truth)

theorem evalIndex {i : Option Expr} (hi : ∀ l ∈ Expr.lexemesOption i, src l) :
    (evalIndex eval i).Agrees I F anything (evalIndex eval' i) := by
  cases i with
  | none => exact hset.agrees_fail rfl
  | some e =>
    refine (heval e hi).unlocated.bind fun v _ => Agrees.unlocated ?_
    exact hset.located (hi _ e.lexeme_mem_lexemes) (hset.agrees_resolved (v.resolved_toInt _))

theorem evalDimension {d : Option Expr} (hd : ∀ l ∈ Expr.lexemesOption d, src l) :
    (evalDimension eval d).Agrees I F anything (evalDimension eval' d) := by
  cases d with
  | none => exact agrees_pure trivial
  | some e =>
    have hlexeme := hd _ e.lexeme_mem_lexemes
    have hint : ∀ v : Value, (Run.locate e.lexeme (lift (v.toInt "array dimension"))).Agrees I F
        anything (Run.locate e.lexeme (lift (v.toInt "array dimension"))) := fun v =>
      (hset.located hlexeme (hset.agrees_resolved (v.resolved_toInt _))).unlocated
    refine (heval e hd).unlocated.bind fun v _ => (hint v).bind fun n _ => ?_
    cases dimension? n with
    | some length => exact agrees_pure trivial
    | none =>
      have hfault : F (.unlocated (.dimensionNotPositive n)) := hset.of_isComputed rfl
      exact Composed.agrees (.failWith (hset.locate hfault hlexeme))

theorem evalPlace {name : String} {indices : List (Option Expr)}
    (h : ∀ l ∈ Expr.lexemesIndices indices, src l) :
    (evalPlace eval name indices).Agrees I F anything (evalPlace eval' name indices) := by
  refine (agrees_each_option (fun i => evalIndex hset heval) h).bind fun path _ => ?_
  refine (hset.agrees_lookup name).bind fun v _ => ?_
  exact hset.agrees_resolved (v.resolved_atPath path)

theorem execDeclaration {d : Declaration} (hd : ∀ l ∈ d.lexemes, src l) :
    (execDeclaration eval d).Agrees I (Failure.Located F) anything (execDeclaration eval' d) := by
  obtain ⟨htarget, hinitial⟩ := List.forall_mem_append.1 hd
  obtain ⟨hlexeme, hindices⟩ := List.forall_mem_cons.1 htarget
  refine hset.located hlexeme ?_
  refine (agrees_each_option (fun i => evalDimension hset heval) hindices).bind fun dims _ => ?_
  refine (evalOption heval hinitial).unlocated.bind fun initial _ => ?_
  have hvalue := resolved_initialValue d dims initial
  refine (hset.composed_resolved hvalue).agrees.bind fun v hv => ?_
  exact hset.agrees_declare (Or.inl (isPlain_initialValue hv))

theorem execAssignment {target : Place} {op : AssignOp} {value : Expr}
    (htarget : ∀ l ∈ target.lexemes, src l) (hvalue : ∀ l ∈ value.lexemes, src l) :
    (execAssignment eval target op value).Agrees I F anything
      (execAssignment eval' target op value) := by
  obtain ⟨hlexeme, hindices⟩ := List.forall_mem_cons.1 htarget
  rw [execAssignment_eq, execAssignment_eq]
  refine (heval value hvalue).unlocated.bind fun new _ => ?_
  refine (agrees_each_option (fun i => evalIndex hset heval) hindices).bind fun path _ => ?_
  have hread : (lookup target.name >>= fun v => lift (v.atPath path)).Agrees I F anything
      (lookup target.name >>= fun v => lift (v.atPath path)) :=
    (hset.agrees_lookup target.name).bind fun v _ => hset.agrees_resolved (v.resolved_atPath path)
  refine (hset.located hlexeme hread).unlocated.bind fun current _ => ?_
  have hassigned := Value.resolved_assigned current op new
  refine (hset.composed_resolved hassigned).agrees.bind fun updated hupdated => ?_
  obtain ⟨type, -, hshaped⟩ := Value.assigned_ok hupdated
  exact Composed.agrees (.modifyScope (fun _ hs => hset.store hs hshaped.isPlain) trivial)

variable {invoke invoke' : FunctionDecl → List Value → Run Value}
  (hinvoke : ∀ f arguments, known f → f.checkArguments arguments = .ok () →
    (invoke f arguments).Agrees I F (·.HasType f.resultType) (invoke' f arguments))

include hinvoke

/-- Only known functions are called, and with arguments that fit. -/
theorem evalCall {c : Call} (hc : ∀ l ∈ c.lexemes, src l) :
    (evalCall eval invoke c).Agrees I (Failure.Located F) anything (evalCall eval' invoke' c) := by
  obtain ⟨hlexeme, harguments⟩ := List.forall_mem_cons.1 hc
  refine hset.located hlexeme ((hset.agrees_lookup c.name).bind fun v hv => ?_)
  cases v with
  | int _ | float _ | string _ | array _ | void => exact hset.agrees_fail rfl
  | function f =>
    obtain ⟨s, hs, hfind⟩ := hv
    have hall : ∀ e ∈ c.arguments, (eval e).Agrees I F anything (eval' e) :=
      fun e he => (heval e fun l hl => harguments l (Expr.mem_lexemesAll he hl)).unlocated
    refine (agrees_each hall).bind fun arguments _ => ?_
    have hcheck := f.resolved_checkArguments arguments
    refine (hset.composed_resolved hcheck).agrees.bind fun _ hchecked => ?_
    exact (hinvoke f arguments (hset.find hs hfind) hchecked).ignore

theorem execSimple {s : SimpleStatement} (hs : ∀ l ∈ s.lexemes, src l) :
    (execSimple eval invoke s).Agrees I (Failure.Located F) anything
      (execSimple eval' invoke' s) := by
  cases s with
  | declaration d => exact execDeclaration hset heval hs
  | assignment target op value l =>
    obtain ⟨hlexeme, hrest⟩ := List.forall_mem_cons.1 hs
    obtain ⟨htarget, hvalue⟩ := List.forall_mem_append.1 hrest
    exact hset.located hlexeme (execAssignment hset heval htarget hvalue)
  | call c => exact (evalCall hset heval hinvoke hs).bind fun _ _ => agrees_pure trivial

theorem execOptional {s : Option SimpleStatement}
    (hs : ∀ l ∈ SimpleStatement.lexemesOption s, src l) :
    (execOptional eval invoke s).Agrees I (Failure.Located F) anything
      (execOptional eval' invoke' s) := by
  cases s with
  | none => exact agrees_pure trivial
  | some s => exact execSimple hset heval hinvoke hs

theorem evalWith {e : Expr} (he : ∀ l ∈ e.lexemes, src l) :
    (evalWith eval invoke e).Agrees I (Failure.Located F) anything (evalWith eval' invoke' e) := by
  refine hset.located (he _ e.lexeme_mem_lexemes) ?_
  cases e with
  | literal v l => exact agrees_pure trivial
  | list elements l =>
    obtain ⟨-, helements⟩ := List.forall_mem_cons.1 he
    have hall : ∀ e ∈ elements, (eval e).Agrees I F anything (eval' e) :=
      fun e he => (heval e fun l hl => helements l (Expr.mem_lexemesAll he hl)).unlocated
    exact (agrees_each hall).bind fun vs _ => hset.agrees_resolved (Value.resolved_ofElements vs)
  | «variable» name indices l => exact evalPlace hset heval (List.forall_mem_cons.1 he).2
  | unary op operand l =>
    exact (heval operand (List.forall_mem_cons.1 he).2).unlocated.bind fun v _ =>
      hset.agrees_resolved (Value.resolved_unary op v)
  | cast target operand l =>
    exact (heval operand (List.forall_mem_cons.1 he).2).unlocated.bind fun v _ =>
      hset.agrees_resolved (Value.resolved_cast target v)
  | binary op left right l =>
    obtain ⟨hleft, hright⟩ := List.forall_mem_append.1 (List.forall_mem_cons.1 he).2
    refine (heval left hleft).unlocated.bind fun v _ => ?_
    exact (heval right hright).unlocated.bind fun w _ =>
      hset.agrees_resolved (Value.resolved_binary op v w)
  | call name arguments l =>
    have hcall : ∀ x ∈ Call.lexemes ⟨name, arguments, l⟩, src x := he
    exact (evalCall hset heval hinvoke hcall).unlocated

variable {exec exec' : Statement → Run Flow}
  (hexec : ∀ s : Statement, (∀ l ∈ s.lexemes, src l) →
    (exec s).Agrees I (Failure.Located F) (Flow.Jumps (·.Exposed s)) (exec' s))

include hexec

/-- A statement jumps where a jump is exposed in it, and loops leave none. -/
theorem execWith (rounds : Nat) {s : Statement} (hs : ∀ l ∈ s.lexemes, src l) :
    (execWith eval exec invoke rounds s).Agrees I (Failure.Located F) (Flow.Jumps (·.Exposed s))
      (execWith eval' exec' invoke' rounds s) := by
  cases s with
  | empty => exact agrees_pure trivial
  | simple s => exact (execSimple hset heval hinvoke hs).bind fun _ _ => agrees_pure trivial
  | block body l =>
    obtain ⟨-, hbody⟩ := List.forall_mem_cons.1 hs
    refine hset.inFrame (agrees_inSequence fun t ht => ?_)
    have ht' := hexec t fun l hl => hbody l (Statement.mem_lexemesAll ht hl)
    exact ht'.mono (fun _ => id) fun flow hflow => hflow.mono fun _ => .block ht
  | ifElse branches otherwise l =>
    obtain ⟨hbranches, hotherwise⟩ := List.forall_mem_append.1 (List.forall_mem_cons.1 hs).2
    have hbranch : ∀ b ∈ branches, ∀ l ∈ b.1.lexemes ++ b.2.lexemes, src l :=
      fun b hb l hl => hbranches l (Statement.mem_lexemesBranches hb hl)
    have htest : ∀ b ∈ branches, (MiniC.evalCondition eval b.1).Agrees I (Failure.Located F)
        anything (MiniC.evalCondition eval' b.1) :=
      fun b hb => evalCondition hset heval (List.forall_mem_append.1 (hbranch b hb)).1
    refine (agrees_selectBranch htest).bind fun selected hselected => ?_
    cases selected with
    | none => exact agrees_pure trivial
    | some t =>
      refine hset.inFrame ?_
      rcases hselected t rfl with ⟨c, hc⟩ | rfl
      · have ht := hexec t (List.forall_mem_append.1 (hbranch _ hc)).2
        exact ht.mono (fun _ => id) fun flow hflow => hflow.mono fun _ => .branch hc
      · exact (hexec t hotherwise).mono (fun _ => id) fun flow hflow =>
          hflow.mono fun _ => .otherwise
  | forLoop first c step body l =>
    obtain ⟨hheader, hbody⟩ := List.forall_mem_append.1 (List.forall_mem_cons.1 hs).2
    obtain ⟨hheader, hstep⟩ := List.forall_mem_append.1 hheader
    obtain ⟨hfirst, hc⟩ := List.forall_mem_append.1 hheader
    refine hset.inFrame ((execOptional hset heval hinvoke hfirst).bind fun _ _ => ?_)
    exact agrees_whileLoop (evalCondition hset heval hc) (hset.inFrame (hexec body hbody))
      (execOptional hset heval hinvoke hstep) rounds
  | whileLoop c body l =>
    obtain ⟨hc, hbody⟩ := List.forall_mem_append.1 (List.forall_mem_cons.1 hs).2
    exact agrees_whileLoop (evalCondition hset heval hc) (hset.inFrame (hexec body hbody))
      (agrees_pure trivial) rounds
  | doWhile body c l =>
    obtain ⟨hc, hbody⟩ := List.forall_mem_append.1 (List.forall_mem_cons.1 hs).2
    exact agrees_doWhile (evalCondition hset heval hc) (hset.inFrame (hexec body hbody)) rounds
  | breakLoop l | continueLoop l => exact agrees_pure (.refl _)
  | returnValue value l =>
    cases value with
    | none => exact agrees_pure trivial
    | some e =>
      exact (heval e (List.forall_mem_cons.1 hs).2).bind fun v _ => agrees_pure trivial

end Parts

/-! ## Calls -/

section Calls

variable (hset : Setting w I known src F)

include hset

theorem bindParameters {bindings : List (Parameter × Value)}
    (hlexemes : ∀ b ∈ bindings, src b.1.lexeme) (hplain : ∀ b ∈ bindings, b.2.IsPlain) :
    (bindParameters bindings).Agrees I (Failure.Located F) anything (bindParameters bindings) := by
  induction bindings with
  | nil => exact agrees_pure trivial
  | cons b rest ih =>
    obtain ⟨hlexeme, hlexemes⟩ := List.forall_mem_cons.1 hlexemes
    obtain ⟨hb, hplain⟩ := List.forall_mem_cons.1 hplain
    exact (hset.located hlexeme (hset.agrees_declare (Or.inl hb))).bind fun _ _ =>
      ih hlexemes hplain

theorem builtinRun {jumps : Statement → Prop} (b : Builtin) :
    b.run.Composed I F (Flow.Jumps jumps) := by
  have hprint : ∀ text, (Builtin.printParameter text).Composed I F (Flow.Jumps jumps) := by
    intro text
    refine (hset.agrees_lookup _).composed.bind fun v _ => ?_
    exact Composed.bind (V := anything)
      (.writeLine (fun sink _ he =>
        hset.of_isComputed ((sink.resolved_writeLine (text v)).isComputed he)) trivial)
      fun _ _ => .pure trivial
  have hreturn : ∀ {α : Type} (toValue : α → Value) {reader : Source → Except Fault α × Source},
      (∀ input, Resolved (reader input).1) →
      (Builtin.returning toValue (read reader)).Composed I F (Flow.Jumps jumps) :=
    fun toValue _ hreader => Composed.bind (V := anything)
      (.read (fun input _ he => hset.of_isComputed ((hreader input).isComputed he))
        fun _ => trivial) fun _ _ => .pure trivial
  cases b with
  | printi | printf | printl | prints => exact hprint _
  | inputi | inputf => exact hreturn _ (Builtin.resolved_readAs _ fun _ => rfl)
  | inputs => exact hreturn _ Source.resolved_readWord
  | inputline => exact hreturn _ Source.resolved_readLine

/-- The parameters of a function of the program are bound. -/
theorem bindArguments {f : FunctionDecl} (hf : ∀ l ∈ f.lexemes, src l) {arguments : List Value}
    (hplain : ∀ a ∈ f.parameters.zip arguments, a.2.IsPlain) :
    (MiniC.bindParameters (f.parameters.zip arguments)).Agrees I (Failure.Located F) anything
      (MiniC.bindParameters (f.parameters.zip arguments)) := by
  obtain ⟨hparameters, -⟩ := List.forall_mem_append.1 (List.forall_mem_cons.1 hf).2
  refine hset.bindParameters (fun b hb => ?_) hplain
  exact hparameters _ (List.mem_map_of_mem (List.of_mem_zip hb).1)

/-- The parameter of a built-in function, which is no place in the program, is bound in a frame of
its own, where nothing is bound yet. -/
theorem inCall_builtinRun {jumps : Statement → Prop} (b : Builtin) {arguments : List Value}
    (hplain : ∀ a ∈ b.declaration.parameters.zip arguments, a.2.IsPlain) :
    (Run.inCall (MiniC.bindParameters (b.declaration.parameters.zip arguments) >>=
      fun _ => b.run)).Composed I F (Flow.Jumps jumps) := by
  have hlength : (b.declaration.parameters.zip arguments).length ≤ 1 := by
    rw [List.length_zip]
    refine Nat.le_trans (Nat.min_le_left _ _) ?_
    cases b <;> decide
  have hrun : b.run.Composed I F (Flow.Jumps jumps) := hset.builtinRun b
  generalize b.declaration.parameters.zip arguments = bindings at hplain hlength
  cases bindings with
  | nil => exact (hset.inCall hrun.agrees).composed
  | cons binding rest =>
    obtain ⟨p, v⟩ := binding
    have hrest : rest.length ≤ 0 := Nat.le_of_succ_le_succ hlength
    obtain rfl : rest = [] := List.length_eq_zero_iff.1 (Nat.le_zero.1 hrest)
    let enter (s : Scope) : Scope :=
      { s.enterCall with current := [Frame.empty.insert p.name v] }
    have henter : ∀ s, I s → I (enter s) := fun s hs =>
      hset.declare (hset.enterCall hs) (Or.inl (hplain _ List.mem_cons_self)) rfl
    have hcall : Run.inCall (MiniC.bindParameters [(p, v)] >>= fun _ => b.run) =
        modifyScope enter >>= fun _ => afterwards b.run Scope.exitCall := rfl
    rw [hcall]
    exact Composed.bind (V := anything) (.modifyScope henter trivial) fun _ _ =>
      .afterwards hrun fun _ => hset.exitCall

theorem inCall_builtin {jumps : Statement → Prop} (exec : Statement → Run Flow)
    {f : FunctionDecl} {b : Builtin} (hf : known f) (hbody : f.body = .builtin b)
    {arguments : List Value} (hplain : ∀ a ∈ f.parameters.zip arguments, a.2.IsPlain) :
    (Run.inCall (bodyWith exec Builtin.run f arguments)).Composed I F (Flow.Jumps jumps) := by
  unfold bodyWith
  rw [hbody]
  rcases hset.lexemes hf with ⟨_, rfl⟩ | hlexemes
  · cases hbody
    exact hset.inCall_builtinRun b hplain
  · have hbind := (hset.bindArguments hlexemes hplain).unlocated
    have hrun : b.run.Composed I F (Flow.Jumps jumps) := hset.builtinRun b
    exact (hset.inCall (hbind.bind fun _ _ => hrun.agrees)).composed

theorem resultOf {f : FunctionDecl} (hf : known f) {flow : Flow} (h : flow.Jumps f.Exposes) :
    (resultOf flow).Agrees I (Failure.Located F) anything (resultOf flow) := by
  cases flow with
  | normal => exact agrees_pure trivial
  | broke l => exact Composed.agrees (.failWith ⟨hset.stray hf (Or.inl h), l, rfl⟩)
  | continued l => exact Composed.agrees (.failWith ⟨hset.stray hf (Or.inr h), l, rfl⟩)
  | returned v l => exact agrees_pure trivial

variable {exec exec' : Statement → Run Flow}
  (hexec : ∀ s : Statement, (∀ l ∈ s.lexemes, src l) →
    (exec s).Agrees I (Failure.Located F) (Flow.Jumps (·.Exposed s)) (exec' s))

include hexec

/-- The body of a function of the program fails at a lexeme, and jumps where a jump is exposed. -/
theorem inCall_block {f : FunctionDecl} {body : List Statement} {brace : Lexeme}
    (hf : ∀ l ∈ f.lexemes, src l) (hbody : f.body = .block body brace) {arguments : List Value}
    (hplain : ∀ a ∈ f.parameters.zip arguments, a.2.IsPlain)
    (builtin builtin' : Builtin → Run Flow) :
    (Run.inCall (bodyWith exec builtin f arguments)).Agrees I (Failure.Located F)
      (Flow.Jumps f.Exposes) (Run.inCall (bodyWith exec' builtin' f arguments)) := by
  obtain ⟨-, hlexemes⟩ := List.forall_mem_append.1 (List.forall_mem_cons.1 hf).2
  rw [hbody] at hlexemes
  refine hset.inCall ((hset.bindArguments hf hplain).bind fun _ _ => ?_)
  rw [hbody]
  refine hset.inFrame (agrees_inSequence fun s hs => ?_)
  have hs' := hexec s fun l hl =>
    (List.forall_mem_cons.1 hlexemes).2 l (Statement.mem_lexemesAll hs hl)
  exact hs'.mono (fun _ => id) fun flow hflow =>
    hflow.mono fun _ hjump => ⟨body, brace, hbody, s, hs, hjump⟩

theorem invokeWith {f : FunctionDecl} {arguments : List Value} (hf : known f)
    (hcheck : f.checkArguments arguments = .ok ()) :
    (invokeWith exec Builtin.run f arguments).Agrees I F (·.HasType f.resultType)
      (invokeWith exec' w.runBuiltin f arguments) := by
  have hplain := FunctionDecl.isPlain_of_checkArguments hcheck
  have hbody : (Run.inCall (bodyWith exec Builtin.run f arguments)).Agrees I F
      (Flow.Jumps f.Exposes) (Run.inCall (bodyWith exec' w.runBuiltin f arguments)) := by
    cases hshape : f.body with
    | block body brace =>
      rcases hset.lexemes hf with ⟨b, rfl⟩ | hlexemes
      · cases hshape
      · exact (hset.inCall_block hexec hlexemes hshape hplain _ _).unlocated
    | builtin b =>
      have hsame :
          bodyWith exec' Builtin.run f arguments = bodyWith exec Builtin.run f arguments := by
        unfold bodyWith
        rw [hshape]
      rw [hset.builtin hf hshape hcheck exec', hsame]
      exact (hset.inCall_builtin exec hf hshape hplain).agrees
  refine hbody.bind fun flow hflow => (hset.resultOf hf hflow).unlocated.bind fun v _ => ?_
  exact ((hset.composed_resolved (f.resolved_checkResult v)).mono (fun _ => id)
    fun _ => FunctionDecl.checkResult_ok).agrees

end Calls

/-! ## The evaluator -/

/-- Under a number of steps the evaluator that is watched agrees with the evaluator: about
expressions and statements of the program, and about calls of known functions with arguments that
fit. -/
structure Evaluates (w : Monitor) (I : Scope → Prop) (known : FunctionDecl → Prop)
    (src : Lexeme → Prop) (F : Failure → Prop) (steps : Nat) : Prop where
  eval : ∀ e, (∀ l ∈ e.lexemes, src l) →
    (eval steps e).Agrees I (Failure.Located F) anything (w.eval steps e)
  exec : ∀ s : Statement, (∀ l ∈ s.lexemes, src l) →
    (exec steps s).Agrees I (Failure.Located F) (Flow.Jumps (·.Exposed s)) (w.exec steps s)
  invoke : ∀ f arguments, known f → f.checkArguments arguments = .ok () →
    (invoke steps f arguments).Agrees I F (·.HasType f.resultType) (w.invoke steps f arguments)

theorem evaluates (hset : Setting w I known src F) (steps : Nat) :
    Evaluates w I known src F steps := by
  induction steps with
  | zero =>
    refine ⟨fun e _ => ?_, fun s _ => ?_, fun f arguments _ hcheck => ?_⟩
    · unfold MiniC.eval Monitor.eval
      exact agrees_unfinished
    · unfold MiniC.exec Monitor.exec
      exact agrees_unfinished
    · unfold MiniC.invoke Monitor.invoke
      rw [hset.call hcheck]
      exact agrees_unfinished
  | succ steps ih =>
    obtain ⟨heval, hexec, hinvoke⟩ := ih
    refine ⟨fun e he => ?_, fun s hs => ?_, fun f arguments hf hcheck => ?_⟩
    · rw [eval_step]
      unfold Monitor.eval
      exact hset.evalWith heval hinvoke he
    · rw [exec_step]
      unfold Monitor.exec
      exact hset.execWith heval hinvoke hexec steps hs
    · rw [invoke_step]
      unfold Monitor.invoke
      rw [hset.call hcheck]
      exact hset.invokeWith hexec hf hcheck

/-! ## Programs -/

section Programs

variable (hset : Setting w I known src F)

include hset

theorem declareFunction {f : FunctionDecl} (hf : known f) (hl : src f.lexeme) :
    (declareFunction f).Agrees I (Failure.Located F) anything (declareFunction f) := by
  have harray : F (.unlocated (.returnsArray f.name)) := hset.unlocated nofun nofun
  have hbuiltin : F (.unlocated (.namesBuiltin f.name)) := hset.unlocated nofun nofun
  refine hset.located hl ?_
  split
  · exact Composed.agrees (.failWith harray)
  · split
    · exact Composed.agrees (.failWith hbuiltin)
    · exact hset.agrees_declare (Or.inr ⟨f, rfl, hf⟩)

theorem declareItemsWith (steps : Nat) {items : List Item}
    (hknown : ∀ f, .function f ∈ items → known f) (hitems : ∀ i ∈ items, ∀ l ∈ i.lexemes, src l) :
    (declareItemsWith (MiniC.eval steps) items).Agrees I (Failure.Located F) anything
      (declareItemsWith (w.eval steps) items) := by
  have heval := (hset.evaluates steps).eval
  induction items with
  | nil => exact agrees_pure trivial
  | cons i rest ih =>
    obtain ⟨hi, hrest⟩ := List.forall_mem_cons.1 hitems
    have hrest' := ih (fun f hf => hknown f (List.mem_cons_of_mem _ hf)) hrest
    cases i with
    | function f =>
      exact (hset.declareFunction (hknown f List.mem_cons_self) (hi _ List.mem_cons_self)).bind
        fun _ _ => hrest'
    | global d => exact (hset.execDeclaration heval hi).bind fun _ _ => hrest'

/-- `main` returns an int, so a call of it fails where its body does or for the entry point. -/
theorem callMainWith (steps : Nat) :
    (callMainWith (MiniC.invoke steps)).Agrees I
      (fun f => F f ∨ ∃ s, entryPoint s = .error f) anything
      (MiniC.callMainWith (w.invoke steps)) := by
  have hentry : (inspect entryPoint).Composed I (fun f => F f ∨ ∃ s, entryPoint s = .error f)
      fun e => ∃ s, I s ∧ entryPoint s = e :=
    .inspect fun s hs => ⟨s, hs, rfl⟩
  rw [callMainWith_eq, callMainWith_eq]
  refine hentry.agrees.bind fun e ⟨s, hs, he⟩ => ?_
  cases e with
  | error f => exact Composed.agrees (.failWith (Or.inr ⟨s, he⟩))
  | ok main =>
    have hknown := hset.find hs (entryPoint_ok he).1
    have hinvoke := (hset.evaluates steps).invoke main [] hknown (checkArguments_entryPoint he)
    refine (hinvoke.mono (fun _ => Or.inl) fun _ => id).bind fun v hv => ?_
    obtain ⟨n, rfl⟩ := eq_int_of_entryPoint he hv
    exact agrees_pure trivial

/-- What a program runs before it flushes its output. -/
theorem program (steps : Nat) {p : Program} (hknown : ∀ f, .function f ∈ p.items → known f)
    (hp : ∀ l ∈ p.lexemes, src l) :
    (MiniC.declareItems steps p.items >>= fun _ => MiniC.callMain steps).Agrees I
      (fun f => F f ∨ ∃ s, entryPoint s = .error f) anything
      (MiniC.declareItemsWith (w.eval steps) p.items >>= fun _ =>
        MiniC.callMainWith (w.invoke steps)) := by
  have hitems := hset.declareItemsWith steps hknown fun i hi l hl =>
    hp l (Program.mem_lexemes hi hl)
  simp only [declareItems_eq, callMain_eq]
  exact (hitems.mono (fun _ hf => Or.inl hf.1) fun _ => id).bind fun _ _ =>
    hset.callMainWith steps

variable {p : Program} (hknown : ∀ f, .function f ∈ p.items → known f)
  (hp : ∀ l ∈ p.lexemes, src l) {m n : Machine} (hm : I m.scope)

include hknown hp hm

/-- A program fails as it is accounted for, or has no entry point. -/
theorem run_failed {steps : Nat} {f : Failure} (h : p.run steps m = .failed f n) :
    F f ∨ ∃ s, entryPoint s = .error f := by
  rcases flushed_failed h with h | ⟨value, fault, -, hflush, rfl⟩
  · have hmeets := (hset.program steps hknown hp).composed.meets hm
    rw [h] at hmeets
    exact hmeets.1
  · exact Or.inl (hset.of_isComputed ((Sink.resolved_flush _).isComputed hflush))

/-- A monitor that lets proper calls pass changes nothing. -/
theorem run_same (steps : Nat) : w.run steps p m = p.run steps m := by
  have hsame := (hset.program steps hknown hp).same m hm
  show Run.flushed _ m = Run.flushed _ m
  unfold Run.flushed
  rw [hsame]

end Programs

end Setting

/-! ## A setting for every program -/

/-- A monitor that leaves everything alone lets calls pass. -/
theorem inCall_silent {f : FunctionDecl} {arguments : List Value} (exec : Statement → Run Flow) :
    Run.inCall (bodyWith exec Monitor.silent.runBuiltin f arguments) =
      Run.inCall (bodyWith exec Builtin.run f arguments) :=
  congrArg (fun builtin => Run.inCall (bodyWith exec builtin f arguments))
    (funext Builtin.runNamed_name)

/-- Nothing is relied on. -/
theorem setting_trivial :
    Setting .silent (fun _ => True) (fun _ => True) (fun _ => True) fun _ => True where
  push _ := trivial
  pop _ := trivial
  enterCall _ := trivial
  exitCall _ := trivial
  declare _ _ _ := trivial
  store _ _ := trivial
  find _ _ := trivial
  lexemes _ := Or.inr fun _ _ => trivial
  unlocated _ _ := trivial
  locate _ _ := trivial
  stray _ _ := trivial
  call _ _ := rfl
  builtin _ _ _ := inCall_silent

end Run

end MiniC
