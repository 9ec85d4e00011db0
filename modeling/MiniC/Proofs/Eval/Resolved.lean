import MiniC.Proofs.Eval.Balanced
import MiniC.Proofs.Run.Resolved
import MiniC.Proofs.Scope.Models

/-!
# Scoped expressions and statements resolve their names

Where a scope is modelled by the names that are in scope at a point of a program, an expression
there resolves its names and leaves the scope modelled by the same names (`eval_resolves`), and a
statement leaves it modelled by the names in scope after it (`exec_resolves`).  Calls are assumed to
resolve theirs under fewer steps; for the functions that a program knows this is then discharged by
induction on the steps (`invoke_resolves`).  Which functions can be called is left open at first,
because while globals are initialized only the built-in ones can.
-/

namespace MiniC

/-- The name is in scope, and if it is called, then only functions that are `safe` to call are known
under it. -/
def Use.Allowed (p : Program) (safe : FunctionDecl → Prop) (names : Names) (u : Use) : Prop :=
  u.name ∈ names.visible ∧ ∀ name ∈ u.callee?, ∀ f, p.Knows f → f.name = name → safe f

/-- Arguments that can be bound to the parameters of a function. -/
def FunctionDecl.Takes (f : FunctionDecl) (arguments : List Value) : Prop :=
  arguments.length = f.parameters.length ∧ ∀ b ∈ f.parameters.zip arguments, b.2.IsData

/-- The run resolves its names where the given ones are in scope, and these stay in scope. -/
abbrev Run.ResolvesIn {α : Type} (p : Program) (globals : List String) (names : Names)
    (r : Run α) : Prop :=
  r.Resolves (p.Models globals names) fun _ => p.Models globals names

/-- Calls of functions that are safe resolve their names, wherever they are made. -/
def Program.CallsResolve (p : Program) (globals : List String) (safe : FunctionDecl → Prop)
    (steps : Nat) : Prop :=
  ∀ names f arguments, safe f → f.Takes arguments →
    (invoke steps f arguments).ResolvesIn p globals names

/-- Statements resolve their names, and what they declare is in scope afterwards. -/
def Program.ExecResolves (p : Program) (globals : List String) (steps : Nat) : Prop :=
  ∀ names s, Statement.Scoped names s → s.Valued →
    (exec steps s).Resolves (p.Models globals names) fun _ =>
      p.Models globals (names.after s.declared?)

variable {p : Program} {globals : List String} {safe : FunctionDecl → Prop} {names : Names}

/-! ## Frames and calls -/

namespace Run

variable {α : Type} {r : Run α} {Q : α → Scope → Prop}

/-- A run that declares nothing leaves a scope modelled by the same names. -/
theorem Resolves.keeps (h : r.Resolves (p.Models globals names) Q) (hkeeps : r.Keeps True) :
    r.ResolvesIn p globals names :=
  h.post fun _ m n hm hn _ => hm.kept (hkeeps m n hm.wellFormed.valid (by rw [hn]; rfl))

theorem Resolves.frame (h : r.Resolves (p.Models globals names.inner) Q) :
    (inFrame r).Resolves (p.Models globals names) fun _ _ => True :=
  fun _ hm => h.afterwards Scope.pop _ hm.push

theorem Resolves.call (h : r.Resolves (p.Models globals ⟨globals, []⟩) Q) :
    (inCall r).Resolves (p.Models globals names) fun _ _ => True :=
  fun _ hm => h.afterwards Scope.exitCall _ hm.toGrounds.enterCall

theorem Keeps.inFrame (h : r.Keeps False) : (inFrame r).Keeps True := by
  intro m n hvalid hn
  have hinner := h { m with scope := m.scope.push }
  unfold Run.inFrame Run.afterwards at hn
  generalize r { m with scope := m.scope.push } = o at hinner hn
  cases o with
  | done value k =>
    cases hn
    exact (hinner k (Scope.valid_push hvalid) rfl).pop hvalid
  | failed f k =>
    cases hn
    exact (hinner k (Scope.valid_push hvalid) rfl).pop hvalid
  | unfinished => cases hn

end Run

/-! ## Parts of statements -/

/-- Indices or dimensions, each evaluated in the same way. -/
theorem each_option_resolves {β : Type} {f : Option Expr → Run β}
    (hf : ∀ i, (∀ e ∈ i, ∀ u ∈ e.uses, u.Allowed p safe names) →
      (f i).ResolvesIn p globals names)
    {is : List (Option Expr)} (his : ∀ u ∈ Expr.usesIndices is, u.Allowed p safe names) :
    (Run.each f is).ResolvesIn p globals names := by
  refine Run.resolves_each fun i hi => hf i fun e he u hu => ?_
  cases he
  exact his u (Expr.mem_usesIndices hi hu)

section Parts

variable {eval : Expr → Run Value}
  (heval : ∀ e, (∀ u ∈ e.uses, u.Allowed p safe names) → (eval e).ResolvesIn p globals names)

include heval

theorem evalCondition_resolves {e : Expr} (he : ∀ u ∈ e.uses, u.Allowed p safe names) :
    (evalCondition eval e).ResolvesIn p globals names :=
  (heval e he).bind fun v => (Run.resolves_lift v.resolved_truth).locate e.lexeme

theorem evalIndex_resolves (i : Option Expr)
    (hi : ∀ e ∈ i, ∀ u ∈ e.uses, u.Allowed p safe names) :
    (evalIndex eval i).ResolvesIn p globals names := by
  cases i with
  | none => exact Run.resolves_fail rfl
  | some e =>
    exact (heval e (hi e rfl)).bind fun v =>
      (Run.resolves_lift (v.resolved_toInt _)).locate e.lexeme

theorem evalDimension_resolves (d : Option Expr)
    (hd : ∀ e ∈ d, ∀ u ∈ e.uses, u.Allowed p safe names) :
    (evalDimension eval d).ResolvesIn p globals names := by
  cases d with
  | none => exact Run.resolves_pure fun _ => id
  | some e =>
    refine (heval e (hd e rfl)).bind fun v => ?_
    refine ((Run.resolves_lift (v.resolved_toInt _)).locate e.lexeme).bind fun n => ?_
    cases dimension? n with
    | some length => exact Run.resolves_pure fun _ => id
    | none => exact Run.resolves_failAt rfl _

theorem evalOption_resolves {e : Option Expr}
    (he : ∀ u ∈ e.elim [] Expr.uses, u.Allowed p safe names) :
    (evalOption eval e).ResolvesIn p globals names := by
  cases e with
  | none => exact Run.resolves_pure fun _ => id
  | some e => exact (heval e he).bind fun v => Run.resolves_pure fun _ => id

theorem each_resolves {es : List Expr} (hes : ∀ u ∈ Expr.usesAll es, u.Allowed p safe names) :
    (Run.each eval es).ResolvesIn p globals names :=
  Run.resolves_each fun e he => heval e fun u hu => hes u (Expr.mem_usesAll he hu)

theorem evalPlace_resolves {name : String} {indices : List (Option Expr)}
    (hname : name ∈ names.visible)
    (hindices : ∀ u ∈ Expr.usesIndices indices, u.Allowed p safe names) :
    (evalPlace eval name indices).ResolvesIn p globals names := by
  have hpath := each_option_resolves (evalIndex_resolves heval) hindices
  refine hpath.bind fun path => ?_
  refine (Run.resolves_lookup fun _ hs => hs.visible name hname).bind fun v => ?_
  exact (Run.resolves_lift (v.resolved_atPath path)).mono fun _ _ hs => hs.1

theorem declaredValue_resolves {d : Declaration} (hd : ∀ u ∈ d.uses, u.Allowed p safe names) :
    (Run.declaredValue eval d).ResolvesIn p globals names := by
  obtain ⟨hdims, hinitial⟩ := List.forall_mem_append.1 hd
  refine (each_option_resolves (evalDimension_resolves heval) hdims).bind fun dims => ?_
  refine (evalOption_resolves heval hinitial).bind fun initial => ?_
  exact Run.resolves_lift (resolved_initialValue d dims initial)

end Parts

theorem assign_resolves {name : String} (hname : name ∈ names.visible) (l : Lexeme)
    (path : List Int64) (op : AssignOp) (new : Value) :
    (Run.assign l name path op new).ResolvesIn p globals names := by
  have hread : (Run.locate l (Run.lookup name >>= fun v => Run.lift (v.atPath path))).Resolves
      (p.Models globals names) fun _ _ => True := by
    refine Run.Resolves.locate ?_ l
    refine (Run.resolves_lookup fun _ hs => hs.visible name hname).bind fun v => ?_
    exact (Run.resolves_lift (v.resolved_atPath path)).mono fun _ _ _ => trivial
  have hassign : (Run.assign l name path op new).Resolves (p.Models globals names)
      fun _ _ => True := by
    refine hread.bind fun current => ?_
    refine (Run.resolves_lift (current.resolved_assigned op new)).bind fun updated => ?_
    exact fun _ _ => .done trivial
  -- the type of the slot is kept, so nothing that is known of the scope is lost
  have hkeeps : (Run.assign l name path op new).Keeps True :=
    Run.keeps_of_simulated fun _ => coupling_keptSince.assign l name path op new
  exact hassign.keeps hkeeps

/-! ## Expressions -/

section Steps

variable {steps : Nat}

theorem evalCall_resolves {c : Call}
    (heval : ∀ e, (∀ u ∈ e.uses, u.Allowed p safe names) →
      (eval steps e).ResolvesIn p globals names)
    (hcalls : p.CallsResolve globals safe steps)
    (hc : ∀ u ∈ c.expr.uses, u.Allowed p safe names) :
    (evalCall (eval steps) (invoke steps) c).ResolvesIn p globals names := by
  obtain ⟨⟨hname, hsafe⟩, harguments⟩ := List.forall_mem_cons.1 hc
  refine Run.Resolves.locate ?_ c.lexeme
  refine (Run.resolves_lookup fun _ hs => hs.visible c.name hname).bind fun v => ?_
  cases v with
  | int _ | float _ | string _ | array _ | void => exact Run.resolves_fail rfl
  | function f =>
    refine Run.resolves_of_pre fun s ⟨hs, hfind⟩ => ?_
    obtain ⟨hknown, hf⟩ := hs.function hfind
    have hes := (each_resolves heval harguments).post (R := fun arguments s =>
      p.Models globals names s ∧ (f.checkArguments arguments = .ok () → f.Takes arguments))
      fun arguments m n hm hn hs => ⟨hs, fun hcheck =>
        ⟨(FunctionDecl.checkArguments_ok_iff.1 hcheck).length_eq.symm,
          isData_of_checkArguments hm.wellFormed hn hcheck⟩⟩
    refine (hes.pre fun _ => And.left).bind fun arguments => ?_
    refine (Run.resolves_lift_ok (f.resolved_checkArguments arguments)).bind fun _ => ?_
    refine Run.resolves_of_pre fun _ ⟨⟨_, htakes⟩, hcheck⟩ => ?_
    have hinvoke := hcalls names f arguments (hsafe c.name rfl f hknown hf) (htakes hcheck)
    exact hinvoke.pre fun _ hs => hs.1.1

/-- An expression of which all uses of names are allowed. -/
theorem eval_resolves (hcalls : ∀ k < steps, p.CallsResolve globals safe k) (e : Expr)
    (he : ∀ u ∈ e.uses, u.Allowed p safe names) :
    (eval steps e).ResolvesIn p globals names := by
  induction steps generalizing e with
  | zero =>
    unfold eval
    exact Run.resolves_unfinished
  | succ steps ih =>
    have heval := ih fun k hk => hcalls k (Nat.lt_succ_of_lt hk)
    unfold eval
    refine Run.Resolves.locate ?_ e.lexeme
    cases e with
    | literal v l => exact Run.resolves_pure fun _ => id
    | list elements l =>
      exact (each_resolves heval he).bind fun vs =>
        Run.resolves_lift (Value.resolved_ofElements vs)
    | «variable» name indices l =>
      obtain ⟨hname, hindices⟩ := List.forall_mem_cons.1 he
      exact evalPlace_resolves heval hname.1 hindices
    | unary op operand l =>
      exact (heval operand he).bind fun v => Run.resolves_lift (Value.resolved_unary op v)
    | binary op left right l =>
      obtain ⟨hleft, hright⟩ := List.forall_mem_append.1 he
      refine (heval left hleft).bind fun v => ?_
      refine (heval right hright).bind fun w => ?_
      exact Run.resolves_lift (Value.resolved_binary op v w)
    | cast target operand l =>
      exact (heval operand he).bind fun v => Run.resolves_lift (Value.resolved_cast target v)
    | call name arguments l =>
      exact evalCall_resolves heval (hcalls steps (Nat.lt_succ_self steps)) he

/-- A declaration of a name that is new in its scope. -/
theorem execDeclaration_resolves (hcalls : ∀ k < steps, p.CallsResolve globals safe k)
    {d : Declaration} (hd : d.Valued) (huses : ∀ u ∈ d.uses, u.Allowed p safe names)
    (hfresh : d.target.name ∉ names.own) :
    (execDeclaration (eval steps) d).Resolves (p.Models globals names)
      fun _ => p.Models globals (names.add d.target.name) := by
  rw [execDeclaration_eq]
  refine Run.Resolves.locate ?_ d.target.lexeme
  have hvalue := (declaredValue_resolves (eval_resolves hcalls) huses).post
    (R := fun v s => p.Models globals names s ∧ v.IsData) fun v m n hm hn hs => by
      obtain ⟨types, htypes⟩ := hm.wellFormed.exists_types
      exact ⟨hs, declaredValue_isData steps hd ⟨hm.wellFormed.valid, htypes⟩ hn⟩
  exact hvalue.bind fun v => Run.resolves_changeScope fun s hs =>
    hs.1.declare hfresh (Or.inl hs.2)

/-! ## Statements

All functions that the program knows can be called here. -/

theorem allowed_of_visible {us : List Use} (h : ∀ u ∈ us, u.name ∈ names.visible) :
    ∀ u ∈ us, u.Allowed p p.Knows names :=
  fun u hu => ⟨h u hu, fun _ _ _ hf _ => hf⟩

variable (hcalls : ∀ k < steps, p.CallsResolve globals p.Knows k)

include hcalls

theorem evalCondition_scoped {e : Expr} (he : e.Scoped names) :
    (evalCondition (eval steps) e).ResolvesIn p globals names :=
  evalCondition_resolves (eval_resolves hcalls) (allowed_of_visible he)

theorem execSimple_resolves (hsteps : p.CallsResolve globals p.Knows steps) {s : SimpleStatement}
    (hs : s.Scoped names) (hvalued : s.Valued) :
    (execSimple (eval steps) (invoke steps) s).Resolves (p.Models globals names)
      fun _ => p.Models globals (names.after (Statement.declared? (.simple s))) := by
  obtain ⟨huses, hfresh⟩ := hs
  have hallowed := allowed_of_visible huses (p := p)
  cases s with
  | declaration d =>
    exact execDeclaration_resolves hcalls (hvalued d (.refl _)) hallowed (hfresh _ rfl)
  | assignment target op value l =>
    obtain ⟨hvalue, hread⟩ := List.forall_mem_append.1 hallowed
    obtain ⟨hname, hindices⟩ := List.forall_mem_cons.1 hread
    refine Run.Resolves.locate ?_ l
    rw [execAssignment_eq]
    refine (eval_resolves hcalls value hvalue).bind fun new => ?_
    have hpath := each_option_resolves (evalIndex_resolves (eval_resolves hcalls)) hindices
    exact hpath.bind fun path => assign_resolves hname.1 target.lexeme path op new
  | call c =>
    exact (evalCall_resolves (eval_resolves hcalls) hsteps hallowed).bind fun _ =>
      Run.resolves_pure fun _ => id

theorem execOptional_resolves (hsteps : p.CallsResolve globals p.Knows steps)
    {s : Option SimpleStatement} (hs : ∀ t ∈ s, t.Scoped names) (hvalued : ∀ t ∈ s, t.Valued) :
    (execOptional (eval steps) (invoke steps) s).Resolves (p.Models globals names)
      fun _ => p.Models globals
        (names.after (s.bind fun t => Statement.declared? (.simple t))) := by
  cases s with
  | none => exact Run.resolves_pure fun _ => id
  | some s => exact execSimple_resolves hcalls hsteps (hs s rfl) (hvalued s rfl)

/-- The last part of the header of a `for` loop, which declares nothing. -/
theorem execStep_resolves (hsteps : p.CallsResolve globals p.Knows steps)
    {s : Option SimpleStatement}
    (hs : ∀ t ∈ s, t.Scoped names ∧ Statement.declared? (.simple t) = none)
    (hvalued : ∀ t ∈ s, t.Valued) :
    (execOptional (eval steps) (invoke steps) s).ResolvesIn p globals names := by
  refine (execOptional_resolves hcalls hsteps (fun t ht => (hs t ht).1) hvalued).mono
    fun _ _ hmodels => ?_
  cases s with
  | none => exact hmodels
  | some t =>
    rw [Option.bind_some, (hs t rfl).2] at hmodels
    exact hmodels

omit hcalls

theorem inSequence_resolves (hexec : p.ExecResolves globals steps) {body : List Statement}
    (hbody : Statement.ScopedAll names body) (hvalued : ∀ s ∈ body, s.Valued) :
    (Run.inSequence (exec steps) body).Resolves (p.Models globals names) fun _ _ => True := by
  induction body generalizing names with
  | nil => exact Run.resolves_pure fun _ _ => trivial
  | cons s rest ih =>
    obtain ⟨hs, hrest⟩ := hbody
    obtain ⟨hsvalued, hrestvalued⟩ := List.forall_mem_cons.1 hvalued
    refine (hexec names s hs hsvalued).bind fun flow => ?_
    cases flow with
    | normal => exact ih hrest hrestvalued
    | broke _ | continued _ | returned _ _ => exact Run.resolves_pure fun _ _ => trivial

theorem exec_succ_resolves (hcalls : ∀ k < steps + 1, p.CallsResolve globals p.Knows k)
    (hexec : p.ExecResolves globals steps) : p.ExecResolves globals (steps + 1) := by
  intro names s hs hvalued
  have hfewer : ∀ k < steps, p.CallsResolve globals p.Knows k :=
    fun k hk => hcalls k (Nat.lt_succ_of_lt hk)
  have hsteps := hcalls steps (Nat.lt_succ_self steps)
  -- a body runs in a frame of its own, again and again if it is that of a loop
  have hbody : ∀ {names} t, Statement.Scoped names.inner t → t.Valued →
      (Run.inFrame (exec steps t)).ResolvesIn p globals names :=
    fun {names} t ht htvalued =>
      (hexec names.inner t ht htvalued).frame.keeps (exec_keeps steps t).inFrame
  cases s with
  | simple s =>
    unfold exec
    exact (execSimple_resolves hfewer hsteps hs hvalued).bind fun _ => Run.resolves_pure fun _ => id
  | empty | breakLoop _ | continueLoop _ =>
    unfold exec
    exact Run.resolves_pure fun _ => id
  | returnValue value l =>
    unfold exec
    cases value with
    | none => exact Run.resolves_pure fun _ => id
    | some e =>
      exact (eval_resolves hfewer e (allowed_of_visible hs)).bind fun v =>
        Run.resolves_pure fun _ => id
  | block body l =>
    refine Run.Resolves.keeps (Q := fun _ _ => True) ?_ (exec_keeps_of_declared? rfl)
    unfold exec
    exact (inSequence_resolves hexec hs fun t ht d hd => hvalued d (.block ht hd)).frame
  | ifElse branches otherwise l =>
    obtain ⟨hbranches, hotherwise⟩ := hs
    unfold exec
    refine (Run.resolves_selectBranch fun b hb =>
      evalCondition_scoped hfewer (hbranches.mem b hb).1).bind fun selected => ?_
    cases selected with
    | none => exact Run.resolves_pure fun _ => And.left
    | some t =>
      refine Run.resolves_of_pre fun _ hselected => ?_
      have ht : t.Scoped names.inner ∧ t.Valued := by
        rcases hselected.2 t rfl with ⟨b, hb, rfl⟩ | rfl
        · exact ⟨(hbranches.mem b hb).2, fun d hd => hvalued d (.branch hb hd)⟩
        · exact ⟨hotherwise, fun d hd => hvalued d (.otherwise hd)⟩
      exact (hbody t ht.1 ht.2).pre fun _ => And.left
  | forLoop first c step body l =>
    obtain ⟨hfirst, hc, hstep, hin⟩ := hs
    have hfirstvalued : ∀ t ∈ first, t.Valued := by
      rintro t rfl d ⟨⟩
      exact hvalued _ .forFirst
    have hstepvalued : ∀ t ∈ step, t.Valued := by
      rintro t rfl d ⟨⟩
      exact hvalued _ .forStep
    refine Run.Resolves.keeps (Q := fun _ _ => True) ?_ (exec_keeps_of_declared? rfl)
    unfold exec
    refine Run.Resolves.frame (Q := fun _ => p.Models globals (names.header first)) ?_
    refine (execOptional_resolves hfewer hsteps hfirst hfirstvalued).bind fun _ => ?_
    have hround := hbody body hin fun d hd => hvalued d (.forBody hd)
    have hadvance := execStep_resolves hfewer hsteps hstep hstepvalued
    exact Run.Resolves.whileLoop (evalCondition_scoped hfewer hc) hround hadvance steps
  | whileLoop c body l =>
    unfold exec
    have hround := hbody body hs.2 fun d hd => hvalued d (.whileBody hd)
    exact Run.Resolves.whileLoop (evalCondition_scoped hfewer hs.1) hround
      (Run.resolves_pure fun _ => id) steps
  | doWhile body c l =>
    unfold exec
    have hround := hbody body hs.2 fun d hd => hvalued d (.doBody hd)
    exact Run.Resolves.doWhile hround (evalCondition_scoped hfewer hs.1) steps

theorem exec_resolves (hcalls : ∀ k < steps, p.CallsResolve globals p.Knows k) :
    p.ExecResolves globals steps := by
  induction steps with
  | zero =>
    intro names s _ _
    unfold exec
    exact Run.resolves_unfinished
  | succ steps ih =>
    exact exec_succ_resolves hcalls (ih fun k hk => hcalls k (Nat.lt_succ_of_lt hk))

end Steps

/-! ## Calls -/

theorem bindParameters_resolves {bindings : List (Parameter × Value)}
    (hdistinct : (bindings.map fun b => b.1.name).Nodup)
    (hfresh : ∀ b ∈ bindings, b.1.name ∉ names.own) (hdata : ∀ b ∈ bindings, b.2.IsData) :
    (bindParameters bindings).Resolves (p.Models globals names) fun _ =>
      p.Models globals ⟨bindings.map (fun b => b.1.name) ++ names.visible,
        bindings.map (fun b => b.1.name) ++ names.own⟩ := by
  induction bindings generalizing names with
  | nil => exact Run.resolves_pure fun _ => id
  | cons binding rest ih =>
    obtain ⟨q, v⟩ := binding
    obtain ⟨hnew, hdistinct⟩ := List.nodup_cons.1 hdistinct
    obtain ⟨hq, hfresh⟩ := List.forall_mem_cons.1 hfresh
    obtain ⟨hv, hdata⟩ := List.forall_mem_cons.1 hdata
    have hdeclare : (Run.changeScope (·.declare q.name v)).Resolves (p.Models globals names)
        fun _ => p.Models globals (names.add q.name) :=
      Run.resolves_changeScope fun s hs => hs.declare hq (Or.inl hv)
    refine (hdeclare.locate q.lexeme).bind fun _ => ?_
    have hrest : ∀ b ∈ rest, b.1.name ∉ (names.add q.name).own := by
      intro b hb hmem
      rcases List.mem_cons.1 hmem with heq | hown
      · exact hnew (List.mem_map.2 ⟨b, hb, heq⟩)
      · exact hfresh b hb hown
    exact (ih hdistinct hrest hdata).mono fun _ s hs => hs.mono
      (fun x hx => (List.perm_middle.mem_iff).2 hx) fun x hx => (List.perm_middle.mem_iff).1 hx

/-- A built-in function whose parameter is bound does not fail for a name. -/
theorem Builtin.run_resolves (b : Builtin) {P : Scope → Prop}
    (hP : ∀ s, P s → ∀ name ∈ b.declaration.parameterNames, ∃ v, s.find? name = some v) :
    b.run.Resolves P fun _ _ => True := by
  have hprint : ∀ text, Builtin.parameterName ∈ b.declaration.parameterNames →
      (Builtin.printParameter text).Resolves P fun _ _ => True := by
    intro text hp
    refine (Run.resolves_lookup fun s hs => hP s hs _ hp).bind fun v => ?_
    exact (Run.resolves_writeLine (text v)).bind fun _ => Run.resolves_pure fun _ _ => trivial
  have hread : ∀ {α : Type} (toValue : α → Value) {reader : Source → Except Fault α × Source},
      (∀ input, Resolved (reader input).1) →
      (Builtin.returning toValue (Run.read reader)).Resolves P fun _ _ => True :=
    fun toValue _ hreader => (Run.resolves_read hreader).bind fun _ =>
      Run.resolves_pure fun _ _ => trivial
  cases b with
  | printi | printf | printl | prints => exact hprint _ List.mem_cons_self
  | inputi | inputf => exact hread _ (Builtin.resolved_readAs _ fun _ => rfl)
  | inputs => exact hread _ Source.resolved_readWord
  | inputline => exact hread _ Source.resolved_readLine

/-- What a call runs, if the statements of the function resolve their names. -/
theorem callBody_resolves {steps : Nat} {f : FunctionDecl} {arguments : List Value}
    (hf : f.Scoped globals) (harguments : f.Takes arguments)
    (hblock : ∀ body l, f.body = .block body l →
      ∀ {names}, Statement.ScopedAll names body →
        (Run.inSequence (exec steps) body).Resolves (p.Models globals names) fun _ _ => True) :
    (Run.callBody steps f arguments).Resolves (p.Models globals ⟨globals, []⟩)
      fun _ _ => True := by
  obtain ⟨hdistinct, hbody⟩ := hf
  obtain ⟨hlength, hdata⟩ := harguments
  have hnames : (f.parameters.zip arguments).map (fun b => b.1.name) = f.parameterNames := by
    show (f.parameters.zip arguments).map (Parameter.name ∘ Prod.fst) = f.parameterNames
    rw [← List.map_map, List.map_fst_zip (Nat.le_of_eq hlength.symm)]
    rfl
  have hbind : (bindParameters (f.parameters.zip arguments)).Resolves
      (p.Models globals ⟨globals, []⟩) fun _ => p.Models globals _ :=
    bindParameters_resolves (hnames ▸ hdistinct) (fun _ _ => List.not_mem_nil) hdata
  rw [hnames, List.append_nil] at hbind
  refine hbind.bind fun _ => ?_
  cases hshape : f.body with
  | block body l =>
    rw [hshape] at hbody
    exact (hblock body l hshape hbody).frame
  | builtin b =>
    rw [hshape] at hbody
    exact b.run_resolves fun s hs name hname => hs.visible name (hbody name hname)

theorem invoke_succ_resolves {steps : Nat} {f : FunctionDecl} {arguments : List Value}
    (hbody : (Run.callBody steps f arguments).Resolves (p.Models globals ⟨globals, []⟩)
      fun _ _ => True) :
    (invoke (steps + 1) f arguments).ResolvesIn p globals names := by
  refine Run.Resolves.keeps (Q := fun _ _ => True) ?_ (invoke_keeps _ f arguments)
  rw [invoke_succ]
  refine hbody.call.bind fun flow => ?_
  refine (Run.resolves_resultOf flow).bind fun v => ?_
  exact Run.resolves_lift (f.resolved_checkResult v)

theorem Builtin.scoped_declaration (b : Builtin) (globals : List String) :
    b.declaration.Scoped globals := by
  refine ⟨?_, fun name hname => List.mem_append_left _ hname⟩
  cases b <;> decide

/-- While no function is called but the built-in ones. -/
theorem builtins_resolve (steps : Nat) :
    p.CallsResolve globals (fun f => ∃ b : Builtin, f = b.declaration) steps := by
  rintro names _ arguments ⟨b, rfl⟩ harguments
  cases steps with
  | zero =>
    unfold invoke
    exact Run.resolves_unfinished
  | succ steps =>
    exact invoke_succ_resolves <|
      callBody_resolves (b.scoped_declaration globals) harguments fun _ _ hblock => by cases hblock

/-- Calls of the functions that a program knows resolve their names, if those are scoped: by
induction on the steps, since every call in a body is granted fewer. -/
theorem invoke_resolves
    (hknown : ∀ f, p.Knows f → f.Scoped globals ∧ ∀ s, f.Contains s → s.Valued) (steps : Nat) :
    p.CallsResolve globals p.Knows steps := by
  induction steps using Nat.strongRecOn with
  | ind steps ih =>
    intro names f arguments hf harguments
    obtain ⟨hscoped, hvalued⟩ := hknown f hf
    cases steps with
    | zero =>
      unfold invoke
      exact Run.resolves_unfinished
    | succ steps =>
      refine invoke_succ_resolves (callBody_resolves hscoped harguments ?_)
      intro body l hbody names hstatements
      have hexec := exec_resolves fun k hk => ih k (Nat.lt_succ_of_lt hk)
      exact inSequence_resolves hexec hstatements fun s hs =>
        hvalued s ⟨body, l, hbody, s, hs, .refl s⟩

end MiniC
