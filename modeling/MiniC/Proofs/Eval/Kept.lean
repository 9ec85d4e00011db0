import MiniC.Proofs.Eval.Coupling
import MiniC.Proofs.Scope.Kept

/-!
# What runs keep

Expressions and calls declare nothing in the frames that are there when they begin, and statements
only in the innermost one; what is bound stays bound and keeps its type (`eval_keeps`,
`invoke_keeps`, `exec_keeps`).  `Kept` is a coupling of every machine with itself, so this holds of
results and failures alike.  Main statement: `evaluation_keepsTypes`.
-/

namespace MiniC

/-- A machine and itself, at some point after it had the scope of the world. -/
def KeptSince (w : Scope × Prop) (m m' : Machine) : Prop :=
  m = m' ∧ w.1.Valid ∧ w.1.Kept w.2 m.scope

theorem coupling_keptSince : Coupling (fun w => ¬ w.2) KeptSince where
  find := by
    rintro w m _ ⟨rfl, -, -⟩ name
    rfl
  console := by
    rintro w m _ ⟨rfl, -, -⟩
    rfl
  withConsole := by
    rintro w m _ ⟨rfl, hvalid, hkept⟩ console
    exact ⟨rfl, hvalid, hkept⟩
  store := by
    rintro w m _ ⟨rfl, hvalid, hkept⟩ name v path current op new updated hv hcurrent hupdated
    have htype := Value.keepsType_setAt hcurrent hupdated
    exact ⟨rfl, hvalid, hkept.trans (Scope.kept_modify hv htype w.2)⟩
  declare := by
    rintro w hopened name v m _ ⟨rfl, hvalid, hkept⟩
    unfold Run.changeScope
    dsimp only
    split
    · next t hdeclare =>
      have hdeclared := (Scope.kept_declare hdeclare).mono hopened
      exact .done () ⟨rfl, hvalid, hkept.trans hdeclared⟩
    · exact .failed _ ⟨rfl, hvalid, hkept⟩
  frame := by
    rintro w m _ ⟨rfl, hvalid, hkept⟩
    have hm := hkept.valid hvalid
    refine ⟨(m.scope.push, False), id, ⟨rfl, Scope.valid_push hm, .refl False _⟩, ?_⟩
    rintro n _ ⟨rfl, -, hn⟩
    exact ⟨rfl, hvalid, hkept.trans ((hn.pop hm).mono fun _ => trivial)⟩
  call := by
    rintro w m _ ⟨rfl, hvalid, hkept⟩
    have hm := hkept.valid hvalid
    refine ⟨(m.scope.enterCall, False), id, ⟨rfl, Scope.valid_enterCall hm, .refl False _⟩, ?_⟩
    rintro n _ ⟨rfl, -, hn⟩
    exact ⟨rfl, hvalid, hkept.trans (hn.exitCall.mono fun _ => trivial)⟩

/-- However a run ends, the bindings are kept. -/
def Run.Keeps (closed : Prop) (r : Run α) : Prop :=
  ∀ m n, m.scope.Valid → (r m).machine? = some n → m.scope.Kept closed n.scope

theorem Run.keeps_of_simulated {closed : Prop} {r : Run α}
    (h : ∀ s, Run.Simulated (KeptSince (s, closed)) r r) : r.Keeps closed := by
  intro m n hvalid hn
  have hm : KeptSince (m.scope, closed) m m := ⟨rfl, hvalid, .refl closed m.scope⟩
  have hr := h m.scope hm
  generalize r m = o at hr hn
  cases hr with
  | done value hkept => cases hn; exact hkept.2.2
  | failed f hkept => cases hn; exact hkept.2.2
  | unfinished o => cases hn

variable (steps : Nat)

theorem evaluates_keptSince : Coupling.Evaluates (fun w => ¬ w.2) KeptSince steps steps :=
  coupling_keptSince.evaluates (Nat.le_refl steps)

theorem eval_keeps (e : Expr) : (eval steps e).Keeps True :=
  Run.keeps_of_simulated fun _ => (evaluates_keptSince steps).eval e

theorem exec_keeps (s : Statement) : (exec steps s).Keeps False :=
  Run.keeps_of_simulated fun _ => (evaluates_keptSince steps).exec s fun _ _ => id

theorem invoke_keeps (f : FunctionDecl) (arguments : List Value) :
    (invoke steps f arguments).Keeps True :=
  Run.keeps_of_simulated fun _ => (evaluates_keptSince steps).invoke f arguments

theorem each_eval_keeps (es : List Expr) : (Run.each (eval steps) es).Keeps True :=
  Run.keeps_of_simulated fun _ => Run.Simulated.each (evaluates_keptSince steps).eval es

theorem each_index_keeps (indices : List (Option Expr)) :
    (Run.each (evalIndex (eval steps)) indices).Keeps True :=
  Run.keeps_of_simulated fun _ =>
    Run.Simulated.each (Coupling.index (evaluates_keptSince steps).eval) indices

theorem execDeclaration_keeps (d : Declaration) :
    (execDeclaration (eval steps) d).Keeps False :=
  Run.keeps_of_simulated fun _ =>
    Coupling.declaration (evaluates_keptSince steps).eval coupling_keptSince id d

/-! ## Types of bindings -/

/-- Every call has a frame, and names are bound to data and functions. -/
structure Scope.WellTyped (s : Scope) : Prop where
  valid : s.Valid
  bound : ∀ f ∈ s.frames, ∀ {name v}, f.find? name = some v → v.IsData ∨ ∃ g, v = .function g

/-- Two scalars of one type, two arrays of one leaf type and shape, or one function. -/
inductive Value.Alike : Value → Value → Prop
  | data {leaf : TypeName} {dims : List Nat} {v w : Value} (h : v.Shaped leaf dims)
      (h' : w.Shaped leaf dims) : Alike v w
  | function (f : FunctionDecl) : Alike (.function f) (.function f)

/-- Each name that is bound in the first frame is bound to something alike in the second one. -/
def Frame.KeepsTypes (f g : Frame) : Prop :=
  ∀ {name v}, f.find? name = some v → ∃ w, g.find? name = some w ∧ v.Alike w

/-- In each frame of the first scope that is within reach names stay bound and keep their types; the
frames of the callers are the same. -/
structure Scope.KeepsTypes (s t : Scope) : Prop where
  root : s.root.KeepsTypes t.root
  current : List.Forall₂ Frame.KeepsTypes s.current t.current
  callers : t.callers = s.callers

theorem Frame.Kept.keepsTypes {closed : Prop} {f g : Frame} (h : f.Kept closed g)
    (hbound : ∀ {name v}, f.find? name = some v → v.IsData ∨ ∃ g, v = .function g) :
    f.KeepsTypes g := by
  intro name v hv
  obtain ⟨w, hw, hvw⟩ := h.bound hv
  refine ⟨w, hw, ?_⟩
  rcases hbound hv with ⟨leaf, dims, hshaped⟩ | ⟨g, rfl⟩
  · exact .data hshaped (hvw.data hshaped)
  · cases hvw.other rfl rfl
    exact .function g

theorem Scope.Kept.keepsTypes {closed : Prop} {s t : Scope} (h : s.Kept closed t)
    (htyped : s.WellTyped) : s.KeepsTypes t where
  root := h.root.keepsTypes (htyped.bound s.root List.mem_cons_self)
  current := by
    have hall := (List.forall₂_and_left s.current t.current).2
      ⟨fun f (hf : f ∈ s.current) => hf, h.current.forall₂⟩
    refine hall.imp fun f g hfg => hfg.2.keepsTypes (htyped.bound f ?_)
    exact List.mem_cons_of_mem _ (List.mem_append_left _ hfg.1)
  callers := h.callers

/-- Nothing that a program does changes the type of an existing binding.  However an expression, a
statement, a call or a declaration ends, each name that was bound in a frame is still bound in that
frame: a scalar to one of its type, an array to one of its leaf type and shape, and a function to
itself. -/
theorem evaluation_keepsTypes {m : Machine} (htyped : m.scope.WellTyped) (steps : Nat) :
    (∀ e n, (eval steps e m).machine? = some n → m.scope.KeepsTypes n.scope) ∧
    (∀ s n, (exec steps s m).machine? = some n → m.scope.KeepsTypes n.scope) ∧
    (∀ f arguments n, (invoke steps f arguments m).machine? = some n →
      m.scope.KeepsTypes n.scope) ∧
    ∀ d n, (execDeclaration (eval steps) d m).machine? = some n → m.scope.KeepsTypes n.scope := by
  have hvalid := htyped.valid
  refine ⟨fun e n hn => ?_, fun s n hn => ?_, fun f arguments n hn => ?_, fun d n hn => ?_⟩
  · exact (eval_keeps steps e m n hvalid hn).keepsTypes htyped
  · exact (exec_keeps steps s m n hvalid hn).keepsTypes htyped
  · exact (invoke_keeps steps f arguments m n hvalid hn).keepsTypes htyped
  · exact (execDeclaration_keeps steps d m n hvalid hn).keepsTypes htyped

/-- An assignment to an element, and the declaration of a variable that hides the array. -/
theorem element_keepsTypes :
    let l := Lexeme.absent
    let literal (n : Int64) : Expr := .literal (.int n) l
    let array : Value := .array #[.int 1, .int 2]
    let m : Machine := ⟨⟨⟨[("a", array)]⟩, [.empty], [[]]⟩, ⟨⟨[]⟩, .unlimited⟩⟩
    let store : Statement := .simple (.assignment ⟨"a", [some (literal 1)], l⟩ .plain (literal 7) l)
    let hide : Declaration := ⟨.float, ⟨"a", [], l⟩, none⟩
    m.scope.WellTyped ∧
      (∃ n, (exec 2 store m).machine? = some n ∧ m.scope.KeepsTypes n.scope) ∧
      ∃ n, (execDeclaration (eval 2) hide m).machine? = some n ∧ m.scope.KeepsTypes n.scope := by
  intro l literal array m store hide
  have harray : array.IsData :=
    ⟨.int, [2], by decide, [.int 1, .int 2], rfl, rfl, by
      intro e he
      rcases List.mem_pair.1 he with rfl | rfl <;> exact Value.shaped_int _⟩
  have htyped : m.scope.WellTyped := by
    refine ⟨⟨List.cons_ne_nil _ _, trivial⟩, fun f hf {name v} hv => Or.inl ?_⟩
    rcases List.mem_pair.1 hf with rfl | rfl
    · have hv : (if name = "a" then some array else none) = some v :=
        (Frame.lookup_cons "a" array [] name).symm.trans hv
      split at hv
      · cases hv
        exact harray
      · cases hv
    · cases hv
  obtain ⟨-, hexec, -, hdeclare⟩ := evaluation_keepsTypes htyped 2
  exact ⟨htyped, ⟨_, rfl, hexec store _ rfl⟩, _, rfl, hdeclare hide _ rfl⟩

end MiniC
