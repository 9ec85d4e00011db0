import MiniC.Proofs.Eval.Kept
import MiniC.Proofs.Run.Done

/-!
# Static types

`Expr.typeIn` computes the type of an expression from the types of the visible bindings.  Where an
expression has a value, it has that type (`eval_hasType`): no value that is computed on the way, and
no call between two operands, can make the type come out differently.  Main statement:
`eval_sameType`.
-/

namespace MiniC

/-- The type of the value of an expression, if there is one, in terms of the types of names. -/
def Expr.typeIn (types : String → Option ValueType) : Expr → Option ValueType
  | .literal v _ => some (.data v.type 0)
  | .list [] _ => none
  | .list (first :: _) _ => (first.typeIn types).bind ValueType.listOf?
  | .variable name indices _ => (types name).bind (·.indexed indices.length)
  | .unary op operand _ =>
    match operand.typeIn types with
    | some (.data leaf 0) => some (.data (op.resultType leaf) 0)
    | _ => none
  | .binary op left right _ =>
    match left.typeIn types, right.typeIn types with
    | some (.data l 0), some (.data r 0) => (op.resultType? l r).map (.data · 0)
    | _, _ => none
  | .cast target _ _ => some (.data target 0)
  | .call name _ _ =>
    match types name with
    | some (.function f) => some f.resultType
    | _ => none

/-- The visible bindings have the given types. -/
def Scope.Types (s : Scope) (types : String → Option ValueType) : Prop :=
  ∀ name, Option.Rel Value.HasType (s.find? name) (types name)

theorem Scope.Types.kept {s t : Scope} {types : String → Option ValueType} (h : s.Types types)
    (hkept : s.Kept True t) : t.Types types := by
  intro name
  have hrel := hkept.rel trivial name
  have htype := h name
  generalize s.find? name = o at hrel htype
  generalize t.find? name = o' at hrel
  cases hrel with
  | none => exact htype
  | some hvw =>
    generalize types name = type at htype
    cases htype with
    | some hv => exact .some (hvw.hasType hv)

/-- A name that is found has its type. -/
theorem Scope.Types.find {s : Scope} {types : String → Option ValueType} (h : s.Types types)
    {name : String} {v : Value} (hv : s.find? name = some v) :
    ∃ type, types name = some type ∧ v.HasType type := by
  have htype := h name
  rw [hv] at htype
  generalize types name = o at htype
  cases htype with
  | some hv => exact ⟨_, rfl, hv⟩

/-- What a call returns has the declared type. -/
theorem invoke_hasType {steps : Nat} {f : FunctionDecl} {arguments : List Value} {m n : Machine}
    {v : Value} (h : invoke steps f arguments m = .done v n) : v.HasType f.resultType := by
  cases steps with
  | zero =>
    unfold invoke at h
    cases h
  | succ steps =>
    rw [invoke_succ] at h
    obtain ⟨flow, k, -, h⟩ := Run.bind_done h
    obtain ⟨w, k', -, h⟩ := Run.bind_done h
    obtain ⟨hresult, -⟩ := Run.lift_done h
    exact FunctionDecl.checkResult_ok hresult

/-- A machine whose visible bindings have the given types, within valid frames. -/
def Machine.Typed (types : String → Option ValueType) (m : Machine) : Prop :=
  m.scope.Valid ∧ m.scope.Types types

theorem Machine.Typed.keeps {types : String → Option ValueType} {r : Run α} {m n : Machine}
    {a : α} (h : m.Typed types) (hkeeps : r.Keeps True) (hr : r m = .done a n) :
    n.Typed types := by
  have hkept : m.scope.Kept True n.scope := hkeeps m n h.1 (by rw [hr]; rfl)
  exact ⟨hkept.valid h.1, h.2.kept hkept⟩

/-- The value of an expression has the type that is computed for the expression. -/
theorem eval_hasType {types : String → Option ValueType} {steps : Nat} {e : Expr} {m n : Machine}
    {v : Value} (hm : m.Typed types) (h : eval steps e m = .done v n) :
    ∃ type, e.typeIn types = some type ∧ v.HasType type := by
  induction steps generalizing e m v n with
  | zero =>
    unfold eval at h
    cases h
  | succ steps ih =>
    unfold eval at h
    have h := Run.locate_done h
    cases e with
    | literal l lexeme =>
      obtain ⟨rfl, -⟩ := Run.pure_done h
      exact ⟨_, rfl, Value.literal_hasType l⟩
    | list elements lexeme =>
      obtain ⟨vs, k, hvs, h⟩ := Run.bind_done h
      obtain ⟨hlist, -⟩ := Run.lift_done h
      have hstep : ∀ e v m n, Machine.Typed types m → eval steps e m = .done v n →
          (∃ type, e.typeIn types = some type ∧ v.HasType type) ∧ n.Typed types :=
        fun e v m n hm hv => ⟨ih hm hv, hm.keeps (eval_keeps steps e) hv⟩
      obtain ⟨hall, -⟩ := Run.each_done hstep hm hvs
      obtain ⟨first, rest, rfl, -⟩ := Value.exists_of_ofElements hlist
      cases hall with
      | cons hfirst hrest =>
        obtain ⟨type, htype, hfirst⟩ := hfirst
        have hrest : ∀ w ∈ rest, ∃ type, w.HasType type := fun w hw => by
          obtain ⟨e, -, type, -, hw⟩ := exists_of_forall₂ hrest hw
          exact ⟨type, hw⟩
        obtain ⟨type', hlistOf, hv⟩ := Value.hasType_ofElements hfirst hrest hlist
        exact ⟨type', by rw [Expr.typeIn, htype]; exact hlistOf, hv⟩
    | «variable» name indices lexeme =>
      obtain ⟨path, k, hpath, h⟩ := Run.bind_done h
      obtain ⟨w, k', hw, h⟩ := Run.bind_done h
      obtain ⟨hfind, rfl⟩ := Run.lookup_done hw
      obtain ⟨hv, -⟩ := Run.lift_done h
      obtain ⟨type, htype, hw⟩ := (hm.keeps (each_index_keeps steps indices) hpath).2.find hfind
      obtain ⟨type', hindexed, hv⟩ := hw.atPath hv
      have hlen : indices.length = path.length :=
        (Run.each_done (P := fun _ => True) (Q := fun _ _ => True)
          (fun _ _ _ _ _ _ => ⟨trivial, trivial⟩) trivial hpath).1.length_eq
      exact ⟨type', by rw [Expr.typeIn, htype, hlen]; exact hindexed, hv⟩
    | unary op operand lexeme =>
      obtain ⟨w, k, hw, h⟩ := Run.bind_done h
      obtain ⟨hv, -⟩ := Run.lift_done h
      obtain ⟨type, htype, hw⟩ := ih hm hw
      obtain ⟨leaf, hleaf, hv⟩ := Value.unary_ok hv
      cases hw.unique hleaf.hasType
      exact ⟨_, by rw [Expr.typeIn, htype]; rfl, hv.hasType⟩
    | binary op left right lexeme =>
      obtain ⟨v₁, k, hv₁, h⟩ := Run.bind_done h
      obtain ⟨v₂, k', hv₂, h⟩ := Run.bind_done h
      obtain ⟨hv, -⟩ := Run.lift_done h
      -- the right operand is evaluated after whatever the left one did to the machine
      obtain ⟨type₁, htype₁, hleft⟩ := ih hm hv₁
      obtain ⟨type₂, htype₂, hright⟩ := ih (hm.keeps (eval_keeps steps left) hv₁) hv₂
      obtain ⟨l, r, type, hl, hr, htype, hv⟩ := Value.binary_ok hv
      cases hleft.unique hl.hasType
      cases hright.unique hr.hasType
      refine ⟨.data type 0, ?_, hv.hasType⟩
      rw [Expr.typeIn, htype₁, htype₂]
      show (op.resultType? l r).map _ = _
      rw [htype]
      rfl
    | cast target operand lexeme =>
      obtain ⟨w, k, hw, h⟩ := Run.bind_done h
      obtain ⟨hv, -⟩ := Run.lift_done h
      exact ⟨_, rfl, (Value.cast_ok hv).hasType⟩
    | call name arguments lexeme =>
      obtain ⟨w, k, hw, h⟩ := Run.bind_done (Run.locate_done h)
      obtain ⟨hfind, rfl⟩ := Run.lookup_done hw
      obtain ⟨type, htype, hw⟩ := hm.2.find hfind
      cases w with
      | function f =>
        obtain ⟨vs, k, hvs, h⟩ := Run.bind_done h
        obtain ⟨-, k', hcheck, h⟩ := Run.bind_done h
        have hf : (Value.function f).HasType (.function f) := rfl
        cases hw.unique hf
        exact ⟨f.resultType, by rw [Expr.typeIn, htype], invoke_hasType h⟩
      | int _ | float _ | string _ | array _ | void => cases h

/-- The type of the value of an expression is a function of the expression and of the types of the
visible bindings: from any two machines in which every name has bindings of the same type, or none,
the values that an expression is evaluated to are of the same type.  And a call accepts or rejects
arguments by their types only. -/
theorem eval_sameType {m m' : Machine} (hvalid : m.scope.Valid) (hvalid' : m'.scope.Valid)
    (hsame : ∀ name, Option.Rel Value.SameType (m.scope.find? name) (m'.scope.find? name)) :
    (∀ e steps steps' v v' n n', eval steps e m = .done v n → eval steps' e m' = .done v' n' →
      v.SameType v') ∧
    ∀ (f : FunctionDecl) (arguments arguments' : List Value),
      List.Forall₂ Value.SameType arguments arguments' →
      (f.checkArguments arguments = .ok () ↔ f.checkArguments arguments' = .ok ()) := by
  have htypes : ∀ name, ∃ type, Option.Rel Value.HasType (m.scope.find? name) type ∧
      Option.Rel Value.HasType (m'.scope.find? name) type := by
    intro name
    have hname := hsame name
    generalize m.scope.find? name = o at hname ⊢
    generalize m'.scope.find? name = o' at hname ⊢
    cases hname with
    | none => exact ⟨none, .none, .none⟩
    | some h =>
      obtain ⟨type, hv, hw⟩ := h
      exact ⟨some type, .some hv, .some hw⟩
  choose types hm hm' using htypes
  refine ⟨fun e steps steps' v v' n n' h h' => ?_, fun f arguments arguments' h => ⟨?_, ?_⟩⟩
  · obtain ⟨type, htype, hv⟩ := eval_hasType ⟨hvalid, hm⟩ h
    obtain ⟨type', htype', hv'⟩ := eval_hasType ⟨hvalid', hm'⟩ h'
    cases htype.symm.trans htype'
    exact ⟨type, hv, hv'⟩
  · exact FunctionDecl.checkArguments_ok_of_sameType h
  · exact FunctionDecl.checkArguments_ok_of_sameType
      (h.imp fun v w h => h.imp fun type h => h.symm).flip

/-- An element of an array, outside all calls and within one where the array is longer, and the two
arrays as arguments. -/
theorem element_sameType :
    let l := Lexeme.absent
    let short : Value := .array #[.int 1, .int 2]
    let long : Value := .array #[.int 5, .int 6, .int 7]
    let console : Console := ⟨⟨[]⟩, .unlimited⟩
    let m : Machine := ⟨⟨⟨[("a", short)]⟩, [], []⟩, console⟩
    let m' : Machine := ⟨⟨⟨[("a", long)]⟩, [.empty], [[]]⟩, console⟩
    let e : Expr := .variable "a" [some (.literal (.int 1) l)] l
    let f := Builtin.printl.declaration
    (∃ v v' n n', eval 2 e m = .done v n ∧ eval 2 e m' = .done v' n' ∧ v.SameType v') ∧
      (f.checkArguments [short] = .ok () ↔ f.checkArguments [long] = .ok ()) := by
  intro l short long console m m' e f
  have harrays : short.SameType long := by
    refine ⟨.data .int 1, ⟨[2], rfl, by decide, [.int 1, .int 2], rfl, rfl, ?_⟩,
      ⟨[3], rfl, by decide, [.int 5, .int 6, .int 7], rfl, rfl, ?_⟩⟩
    · simp [Value.shaped_int]
    · simp [Value.shaped_int]
  have hsame : ∀ name, Option.Rel Value.SameType (m.scope.find? name) (m'.scope.find? name) := by
    intro name
    have hm : m.scope.find? name = if name = "a" then some short else none :=
      Frame.lookup_cons "a" short [] name
    have hm' : m'.scope.find? name = if name = "a" then some long else none :=
      Frame.lookup_cons "a" long [] name
    rw [hm, hm']
    split
    · exact .some harrays
    · exact .none
  have hvalid : m.scope.Valid := trivial
  have hvalid' : m'.scope.Valid := ⟨List.cons_ne_nil _ _, trivial⟩
  obtain ⟨heval, hcheck⟩ := eval_sameType hvalid hvalid' hsame
  exact ⟨⟨_, _, _, _, rfl, rfl, heval e 2 2 _ _ _ _ rfl rfl⟩,
    hcheck f [short] [long] (.cons harrays .nil)⟩

end MiniC
