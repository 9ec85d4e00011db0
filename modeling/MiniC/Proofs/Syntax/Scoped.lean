import MiniC.Function
import MiniC.Syntax.Tree

/-!
# Static scopes

Which names are in scope where, read off the text of a program.  Scopes are the parameters of a
function and inside them its body, every block, every branch, the header of every `for` loop and
inside it the body, and the bodies of the other loops.  A program is `Scoped` if every name that it
uses is in scope, no scope declares a name twice, and its items can be declared in their order.
-/

namespace MiniC

/-! ## Uses of names -/

/-- A name where an expression reads it or calls it. -/
inductive Use
  | variable (name : String)
  | call (name : String)

/-- The name that is used. -/
def Use.name : Use → String
  | .variable name | .call name => name

/-- The name that is called. -/
def Use.callee? : Use → Option String
  | .variable _ => none
  | .call name => some name

mutual

/-- The uses of names in an expression. -/
def Expr.uses : Expr → List Use
  | .literal _ _ => []
  | .list elements _ => Expr.usesAll elements
  | .variable name indices _ => .variable name :: Expr.usesIndices indices
  | .unary _ operand _ | .cast _ operand _ => operand.uses
  | .binary _ left right _ => left.uses ++ right.uses
  | .call name arguments _ => .call name :: Expr.usesAll arguments

/-- The uses of names in expressions. -/
def Expr.usesAll : List Expr → List Use
  | [] => []
  | e :: rest => e.uses ++ Expr.usesAll rest

/-- The uses of names in indices. -/
def Expr.usesIndices : List (Option Expr) → List Use
  | [] => []
  | none :: rest => Expr.usesIndices rest
  | some e :: rest => e.uses ++ Expr.usesIndices rest

end

/-- The uses of names in the dimensions and the initial value of a declaration. -/
def Declaration.uses (d : Declaration) : List Use :=
  Expr.usesIndices d.target.indices ++ d.initial.elim [] Expr.uses

/-- The uses of names in a simple statement.  What is assigned to counts as read. -/
def SimpleStatement.uses : SimpleStatement → List Use
  | .declaration d => d.uses
  | .assignment target _ value _ => value.uses ++ target.read.uses
  | .call c => c.expr.uses

/-- What is used in one of some expressions is used in all of them together. -/
theorem Expr.mem_usesAll {es : List Expr} {e : Expr} (he : e ∈ es) {u : Use} (hu : u ∈ e.uses) :
    u ∈ Expr.usesAll es := by
  induction es with
  | nil => cases he
  | cons e' rest ih =>
    rcases List.mem_cons.1 he with rfl | hrest
    · exact List.mem_append_left _ hu
    · exact List.mem_append_right _ (ih hrest)

theorem Expr.mem_usesIndices {indices : List (Option Expr)} {e : Expr} (he : some e ∈ indices)
    {u : Use} (hu : u ∈ e.uses) : u ∈ Expr.usesIndices indices := by
  induction indices with
  | nil => cases he
  | cons i rest ih =>
    rcases List.mem_cons.1 he with rfl | hrest
    · exact List.mem_append_left _ hu
    · cases i with
      | none => exact ih hrest
      | some e' => exact List.mem_append_right _ (ih hrest)

/-! ## Statements -/

/-- The name that a statement declares, if it is a declaration. -/
def Statement.declared? : Statement → Option String
  | .simple (.declaration d) => some d.target.name
  | _ => none

/-- The names in scope at a point of a program, and those of them that the innermost scope
declares. -/
structure Names where
  visible : List String
  own : List String

namespace Names

/-- At the beginning of a scope inside another one. -/
def inner (names : Names) : Names := ⟨names.visible, []⟩

/-- After a declaration. -/
def add (names : Names) (name : String) : Names := ⟨name :: names.visible, name :: names.own⟩

/-- After a statement that declares a name or none. -/
def after (names : Names) (declared : Option String) : Names := declared.elim names names.add

/-- In a `for` loop, after the first part of its header. -/
def header (names : Names) (first : Option SimpleStatement) : Names :=
  names.inner.after (first.bind fun s => Statement.declared? (.simple s))

end Names

/-- Every name that an expression uses is in scope. -/
def Expr.Scoped (names : Names) (e : Expr) : Prop := ∀ u ∈ e.uses, u.name ∈ names.visible

/-- Every name that a simple statement uses is in scope, and what it declares is new in the
innermost scope.  The declared name is not in scope in the declaration itself. -/
def SimpleStatement.Scoped (names : Names) (s : SimpleStatement) : Prop :=
  (∀ u ∈ s.uses, u.name ∈ names.visible) ∧
    ∀ name ∈ Statement.declared? (.simple s), name ∉ names.own

mutual

/-- Every name that a statement uses is in scope, no scope in it declares a name twice, and no `for`
loop declares a name after each round. -/
def Statement.Scoped (names : Names) : Statement → Prop
  | .empty | .breakLoop _ | .continueLoop _ | .returnValue none _ => True
  | .returnValue (some e) _ => e.Scoped names
  | .simple s => s.Scoped names
  | .block body _ => Statement.ScopedAll names.inner body
  | .ifElse branches otherwise _ =>
    Statement.ScopedBranches names branches ∧ Statement.ScopedOtherwise names otherwise
  | .forLoop first c step body _ =>
    (∀ s ∈ first, s.Scoped names.inner) ∧ c.Scoped (names.header first) ∧
      (∀ s ∈ step, s.Scoped (names.header first) ∧ Statement.declared? (.simple s) = none) ∧
      body.Scoped (names.header first).inner
  | .whileLoop c body _ | .doWhile body c _ => c.Scoped names ∧ body.Scoped names.inner

/-- Statements one after the other in one scope. -/
def Statement.ScopedAll (names : Names) : List Statement → Prop
  | [] => True
  | s :: rest => s.Scoped names ∧ Statement.ScopedAll (names.after s.declared?) rest

/-- Branches, each in a scope of its own. -/
def Statement.ScopedBranches (names : Names) : List (Expr × Statement) → Prop
  | [] => True
  | (c, s) :: rest =>
    c.Scoped names ∧ s.Scoped names.inner ∧ Statement.ScopedBranches names rest

/-- The last branch, if there is one. -/
def Statement.ScopedOtherwise (names : Names) : Option Statement → Prop
  | none => True
  | some s => s.Scoped names.inner

end

theorem Statement.ScopedBranches.mem {names : Names} {branches : List (Expr × Statement)}
    (h : Statement.ScopedBranches names branches) :
    ∀ b ∈ branches, b.1.Scoped names ∧ b.2.Scoped names.inner := by
  induction branches with
  | nil => exact List.forall_mem_nil _
  | cons b rest ih =>
    obtain ⟨hc, hs, hrest⟩ := h
    exact List.forall_mem_cons.2 ⟨⟨hc, hs⟩, ih hrest⟩

/-! ## Programs -/

/-- The names of the built-in functions. -/
def Builtin.names : List String := Builtin.all.map Builtin.name

/-- The names of the parameters of a function. -/
def FunctionDecl.parameterNames (f : FunctionDecl) : List String := f.parameters.map Parameter.name

/-- The statements of a function stand in a scope inside that of its parameters.  A built-in
function uses the parameters that its own declaration has. -/
def FunctionBody.Scoped (names : Names) : FunctionBody → Prop
  | .block body _ => Statement.ScopedAll names.inner body
  | .builtin b => ∀ name ∈ b.declaration.parameterNames, name ∈ names.visible

/-- A function has distinct parameters, and its body is scoped inside them. -/
def FunctionDecl.Scoped (globals : List String) (f : FunctionDecl) : Prop :=
  f.parameterNames.Nodup ∧ f.body.Scoped ⟨f.parameterNames ++ globals, f.parameterNames⟩

/-- The name that an item declares. -/
def Item.name : Item → String
  | .function f => f.name
  | .global d => d.target.name

/-- The function that an item declares. -/
def Item.function? : Item → Option FunctionDecl
  | .function f => some f
  | .global _ => none

namespace Program

/-- All names that functions can use besides their own: those of the built-in functions and of all
items, earlier or later. -/
def globals (p : Program) : List String := Builtin.names ++ p.items.map Item.name

/-- The names of the functions that a program declares. -/
def functionNames (p : Program) : List String :=
  (p.items.filterMap Item.function?).map FunctionDecl.name

/-- An item after others that declare the given names.  A function returns no array and can use all
items; a variable uses the earlier ones only and calls none of the functions. -/
def ScopedItem (p : Program) (earlier : List String) : Item → Prop
  | .function f => f.returnDims = 0 ∧ f.Scoped p.globals
  | .global d => ∀ u ∈ d.uses, u.name ∈ earlier ∧ ∀ name ∈ u.callee?, name ∉ p.functionNames

/-- Items one after the other. -/
def ScopedItems (p : Program) (earlier : List String) : List Item → Prop
  | [] => True
  | i :: rest => p.ScopedItem earlier i ∧ p.ScopedItems (i.name :: earlier) rest

/-- The items have distinct names, none of them built-in, and every item is scoped. -/
structure Scoped (p : Program) : Prop where
  distinct : p.globals.Nodup
  items : p.ScopedItems Builtin.names p.items

end Program

/-! ## Deciding scopes -/

instance (names : Names) (e : Expr) : Decidable (e.Scoped names) :=
  inferInstanceAs (Decidable (∀ u ∈ e.uses, u.name ∈ names.visible))

instance (names : Names) (s : SimpleStatement) : Decidable (s.Scoped names) :=
  inferInstanceAs (Decidable ((∀ u ∈ s.uses, u.name ∈ names.visible) ∧
    ∀ name ∈ Statement.declared? (.simple s), name ∉ names.own))

mutual

/-- Decides whether a statement is scoped. -/
def Statement.decideScoped (names : Names) : (s : Statement) → Decidable (s.Scoped names)
  | .empty | .breakLoop _ | .continueLoop _ | .returnValue none _ => .isTrue trivial
  | .returnValue (some e) _ => inferInstanceAs (Decidable (e.Scoped names))
  | .simple s => inferInstanceAs (Decidable (s.Scoped names))
  | .block body _ => Statement.decideScopedAll names.inner body
  | .ifElse branches otherwise _ =>
    @instDecidableAnd _ _ (Statement.decideScopedBranches names branches)
      (Statement.decideScopedOtherwise names otherwise)
  | .forLoop _ _ _ body _ =>
    @instDecidableAnd _ _ inferInstance (@instDecidableAnd _ _ inferInstance
      (@instDecidableAnd _ _ inferInstance (Statement.decideScoped _ body)))
  | .whileLoop _ body _ | .doWhile body _ _ =>
    @instDecidableAnd _ _ inferInstance (Statement.decideScoped names.inner body)

/-- Decides whether statements are scoped. -/
def Statement.decideScopedAll (names : Names) :
    (body : List Statement) → Decidable (Statement.ScopedAll names body)
  | [] => .isTrue trivial
  | s :: rest =>
    @instDecidableAnd _ _ (Statement.decideScoped names s)
      (Statement.decideScopedAll (names.after s.declared?) rest)

/-- Decides whether branches are scoped. -/
def Statement.decideScopedBranches (names : Names) :
    (branches : List (Expr × Statement)) → Decidable (Statement.ScopedBranches names branches)
  | [] => .isTrue trivial
  | (_, s) :: rest =>
    @instDecidableAnd _ _ inferInstance (@instDecidableAnd _ _
      (Statement.decideScoped names.inner s) (Statement.decideScopedBranches names rest))

/-- Decides whether the last branch is scoped. -/
def Statement.decideScopedOtherwise (names : Names) :
    (otherwise : Option Statement) → Decidable (Statement.ScopedOtherwise names otherwise)
  | none => .isTrue trivial
  | some s => Statement.decideScoped names.inner s

end

instance (names : Names) (s : Statement) : Decidable (s.Scoped names) := s.decideScoped names

-- the condition of a `do` loop does not see the names of the body
example :
    let x : Place := ⟨"x", [], .absent⟩
    let body : Statement := .block [.simple (.declaration ⟨.int, x, none⟩),
      .simple (.assignment x .plain x.read .absent)] .absent
    body.Scoped ⟨[], []⟩ ∧ ¬ (Statement.doWhile body x.read .absent).Scoped ⟨[], []⟩ := by
  decide

instance (names : Names) : (body : FunctionBody) → Decidable (body.Scoped names)
  | .block body _ => Statement.decideScopedAll names.inner body
  | .builtin b => inferInstanceAs (Decidable
    (∀ name ∈ b.declaration.parameterNames, name ∈ names.visible))

instance (globals : List String) (f : FunctionDecl) : Decidable (f.Scoped globals) :=
  inferInstanceAs (Decidable
    (f.parameterNames.Nodup ∧ f.body.Scoped ⟨f.parameterNames ++ globals, f.parameterNames⟩))

namespace Program

instance (p : Program) (earlier : List String) : (i : Item) → Decidable (p.ScopedItem earlier i)
  | .function f => inferInstanceAs (Decidable (f.returnDims = 0 ∧ f.Scoped p.globals))
  | .global d => inferInstanceAs (Decidable
    (∀ u ∈ d.uses, u.name ∈ earlier ∧ ∀ name ∈ u.callee?, name ∉ p.functionNames))

/-- Decides whether items are scoped. -/
def decideScopedItems (p : Program) :
    (earlier : List String) → (items : List Item) → Decidable (p.ScopedItems earlier items)
  | _, [] => .isTrue trivial
  | earlier, i :: rest =>
    @instDecidableAnd _ _ inferInstance (p.decideScopedItems (i.name :: earlier) rest)

instance (p : Program) : Decidable p.Scoped :=
  have := p.decideScopedItems Builtin.names p.items
  decidable_of_iff (p.globals.Nodup ∧ p.ScopedItems Builtin.names p.items)
    ⟨fun h => ⟨h.1, h.2⟩, fun h => ⟨h.distinct, h.items⟩⟩

end Program

end MiniC
