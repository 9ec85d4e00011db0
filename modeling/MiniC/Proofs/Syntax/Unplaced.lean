import MiniC.Syntax.Tree

/-!
# Trees without positions

`unplaced` moves every lexeme of a tree nowhere.  Two trees are equal in everything except line and
column numbers exactly if they are equal unplaced.
-/

namespace MiniC

/-- A lexeme without its place. -/
def Lexeme.unplaced (l : Lexeme) : Lexeme := { l with position := .nowhere }

@[simp] theorem Lexeme.unplaced_unplaced (l : Lexeme) : l.unplaced.unplaced = l.unplaced := rfl

theorem Lexeme.token_unplaced (l : Lexeme) : l.unplaced.token = l.token := rfl

theorem Lexeme.kind_unplaced (l : Lexeme) : l.unplaced.kind = l.kind := rfl

theorem Lexeme.unplaced_eq {l : Lexeme} {t : Token} {text : String} (ht : l.token = t)
    (hl : l.literal = text) : l.unplaced = ⟨t, text, .nowhere⟩ := by
  subst ht hl
  rfl

/-! ## Expressions -/

mutual

/-- An expression without positions. -/
def Expr.unplaced : Expr → Expr
  | .literal v l => .literal v l.unplaced
  | .list xs l => .list (Expr.unplacedAll xs) l.unplaced
  | .variable name is l => .variable name (Expr.unplacedIndices is) l.unplaced
  | .unary op x l => .unary op x.unplaced l.unplaced
  | .binary op x y l => .binary op x.unplaced y.unplaced l.unplaced
  | .cast t x l => .cast t x.unplaced l.unplaced
  | .call name xs l => .call name (Expr.unplacedAll xs) l.unplaced

/-- Expressions without positions. -/
def Expr.unplacedAll : List Expr → List Expr
  | [] => []
  | x :: xs => x.unplaced :: Expr.unplacedAll xs

/-- Indices without positions. -/
def Expr.unplacedIndices : List (Option Expr) → List (Option Expr)
  | [] => []
  | none :: is => none :: Expr.unplacedIndices is
  | some i :: is => some i.unplaced :: Expr.unplacedIndices is

end

mutual

@[simp] theorem Expr.unplaced_unplaced : (e : Expr) → e.unplaced.unplaced = e.unplaced
  | .literal _ _ => rfl
  | .list xs _ => by
    simp only [Expr.unplaced, Expr.unplacedAll_unplaced xs, Lexeme.unplaced_unplaced]
  | .variable _ is _ => by
    simp only [Expr.unplaced, Expr.unplacedIndices_unplaced is, Lexeme.unplaced_unplaced]
  | .unary _ x _ => by simp only [Expr.unplaced, Expr.unplaced_unplaced x, Lexeme.unplaced_unplaced]
  | .binary _ x y _ => by
    simp only [Expr.unplaced, Expr.unplaced_unplaced x, Expr.unplaced_unplaced y,
      Lexeme.unplaced_unplaced]
  | .cast _ x _ => by simp only [Expr.unplaced, Expr.unplaced_unplaced x, Lexeme.unplaced_unplaced]
  | .call _ xs _ => by
    simp only [Expr.unplaced, Expr.unplacedAll_unplaced xs, Lexeme.unplaced_unplaced]

theorem Expr.unplacedAll_unplaced : (xs : List Expr) →
    Expr.unplacedAll (Expr.unplacedAll xs) = Expr.unplacedAll xs
  | [] => rfl
  | x :: xs => by
    simp only [Expr.unplacedAll, Expr.unplaced_unplaced x, Expr.unplacedAll_unplaced xs]

theorem Expr.unplacedIndices_unplaced : (is : List (Option Expr)) →
    Expr.unplacedIndices (Expr.unplacedIndices is) = Expr.unplacedIndices is
  | [] => rfl
  | none :: is => by simp only [Expr.unplacedIndices, Expr.unplacedIndices_unplaced is]
  | some i :: is => by
    simp only [Expr.unplacedIndices, Expr.unplaced_unplaced i, Expr.unplacedIndices_unplaced is]

end

theorem Expr.unplacedAll_eq (xs : List Expr) : Expr.unplacedAll xs = xs.map Expr.unplaced := by
  induction xs with
  | nil => rfl
  | cons x xs ih => rw [Expr.unplacedAll, ih, List.map_cons]

theorem Expr.unplacedIndices_eq (is : List (Option Expr)) :
    Expr.unplacedIndices is = is.map (Option.map Expr.unplaced) := by
  induction is with
  | nil => rfl
  | cons i is ih =>
    cases i with
    | none | some i => rw [Expr.unplacedIndices, ih, List.map_cons]; rfl

@[simp] theorem Expr.length_unplacedIndices (is : List (Option Expr)) :
    (Expr.unplacedIndices is).length = is.length := by
  rw [unplacedIndices_eq, List.length_map]

theorem Expr.lexeme_unplaced (e : Expr) : e.unplaced.lexeme = e.lexeme.unplaced := by
  cases e <;> rfl

/-! ## Statements -/

/-- A place without positions. -/
def Place.unplaced (p : Place) : Place :=
  ⟨p.name, Expr.unplacedIndices p.indices, p.lexeme.unplaced⟩

/-- A call without positions. -/
def Call.unplaced (c : Call) : Call :=
  ⟨c.name, Expr.unplacedAll c.arguments, c.lexeme.unplaced⟩

/-- A declaration without positions. -/
def Declaration.unplaced (d : Declaration) : Declaration :=
  ⟨d.type, d.target.unplaced, d.initial.map Expr.unplaced⟩

/-- A simple statement without positions. -/
def SimpleStatement.unplaced : SimpleStatement → SimpleStatement
  | .declaration d => .declaration d.unplaced
  | .assignment target op x l => .assignment target.unplaced op x.unplaced l.unplaced
  | .call c => .call c.unplaced

@[simp] theorem Place.unplaced_unplaced (p : Place) : p.unplaced.unplaced = p.unplaced := by
  simp only [Place.unplaced, Expr.unplacedIndices_unplaced, Lexeme.unplaced_unplaced]

@[simp] theorem Call.unplaced_unplaced (c : Call) : c.unplaced.unplaced = c.unplaced := by
  simp only [Call.unplaced, Expr.unplacedAll_unplaced, Lexeme.unplaced_unplaced]

theorem optionMap_idempotent {α : Type} {f : α → α} (hf : ∀ x, f (f x) = f x)
    (o : Option α) : (o.map f).map f = o.map f := by
  cases o with
  | none => rfl
  | some x => exact congrArg some (hf x)

@[simp] theorem Declaration.unplaced_unplaced (d : Declaration) :
    d.unplaced.unplaced = d.unplaced := by
  simp only [Declaration.unplaced, Place.unplaced_unplaced,
    optionMap_idempotent Expr.unplaced_unplaced]

@[simp] theorem SimpleStatement.unplaced_unplaced (s : SimpleStatement) :
    s.unplaced.unplaced = s.unplaced := by
  cases s with
  | declaration d => simp only [SimpleStatement.unplaced, Declaration.unplaced_unplaced]
  | assignment target op x l =>
    simp only [SimpleStatement.unplaced, Place.unplaced_unplaced, Expr.unplaced_unplaced,
      Lexeme.unplaced_unplaced]
  | call c => simp only [SimpleStatement.unplaced, Call.unplaced_unplaced]

mutual

/-- A statement without positions. -/
def Statement.unplaced : Statement → Statement
  | .empty => .empty
  | .simple s => .simple s.unplaced
  | .block body l => .block (Statement.unplacedAll body) l.unplaced
  | .ifElse branches otherwise l =>
    .ifElse (Statement.unplacedBranches branches) (Statement.unplacedOtherwise otherwise) l.unplaced
  | .forLoop first c step body l =>
    .forLoop (first.map SimpleStatement.unplaced) c.unplaced (step.map SimpleStatement.unplaced)
      body.unplaced l.unplaced
  | .whileLoop c body l => .whileLoop c.unplaced body.unplaced l.unplaced
  | .doWhile body c l => .doWhile body.unplaced c.unplaced l.unplaced
  | .breakLoop l => .breakLoop l.unplaced
  | .continueLoop l => .continueLoop l.unplaced
  | .returnValue x l => .returnValue (x.map Expr.unplaced) l.unplaced

/-- Statements without positions. -/
def Statement.unplacedAll : List Statement → List Statement
  | [] => []
  | s :: body => s.unplaced :: Statement.unplacedAll body

/-- Branches without positions. -/
def Statement.unplacedBranches : List (Expr × Statement) → List (Expr × Statement)
  | [] => []
  | (c, s) :: branches => (c.unplaced, s.unplaced) :: Statement.unplacedBranches branches

/-- The last branch without positions. -/
def Statement.unplacedOtherwise : Option Statement → Option Statement
  | none => none
  | some s => some s.unplaced

end

mutual

@[simp] theorem Statement.unplaced_unplaced : (s : Statement) → s.unplaced.unplaced = s.unplaced
  | .empty => rfl
  | .simple s => by simp only [Statement.unplaced, SimpleStatement.unplaced_unplaced]
  | .block body _ => by
    simp only [Statement.unplaced, Statement.unplacedAll_unplaced body, Lexeme.unplaced_unplaced]
  | .ifElse branches otherwise _ => by
    simp only [Statement.unplaced, Statement.unplacedBranches_unplaced branches,
      Statement.unplacedOtherwise_unplaced otherwise, Lexeme.unplaced_unplaced]
  | .forLoop _ _ _ body _ => by
    simp only [Statement.unplaced, Expr.unplaced_unplaced, Statement.unplaced_unplaced body,
      optionMap_idempotent SimpleStatement.unplaced_unplaced, Lexeme.unplaced_unplaced]
  | .whileLoop _ body _ | .doWhile body _ _ => by
    simp only [Statement.unplaced, Expr.unplaced_unplaced, Statement.unplaced_unplaced body,
      Lexeme.unplaced_unplaced]
  | .breakLoop _ | .continueLoop _ => rfl
  | .returnValue _ _ => by
    simp only [Statement.unplaced, optionMap_idempotent Expr.unplaced_unplaced,
      Lexeme.unplaced_unplaced]

theorem Statement.unplacedAll_unplaced : (body : List Statement) →
    Statement.unplacedAll (Statement.unplacedAll body) = Statement.unplacedAll body
  | [] => rfl
  | s :: body => by
    simp only [Statement.unplacedAll, Statement.unplaced_unplaced s,
      Statement.unplacedAll_unplaced body]

theorem Statement.unplacedBranches_unplaced : (branches : List (Expr × Statement)) →
    Statement.unplacedBranches (Statement.unplacedBranches branches) =
      Statement.unplacedBranches branches
  | [] => rfl
  | (c, s) :: branches => by
    simp only [Statement.unplacedBranches, Expr.unplaced_unplaced c, Statement.unplaced_unplaced s,
      Statement.unplacedBranches_unplaced branches]

theorem Statement.unplacedOtherwise_unplaced : (otherwise : Option Statement) →
    Statement.unplacedOtherwise (Statement.unplacedOtherwise otherwise) =
      Statement.unplacedOtherwise otherwise
  | none => rfl
  | some s => by simp only [Statement.unplacedOtherwise, Statement.unplaced_unplaced s]

end

/-! ## Programs -/

/-- A parameter without positions. -/
def Parameter.unplaced (x : Parameter) : Parameter := { x with lexeme := x.lexeme.unplaced }

/-- A body without positions. -/
def FunctionBody.unplaced : FunctionBody → FunctionBody
  | .block body l => .block (Statement.unplacedAll body) l.unplaced
  | .builtin b => .builtin b

/-- A function without positions. -/
def FunctionDecl.unplaced (f : FunctionDecl) : FunctionDecl :=
  { f with
    parameters := f.parameters.map Parameter.unplaced
    body := f.body.unplaced
    lexeme := f.lexeme.unplaced }

/-- An item without positions. -/
def Item.unplaced : Item → Item
  | .function f => .function f.unplaced
  | .global d => .global d.unplaced

/-- A program without positions. -/
def Program.unplaced (p : Program) : Program := ⟨p.items.map Item.unplaced⟩

@[simp] theorem FunctionBody.unplaced_unplaced (b : FunctionBody) :
    b.unplaced.unplaced = b.unplaced := by
  cases b with
  | block body l =>
    simp only [FunctionBody.unplaced, Statement.unplacedAll_unplaced, Lexeme.unplaced_unplaced]
  | builtin b => rfl

@[simp] theorem FunctionDecl.unplaced_unplaced (f : FunctionDecl) :
    f.unplaced.unplaced = f.unplaced := by
  have hparameters : (f.parameters.map Parameter.unplaced).map Parameter.unplaced =
      f.parameters.map Parameter.unplaced := by
    rw [List.map_map]
    rfl
  simp only [FunctionDecl.unplaced, hparameters, FunctionBody.unplaced_unplaced,
    Lexeme.unplaced_unplaced]

@[simp] theorem Item.unplaced_unplaced (i : Item) : i.unplaced.unplaced = i.unplaced := by
  cases i with
  | function f => simp only [Item.unplaced, FunctionDecl.unplaced_unplaced]
  | global d => simp only [Item.unplaced, Declaration.unplaced_unplaced]

end MiniC
