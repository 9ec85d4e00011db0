import MiniC.Syntax.Tree

/-!
# Equality of trees

Two trees are the same if they agree node by node, lexemes with their places included.  Float
payloads compare as numbers.
-/

namespace MiniC

/-- Element by element, and equally long. -/
def sameList (same : α → α → Bool) : List α → List α → Bool
  | [], [] => true
  | x :: xs, y :: ys => same x y && sameList same xs ys
  | _, _ => false

/-- Both absent, or both present and the same. -/
def sameOption (same : α → α → Bool) : Option α → Option α → Bool
  | none, none => true
  | some x, some y => same x y
  | _, _ => false

/-- Equal literals. -/
def Literal.same : Literal → Literal → Bool
  | .int m, .int n => m == n
  | .float x, .float y => x == y
  | .string s, .string t => s == t
  | _, _ => false

mutual

/-- Equal expressions. -/
def Expr.same : Expr → Expr → Bool
  | .literal v l, .literal w m => v.same w && l.same m
  | .list xs l, .list ys m => Expr.sameAll xs ys && l.same m
  | .variable x is l, .variable y js m => x == y && Expr.sameIndices is js && l.same m
  | .unary op x l, .unary op' y m => op == op' && Expr.same x y && l.same m
  | .binary op x x' l, .binary op' y y' m =>
    op == op' && Expr.same x y && Expr.same x' y' && l.same m
  | .cast t x l, .cast u y m => t == u && Expr.same x y && l.same m
  | .call f xs l, .call g ys m => f == g && Expr.sameAll xs ys && l.same m
  | _, _ => false

/-- Equal lists of expressions. -/
def Expr.sameAll : List Expr → List Expr → Bool
  | [], [] => true
  | x :: xs, y :: ys => Expr.same x y && Expr.sameAll xs ys
  | _, _ => false

/-- Equal indices. -/
def Expr.sameIndices : List (Option Expr) → List (Option Expr) → Bool
  | [], [] => true
  | none :: xs, none :: ys => Expr.sameIndices xs ys
  | some x :: xs, some y :: ys => Expr.same x y && Expr.sameIndices xs ys
  | _, _ => false

end

/-- Equal places. -/
def Place.same (p q : Place) : Bool :=
  p.name == q.name && Expr.sameIndices p.indices q.indices && p.lexeme.same q.lexeme

/-- Equal calls. -/
def Call.same (c d : Call) : Bool :=
  c.name == d.name && Expr.sameAll c.arguments d.arguments && c.lexeme.same d.lexeme

/-- Equal declarations. -/
def Declaration.same (c d : Declaration) : Bool :=
  c.type == d.type && c.target.same d.target && sameOption Expr.same c.initial d.initial

/-- Equal simple statements. -/
def SimpleStatement.same : SimpleStatement → SimpleStatement → Bool
  | .declaration c, .declaration d => c.same d
  | .assignment p op x l, .assignment q op' y m => p.same q && op == op' && x.same y && l.same m
  | .call c, .call d => c.same d
  | _, _ => false

mutual

/-- Equal statements. -/
def Statement.same : Statement → Statement → Bool
  | .empty, .empty => true
  | .simple s, .simple t => s.same t
  | .block xs l, .block ys m => Statement.sameAll xs ys && l.same m
  | .ifElse bs o l, .ifElse cs p m =>
    Statement.sameBranches bs cs && Statement.sameOtherwise o p && l.same m
  | .forLoop a c s b l, .forLoop a' c' s' b' m =>
    sameOption SimpleStatement.same a a' && c.same c' && sameOption SimpleStatement.same s s'
      && Statement.same b b' && l.same m
  | .whileLoop c b l, .whileLoop c' b' m => c.same c' && Statement.same b b' && l.same m
  | .doWhile b c l, .doWhile b' c' m => Statement.same b b' && c.same c' && l.same m
  | .breakLoop l, .breakLoop m => l.same m
  | .continueLoop l, .continueLoop m => l.same m
  | .returnValue v l, .returnValue w m => sameOption Expr.same v w && l.same m
  | _, _ => false

/-- Equal lists of statements. -/
def Statement.sameAll : List Statement → List Statement → Bool
  | [], [] => true
  | x :: xs, y :: ys => Statement.same x y && Statement.sameAll xs ys
  | _, _ => false

/-- Equal branches of an `if`. -/
def Statement.sameBranches : List (Expr × Statement) → List (Expr × Statement) → Bool
  | [], [] => true
  | (c, s) :: xs, (d, t) :: ys => c.same d && Statement.same s t && Statement.sameBranches xs ys
  | _, _ => false

/-- Equal `else` branches. -/
def Statement.sameOtherwise : Option Statement → Option Statement → Bool
  | none, none => true
  | some s, some t => Statement.same s t
  | _, _ => false

end

/-- Equal parameters. -/
def Parameter.same (p q : Parameter) : Bool :=
  p.type == q.type && p.name == q.name && p.dims == q.dims && p.lexeme.same q.lexeme

/-- Equal bodies. -/
def FunctionBody.same : FunctionBody → FunctionBody → Bool
  | .block xs l, .block ys m => Statement.sameAll xs ys && l.same m
  | .builtin a, .builtin b => a == b
  | _, _ => false

/-- Equal function declarations. -/
def FunctionDecl.same (f g : FunctionDecl) : Bool :=
  f.returns == g.returns && f.name == g.name && f.returnDims == g.returnDims
    && sameList Parameter.same f.parameters g.parameters && f.body.same g.body
    && f.lexeme.same g.lexeme

end MiniC
