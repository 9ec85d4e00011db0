import MiniC.Parse.Expr

/-!
# The grammar

Which lexemes are which tree.  Every predicate is a rule of the grammar, `IsExpr tier ls e` for
instance says that the lexemes `ls` are the expression `e`.  An expression is read at a tier: the
five levels of binary operators, which associate to the left, then the operators in front of an
operand, then operands without operators.  An `else` belongs to the nearest `if` that is open.
-/

namespace MiniC

/-- How tightly what stands at a place in an expression has to bind. -/
inductive Tier
  | binary (level : Level)
  | unary
  | primary

namespace Tier

/-- The tier of the operands of a level. -/
def operand : Level → Tier
  | .multiplicative => .unary
  | .additive => .binary .multiplicative
  | .relational => .binary .additive
  | .bitwise => .binary .relational
  | .logical => .binary .bitwise

/-- The tier of a whole expression. -/
abbrev expression : Tier := .binary .logical

/-- Whether an expression at a tier can be one with the operator outside all parentheses. -/
def admits : Tier → BinaryOp → Bool
  | .binary level, op => op.level.looseness ≤ level.looseness
  | .unary, _ | .primary, _ => false

end Tier

/-- Whether an `else` after a statement would belong to it: it ends with an `if` that has none. -/
def Statement.isOpen : Statement → Bool
  | .ifElse _ none _ => true
  | .ifElse _ (some s) _ => s.isOpen
  | .forLoop _ _ _ body _ | .whileLoop _ body _ => body.isOpen
  | .empty | .simple _ | .block _ _ | .doWhile _ _ _ | .breakLoop _ | .continueLoop _
  | .returnValue _ _ => false

/-- Whether a statement is an `if`. -/
def Statement.isIf : Statement → Bool
  | .ifElse _ _ _ => true
  | _ => false

namespace Grammar

variable {α : Type}

/-- `item ("," item)*` -/
inductive IsItemsFrom (IsItem : List Lexeme → α → Prop) : List Lexeme → List α → Prop
  | one {ls : List Lexeme} {x : α} (hx : IsItem ls x) : IsItemsFrom IsItem ls [x]
  | more {ls ls' : List Lexeme} {x : α} {xs : List α} {comma : Lexeme} (hx : IsItem ls x)
      (hcomma : comma.kind = .symbol .comma) (hxs : IsItemsFrom IsItem ls' xs) :
      IsItemsFrom IsItem (ls ++ comma :: ls') (x :: xs)

/-- `(item ("," item)*)?` -/
inductive IsSeparated (IsItem : List Lexeme → α → Prop) : List Lexeme → List α → Prop
  | none : IsSeparated IsItem [] []
  | some {ls : List Lexeme} {xs : List α} (hxs : IsItemsFrom IsItem ls xs) :
      IsSeparated IsItem ls xs

/-- `item?` -/
inductive IsOptional (IsItem : List Lexeme → α → Prop) : List Lexeme → Option α → Prop
  | none : IsOptional IsItem [] none
  | some {ls : List Lexeme} {x : α} (hx : IsItem ls x) : IsOptional IsItem ls (some x)

/-! ## Expressions -/

mutual

/--
    level   := operand (operator operand)*
    unary   := ("-" | "~" | "!") unary | primary
    primary := literal | "(" expression ")" | "(" type ")" unary | "{" expressions "}"
             | name "(" expressions ")" | name indices
-/
inductive IsExpr : Tier → List Lexeme → Expr → Prop
  | level {level : Level} {ls ls' : List Lexeme} {left e : Expr}
      (hleft : IsExpr (.operand level) ls left) (he : IsOperators level left ls' e) :
      IsExpr (.binary level) (ls ++ ls') e
  | operator {l : Lexeme} {op : UnaryOp} {ls : List Lexeme} {x : Expr}
      (hop : UnaryOp.ofKind? l.kind = some op) (hx : IsExpr .unary ls x) :
      IsExpr .unary (l :: ls) (.unary op x l)
  | primary {ls : List Lexeme} {e : Expr} (he : IsExpr .primary ls e) : IsExpr .unary ls e
  | literal {l : Lexeme} {v : Literal} (hv : Parse.literal? l.token = some v) :
      IsExpr .primary [l] (.literal v l)
  | parenthesized {l r : Lexeme} {ls : List Lexeme} {e : Expr}
      (hl : l.kind = .symbol .leftParen) (he : IsExpr .expression ls e)
      (hr : r.kind = .symbol .rightParen) : IsExpr .primary (l :: (ls ++ [r])) e
  | cast {l t r : Lexeme} {type : TypeName} {ls : List Lexeme} {x : Expr}
      (hl : l.kind = .symbol .leftParen) (ht : TypeName.ofKind? t.kind = some type)
      (hvoid : type ≠ .void) (hr : r.kind = .symbol .rightParen) (hx : IsExpr .unary ls x) :
      IsExpr .primary (l :: t :: r :: ls) (.cast type x l)
  | list {l r : Lexeme} {ls : List Lexeme} {xs : List Expr} (hl : l.kind = .symbol .leftBrace)
      (hxs : IsSeparated (IsExpr .expression) ls xs) (hr : r.kind = .symbol .rightBrace) :
      IsExpr .primary (l :: (ls ++ [r])) (.list xs l)
  | call {l p r : Lexeme} {name : String} {ls : List Lexeme} {xs : List Expr}
      (hl : l.token = .identifier name) (hp : p.kind = .symbol .leftParen)
      (hxs : IsSeparated (IsExpr .expression) ls xs) (hr : r.kind = .symbol .rightParen) :
      IsExpr .primary (l :: p :: (ls ++ [r])) (.call name xs l)
  | variable {l : Lexeme} {name : String} {ls : List Lexeme} {is : List (Option Expr)}
      (hl : l.token = .identifier name) (his : IsIndices ls is) :
      IsExpr .primary (l :: ls) (.variable name is l)

/-- `(operator operand)*` after a left operand. -/
inductive IsOperators : Level → Expr → List Lexeme → Expr → Prop
  | none {level : Level} {left : Expr} : IsOperators level left [] left
  | some {level : Level} {left right e : Expr} {l : Lexeme} {op : BinaryOp}
      {ls ls' : List Lexeme} (hop : BinaryOp.ofKind? l.kind = some op) (hlevel : op.level = level)
      (hright : IsExpr (.operand level) ls right)
      (he : IsOperators level (.binary op left right l) ls' e) :
      IsOperators level left (l :: (ls ++ ls')) e

/-- `("[" expression? "]")*` -/
inductive IsIndices : List Lexeme → List (Option Expr) → Prop
  | none : IsIndices [] []
  | empty {l r : Lexeme} {ls : List Lexeme} {is : List (Option Expr)}
      (hl : l.kind = .symbol .leftBracket) (hr : r.kind = .symbol .rightBracket)
      (his : IsIndices ls is) : IsIndices (l :: r :: ls) (none :: is)
  | index {l r : Lexeme} {ls ls' : List Lexeme} {i : Expr} {is : List (Option Expr)}
      (hl : l.kind = .symbol .leftBracket) (hi : IsExpr .expression ls i)
      (hr : r.kind = .symbol .rightBracket) (his : IsIndices ls' is) :
      IsIndices (l :: (ls ++ r :: ls')) (some i :: is)

end

/-- `name indices` -/
inductive IsPlace : List Lexeme → Place → Prop
  | mk {l : Lexeme} {name : String} {ls : List Lexeme} {is : List (Option Expr)}
      (hl : l.token = .identifier name) (his : IsIndices ls is) : IsPlace (l :: ls) ⟨name, is, l⟩

/-- `name "(" expressions ")"` -/
inductive IsCall : List Lexeme → Call → Prop
  | mk {l p r : Lexeme} {name : String} {ls : List Lexeme} {xs : List Expr}
      (hl : l.token = .identifier name) (hp : p.kind = .symbol .leftParen)
      (hxs : IsSeparated (IsExpr .expression) ls xs) (hr : r.kind = .symbol .rightParen) :
      IsCall (l :: p :: (ls ++ [r])) ⟨name, xs, l⟩

/-! ## Statements -/

/-- `type name indices ("=" expression)?`, where the type is not `void`. -/
inductive IsDeclaration : List Lexeme → Declaration → Prop
  | plain {t : Lexeme} {type : TypeName} {ls : List Lexeme} {p : Place}
      (ht : TypeName.ofKind? t.kind = some type) (hvoid : type ≠ .void) (hp : IsPlace ls p) :
      IsDeclaration (t :: ls) ⟨type, p, none⟩
  | initialized {t l : Lexeme} {type : TypeName} {ls ls' : List Lexeme} {p : Place} {x : Expr}
      (ht : TypeName.ofKind? t.kind = some type) (hvoid : type ≠ .void) (hp : IsPlace ls p)
      (hl : l.kind = .symbol .assign) (hx : IsExpr .expression ls' x) :
      IsDeclaration (t :: (ls ++ l :: ls')) ⟨type, p, some x⟩

/-- `declaration | place operator expression | call` -/
inductive IsSimple : List Lexeme → SimpleStatement → Prop
  | declaration {ls : List Lexeme} {d : Declaration} (hd : IsDeclaration ls d) :
      IsSimple ls (.declaration d)
  | assignment {ls ls' : List Lexeme} {l : Lexeme} {target : Place} {op : AssignOp} {x : Expr}
      (htarget : IsPlace ls target) (hop : AssignOp.ofKind? l.kind = some op)
      (hx : IsExpr .expression ls' x) : IsSimple (ls ++ l :: ls') (.assignment target op x l)
  | call {ls : List Lexeme} {c : Call} (hc : IsCall ls c) : IsSimple ls (.call c)

/-- `"(" expression ")"` -/
inductive IsCondition : List Lexeme → Expr → Prop
  | mk {l r : Lexeme} {ls : List Lexeme} {c : Expr} (hl : l.kind = .symbol .leftParen)
      (hc : IsExpr .expression ls c) (hr : r.kind = .symbol .rightParen) :
      IsCondition (l :: (ls ++ [r])) c

mutual

/--
    statement := ";" | simple ";" | "{" statement* "}"
               | "if" condition statement else_chain
               | "for" "(" simple? ";" expression ";" simple? ")" statement
               | "while" condition statement | "do" statement "while" condition ";"
               | "break" ";" | "continue" ";" | "return" expression? ";"

What an `if` guards is not open if an `else` of its own follows. -/
inductive IsStatement : List Lexeme → Statement → Prop
  | empty {l : Lexeme} (hl : l.kind = .symbol .semicolon) : IsStatement [l] .empty
  | simple {ls : List Lexeme} {s : SimpleStatement} {l : Lexeme} (hs : IsSimple ls s)
      (hl : l.kind = .symbol .semicolon) : IsStatement (ls ++ [l]) (.simple s)
  | block {l r : Lexeme} {ls : List Lexeme} {body : List Statement}
      (hl : l.kind = .symbol .leftBrace) (hbody : IsStatements ls body)
      (hr : r.kind = .symbol .rightBrace) : IsStatement (l :: (ls ++ [r])) (.block body l)
  | ifElse {l : Lexeme} {cs ls ls' : List Lexeme} {c : Expr} {s : Statement}
      {more : List (Expr × Statement)} {otherwise : Option Statement}
      (hl : l.kind = .keyword .if) (hc : IsCondition cs c) (hs : IsStatement ls s)
      (hmore : IsElseChain ls' more otherwise) (hnearest : ls' = [] ∨ s.isOpen = false) :
      IsStatement (l :: (cs ++ (ls ++ ls'))) (.ifElse ((c, s) :: more) otherwise l)
  | forLoop {l p semi semi' r : Lexeme} {fs cs ss ls : List Lexeme}
      {first step : Option SimpleStatement} {c : Expr} {body : Statement}
      (hl : l.kind = .keyword .for) (hp : p.kind = .symbol .leftParen)
      (hfirst : IsOptional IsSimple fs first) (hsemi : semi.kind = .symbol .semicolon)
      (hc : IsExpr .expression cs c) (hsemi' : semi'.kind = .symbol .semicolon)
      (hstep : IsOptional IsSimple ss step) (hr : r.kind = .symbol .rightParen)
      (hbody : IsStatement ls body) :
      IsStatement (l :: p :: (fs ++ semi :: (cs ++ semi' :: (ss ++ r :: ls))))
        (.forLoop first c step body l)
  | whileLoop {l : Lexeme} {cs ls : List Lexeme} {c : Expr} {body : Statement}
      (hl : l.kind = .keyword .while) (hc : IsCondition cs c) (hbody : IsStatement ls body) :
      IsStatement (l :: (cs ++ ls)) (.whileLoop c body l)
  | doWhile {l w semi : Lexeme} {ls cs : List Lexeme} {body : Statement} {c : Expr}
      (hl : l.kind = .keyword .do) (hbody : IsStatement ls body) (hw : w.kind = .keyword .while)
      (hc : IsCondition cs c) (hsemi : semi.kind = .symbol .semicolon) :
      IsStatement (l :: (ls ++ w :: (cs ++ [semi]))) (.doWhile body c l)
  | breakLoop {l semi : Lexeme} (hl : l.kind = .keyword .break)
      (hsemi : semi.kind = .symbol .semicolon) : IsStatement [l, semi] (.breakLoop l)
  | continueLoop {l semi : Lexeme} (hl : l.kind = .keyword .continue)
      (hsemi : semi.kind = .symbol .semicolon) : IsStatement [l, semi] (.continueLoop l)
  | returnValue {l semi : Lexeme} {ls : List Lexeme} {x : Option Expr}
      (hl : l.kind = .keyword .return) (hx : IsOptional (IsExpr .expression) ls x)
      (hsemi : semi.kind = .symbol .semicolon) :
      IsStatement (l :: (ls ++ [semi])) (.returnValue x l)

/-- `statement*` -/
inductive IsStatements : List Lexeme → List Statement → Prop
  | none : IsStatements [] []
  | more {ls ls' : List Lexeme} {s : Statement} {body : List Statement} (hs : IsStatement ls s)
      (hbody : IsStatements ls' body) : IsStatements (ls ++ ls') (s :: body)

/-- `("else" "if" condition statement)* ("else" statement)?`; an `if` after `else` goes on with the
chain. -/
inductive IsElseChain :
    List Lexeme → List (Expr × Statement) → Option Statement → Prop
  | none : IsElseChain [] [] none
  | elseIf {e i : Lexeme} {cs ls ls' : List Lexeme} {c : Expr} {s : Statement}
      {more : List (Expr × Statement)} {otherwise : Option Statement}
      (he : e.kind = .keyword .else) (hi : i.kind = .keyword .if) (hc : IsCondition cs c)
      (hs : IsStatement ls s) (hmore : IsElseChain ls' more otherwise)
      (hnearest : ls' = [] ∨ s.isOpen = false) :
      IsElseChain (e :: i :: (cs ++ (ls ++ ls'))) ((c, s) :: more) otherwise
  | last {e : Lexeme} {ls : List Lexeme} {s : Statement} (he : e.kind = .keyword .else)
      (hs : IsStatement ls s) (hif : s.isIf = false) : IsElseChain (e :: ls) [] (some s)

end

/-! ## Programs -/

/-- `type name indices`, where the type is not `void`. -/
inductive IsParameter : List Lexeme → Parameter → Prop
  | mk {t : Lexeme} {type : TypeName} {ls : List Lexeme} {p : Place}
      (ht : TypeName.ofKind? t.kind = some type) (hvoid : type ≠ .void) (hp : IsPlace ls p) :
      IsParameter (t :: ls) ⟨type, p.name, p.indices.length, p.lexeme⟩

/-- `type name indices "(" parameters ")" "{" statement* "}"` -/
inductive IsFunction : List Lexeme → FunctionDecl → Prop
  | mk {t l r b e : Lexeme} {returns : TypeName} {ls ps bs : List Lexeme} {p : Place}
      {parameters : List Parameter} {body : List Statement}
      (ht : TypeName.ofKind? t.kind = some returns) (hp : IsPlace ls p)
      (hl : l.kind = .symbol .leftParen) (hparameters : IsSeparated IsParameter ps parameters)
      (hr : r.kind = .symbol .rightParen) (hb : b.kind = .symbol .leftBrace)
      (hbody : IsStatements bs body) (he : e.kind = .symbol .rightBrace) :
      IsFunction (t :: (ls ++ l :: (ps ++ r :: b :: (bs ++ [e]))))
        ⟨returns, p.name, p.indices.length, parameters, .block body b, p.lexeme⟩

/-- `declaration ";"` -/
inductive IsGlobal : List Lexeme → Declaration → Prop
  | mk {ls : List Lexeme} {d : Declaration} {semi : Lexeme} (hd : IsDeclaration ls d)
      (hsemi : semi.kind = .symbol .semicolon) : IsGlobal (ls ++ [semi]) d

/-- `function | global` -/
inductive IsItem : List Lexeme → Item → Prop
  | function {ls : List Lexeme} {f : FunctionDecl} (hf : IsFunction ls f) : IsItem ls (.function f)
  | global {ls : List Lexeme} {d : Declaration} (hd : IsGlobal ls d) : IsItem ls (.global d)

/-- `item*` -/
inductive IsItems : List Lexeme → List Item → Prop
  | none : IsItems [] []
  | more {ls ls' : List Lexeme} {i : Item} {items : List Item} (hi : IsItem ls i)
      (hitems : IsItems ls' items) : IsItems (ls ++ ls') (i :: items)

end Grammar

end MiniC
