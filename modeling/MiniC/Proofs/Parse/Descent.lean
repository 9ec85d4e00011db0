import MiniC.Parse.Program

/-!
# Recursive descent, call by call

A `Descent` reads a stream, and it may fail to end.  `Rule` names the parsers that call each other
and `Loop` the loops in them; `Rule.body` and `Loop.iteration` say what one of them does with a
stream when every call of another is answered by `call`.  Nothing is said there about how far a call
gets, so `call` may be the running parsers, or may not end at all.  A loop goes round by calling
itself.
-/

namespace MiniC

/-- What reads a stream; `none` if it does not end. -/
def Descent (α : Type) := Stream → Option (Except SyntaxError (α × Stream))

namespace Descent

instance : Monad Descent where
  pure x := fun s => some (.ok (x, s))
  bind m next := fun s =>
    match m s with
    | none => none
    | some (.error e) => some (.error e)
    | some (.ok (x, s)) => next x s

theorem bind_of_ok {m : Descent α} {k : α → Descent β} {s s' : Stream} {x : α}
    (h : m s = some (.ok (x, s'))) : (m >>= k) s = k x s' := by
  dsimp only [Bind.bind]
  rw [h]

theorem bind_of_error {m : Descent α} {k : α → Descent β} {s : Stream} {e : SyntaxError}
    (h : m s = some (.error e)) : (m >>= k) s = some (.error e) := by
  dsimp only [Bind.bind]
  rw [h]

theorem map_bind (m : Descent α) (f : α → β) (k : β → Descent γ) :
    (f <$> m >>= k) = m >>= fun x => k (f x) := by
  funext s
  dsimp only [Functor.map, Bind.bind]
  rcases m s with - | e | ⟨x, s⟩ <;> rfl

/-- Fails. -/
def fail (e : SyntaxError) : Descent α := fun _ => some (.error e)

/-- A call on the stream. -/
def ofCall (call : Stream → Except LexicalError Lexeme × Stream) : Descent Lexeme := fun s =>
  match call s with
  | (.ok l, s) => some (.ok (l, s))
  | (.error e, _) => some (.error (.lexical e))

/-- The lexeme `n` places ahead. -/
def peek (n : Nat) : Descent Lexeme := ofCall (·.peek n)

/-- Consumes the current lexeme. -/
def advance : Descent Lexeme := ofCall Stream.advance

/-- The category of what stands behind a type, a name and its brackets. -/
def kindBehindBrackets : Descent TokenKind := fun s =>
  match Parse.currentKind s.stop (Parse.afterBrackets 0 (s.readable.drop 2)) with
  | .ok k => some (.ok (k, s))
  | .error e => some (.error (.lexical e))

/-- Fails at the current lexeme. -/
def unexpected (expected : Expected) : Descent α := do
  let l ← advance
  fail (.unexpected l expected)

/-- Consumes the current lexeme, which has to be of a category. -/
def eat (k : TokenKind) : Descent Lexeme := do
  let l ← peek 0
  if l.kind = k then advance else unexpected (.kind k)

/-- Consumes the current lexeme, which has to be one that is accepted. -/
def expect (accept : Lexeme → Option α) (expected : Expected) : Descent α := do
  let l ← advance
  match accept l with
  | some x => pure x
  | none => fail (.unexpected l expected)

/-- What follows a lexeme of a category, if the current one is of it. -/
def optionalAfter (k : TokenKind) (following : Descent α) : Descent (Option α) := do
  let l ← peek 0
  if l.kind = k then
    let _ ← advance
    some <$> following
  else
    pure none

/-- What stands in front of a closing symbol, if anything does, through that symbol. -/
def optionalThrough (closing : Symbol) (close : Descent Lexeme) (inner : Descent α) :
    Descent (Option α) := do
  let l ← peek 0
  let x ← (if l.kind = .symbol closing then pure none else some <$> inner : Descent (Option α))
  let _ ← close
  pure x

end Descent

/-! ## What is accepted -/

namespace Lexeme

/-- A name, with its lexeme. -/
def name? (l : Lexeme) : Option (String × Lexeme) :=
  match l.token with
  | .identifier name => some (name, l)
  | _ => none

/-- A type that a function can return. -/
def returnType? (l : Lexeme) : Option TypeName := TypeName.ofKind? l.kind

/-- A type that a variable can have. -/
def valueType? (l : Lexeme) : Option TypeName := l.returnType?.filter (· ≠ .void)

/-- An assignment operator, with its lexeme. -/
def assignOp? (l : Lexeme) : Option (AssignOp × Lexeme) := (AssignOp.ofKind? l.kind).map (·, l)

end Lexeme

/-! ## Rules and loops -/

/-- What lists between commas hold. -/
inductive Listed : Type → Type 1
  | expression : Listed Expr
  | parameter : Listed Parameter

/-- The loops of the parsers.  A loop goes round with some state and ends with a result. -/
inductive Loop : Type → Type → Type 1
  /-- Operators of a level and their right operands, behind a left operand. -/
  | operators (level : Level) : Loop Expr Expr
  /-- Items between commas, behind some items. -/
  | separated {α : Type} (item : Listed α) (closing : Symbol) : Loop (List α) (List α)
  | subscripts : Loop (List (Option Expr)) (List (Option Expr))
  /-- Statements of a block. -/
  | statements : Loop (List Statement) (List Statement)
  /-- The `else` branches of an `if`. -/
  | branches : Loop (List (Expr × Statement)) (List (Expr × Statement) × Option Statement)
  /-- Items of a program. -/
  | items : Loop (List Item) (List Item)

/-- The parsers, by what they parse. -/
inductive Rule : Type → Type 1
  | symbol (symbol : Symbol) : Rule Lexeme
  | keyword (word : Keyword) : Rule Lexeme
  | identifier : Rule (String × Lexeme)
  | valueType : Rule TypeName
  | expression : Rule Expr
  | binary (level : Level) : Rule Expr
  | unary : Rule Expr
  | primary : Rule Expr
  | cast : Rule Expr
  | list : Rule Expr
  | call : Rule Call
  | place : Rule Place
  | subscripts : Rule (List (Option Expr))
  | separated {α : Type} (item : Listed α) (closing : Symbol) : Rule (List α)
  | declaration : Rule Declaration
  | assignment : Rule SimpleStatement
  | simpleStatement : Rule SimpleStatement
  | parenthesized : Rule Expr
  | statement : Rule Statement
  | block : Rule (List Statement × Lexeme)
  | branch : Rule (Expr × Statement)
  | ifElse : Rule Statement
  | forLoop : Rule Statement
  | whileLoop : Rule Statement
  | doWhile : Rule Statement
  | returnValue : Rule Statement
  | parameter : Rule Parameter
  | function : Rule FunctionDecl
  | program : Rule Program
  /-- A loop, from a state on. -/
  | loop {σ α : Type} (l : Loop σ α) (state : σ) : Rule α

/-- The rule of an item. -/
def Listed.rule : Listed α → Rule α
  | .expression => .expression
  | .parameter => .parameter

/-- The rule of the operands of a level: what binds tighter. -/
def Rule.operand : Level → Rule Expr
  | .multiplicative => .unary
  | .additive => .binary .multiplicative
  | .relational => .binary .additive
  | .bitwise => .binary .relational
  | .logical => .binary .bitwise

section

variable (call : {β : Type} → Rule β → Descent β)

open Descent

/-- One round of a loop: the state to go on with, or the result. -/
def Loop.iteration : Loop σ α → σ → Descent (σ ⊕ α)
  | .operators level, left => do
    let l ← peek 0
    match BinaryOp.ofKind? l.kind with
    | none => pure (.inr left)
    | some op =>
      if op.level = level then
        let l ← advance
        let right ← call (.operand level)
        pure (.inl (.binary op left right l))
      else
        pure (.inr left)
  | .separated item closing, xs => do
    let x ← call item.rule
    let l ← advance
    if l.kind = .symbol .comma then pure (.inl (xs ++ [x]))
    else if l.kind = .symbol closing then pure (.inr (xs ++ [x]))
    else fail (.unexpected l (.commaOr closing))
  | .subscripts, is => do
    let l ← peek 0
    if l.kind = .symbol .leftBracket then
      let _ ← advance
      let i ← optionalThrough .rightBracket (call (.symbol .rightBracket)) (call .expression)
      pure (.inl (is ++ [i]))
    else
      pure (.inr is)
  | .statements, ss => do
    let l ← peek 0
    if l.kind = .symbol .rightBrace then
      let _ ← advance
      pure (.inr ss)
    else if l.kind = .endOfInput then
      unexpected (.kind (.symbol .rightBrace))
    else
      let s ← call .statement
      pure (.inl (ss ++ [s]))
  | .branches, bs => do
    let l ← peek 0
    if l.kind = .keyword .else then
      let _ ← advance
      let l ← peek 0
      if l.kind = .keyword .if then
        let _ ← advance
        let b ← call .branch
        pure (.inl (bs ++ [b]))
      else
        let s ← call .statement
        pure (.inr (bs, some s))
    else
      pure (.inr (bs, none))
  | .items, is => do
    let l ← peek 0
    if l.kind = .endOfInput then
      pure (.inr is)
    else
      let next ← kindBehindBrackets
      let i ← (if next = .symbol .leftParen then
          .function <$> call .function
        else do
          let d ← call .declaration
          let _ ← call (.symbol .semicolon)
          pure (.global d) : Descent Item)
      pure (.inl (is ++ [i]))

/-- What a parser does. -/
def Rule.body : Rule α → Descent α
  | .symbol x => eat (.symbol x)
  | .keyword w => eat (.keyword w)
  | .identifier => expect Lexeme.name? (.kind .identifier)
  | .valueType => expect Lexeme.valueType? .valueType
  | .expression => call (.binary .logical)
  | .binary level => do
    let left ← call (.operand level)
    call (.loop (.operators level) left)
  | .unary => do
    let l ← peek 0
    match UnaryOp.ofKind? l.kind with
    | some op =>
      let l ← advance
      let x ← call .unary
      pure (.unary op x l)
    | none => call .primary
  | .primary => do
    let l ← peek 0
    match Parse.literal? l.token with
    | some v =>
      let l ← advance
      pure (.literal v l)
    | none =>
      match l.kind with
      | .symbol .leftParen =>
        let next ← peek 1
        if (TypeName.ofKind? next.kind).isSome then
          call .cast
        else
          let _ ← advance
          let x ← call .expression
          let _ ← call (.symbol .rightParen)
          pure x
      | .symbol .leftBrace => call .list
      | .identifier =>
        let next ← peek 1
        if next.kind = .symbol .leftParen then Call.expr <$> call .call
        else Place.read <$> call .place
      | _ => unexpected .expression
  | .cast => do
    let l ← call (.symbol .leftParen)
    let type ← call .valueType
    let _ ← call (.symbol .rightParen)
    let x ← call .unary
    pure (.cast type x l)
  | .list => do
    let l ← call (.symbol .leftBrace)
    let xs ← call (.separated .expression .rightBrace)
    pure (.list xs l)
  | .call => do
    let (name, l) ← call .identifier
    let _ ← call (.symbol .leftParen)
    let xs ← call (.separated .expression .rightParen)
    pure ⟨name, xs, l⟩
  | .place => do
    let (name, l) ← call .identifier
    let is ← call .subscripts
    pure ⟨name, is, l⟩
  | .subscripts => call (.loop .subscripts [])
  | .separated item closing => do
    let l ← peek 0
    if l.kind = .symbol closing then
      let _ ← advance
      pure []
    else
      call (.loop (.separated item closing) [])
  | .declaration => do
    let type ← call .valueType
    let target ← call .place
    let initial ← optionalAfter (.symbol .assign) (call .expression)
    pure ⟨type, target, initial⟩
  | .assignment => do
    let target ← call .place
    let (op, l) ← expect Lexeme.assignOp? .assignOp
    let x ← call .expression
    pure (.assignment target op x l)
  | .simpleStatement => do
    let l ← peek 0
    if l.kind = .identifier then
      let next ← peek 1
      if next.kind = .symbol .leftParen then .call <$> call .call
      else call .assignment
    else if l.kind.isValueType then
      .declaration <$> call .declaration
    else
      unexpected .statement
  | .parenthesized => do
    let _ ← call (.symbol .leftParen)
    let x ← call .expression
    let _ ← call (.symbol .rightParen)
    pure x
  | .statement => do
    let l ← peek 0
    match l.kind with
    | .symbol .leftBrace => (fun (body, l) => .block body l) <$> call .block
    | .keyword .if => call .ifElse
    | .keyword .for => call .forLoop
    | .keyword .while => call .whileLoop
    | .keyword .do => call .doWhile
    | .keyword .break =>
      let l ← advance
      let _ ← call (.symbol .semicolon)
      pure (.breakLoop l)
    | .keyword .continue =>
      let l ← advance
      let _ ← call (.symbol .semicolon)
      pure (.continueLoop l)
    | .keyword .return => call .returnValue
    | .symbol .semicolon =>
      let _ ← advance
      pure .empty
    | _ =>
      let s ← call .simpleStatement
      let _ ← call (.symbol .semicolon)
      pure (.simple s)
  | .block => do
    let l ← call (.symbol .leftBrace)
    let ss ← call (.loop .statements [])
    pure (ss, l)
  | .branch => do
    let c ← call .parenthesized
    let s ← call .statement
    pure (c, s)
  | .ifElse => do
    let l ← call (.keyword .if)
    let first ← call .branch
    let (bs, otherwise) ← call (.loop .branches [first])
    pure (.ifElse bs otherwise l)
  | .forLoop => do
    let l ← call (.keyword .for)
    let _ ← call (.symbol .leftParen)
    let first ←
      optionalThrough .semicolon (call (.symbol .semicolon)) (call .simpleStatement)
    let c ← call .expression
    let _ ← call (.symbol .semicolon)
    let step ←
      optionalThrough .rightParen (call (.symbol .rightParen)) (call .simpleStatement)
    let body ← call .statement
    pure (.forLoop first c step body l)
  | .whileLoop => do
    let l ← call (.keyword .while)
    let c ← call .parenthesized
    let body ← call .statement
    pure (.whileLoop c body l)
  | .doWhile => do
    let l ← call (.keyword .do)
    let body ← call .statement
    let _ ← call (.keyword .while)
    let c ← call .parenthesized
    let _ ← call (.symbol .semicolon)
    pure (.doWhile body c l)
  | .returnValue => do
    let l ← call (.keyword .return)
    let value ← optionalThrough .semicolon (call (.symbol .semicolon)) (call .expression)
    pure (.returnValue value l)
  | .parameter => do
    let type ← call .valueType
    let p ← call .place
    pure ⟨type, p.name, p.indices.length, p.lexeme⟩
  | .function => do
    let returns ← expect Lexeme.returnType? .returnType
    let name ← call .place
    let _ ← call (.symbol .leftParen)
    let parameters ← call (.separated .parameter .rightParen)
    let (body, l) ← call .block
    pure
      { returns, name := name.name, returnDims := name.indices.length, parameters,
        body := .block body l, lexeme := name.lexeme }
  | .program => do
    let items ← call (.loop .items [])
    pure ⟨items⟩
  | .loop l state => do
    match ← l.iteration call state with
    | .inl state => call (.loop l state)
    | .inr x => pure x

end

/-- A parser whose calls go down a number of levels at most. -/
def Rule.unfold : Nat → {α : Type} → Rule α → Descent α
  | 0, _, _ => fun _ => none
  | depth + 1, _, r => r.body (Rule.unfold depth)

/-! ## What the rules parse -/

/-- The running parser of an item. -/
def Listed.parser : Listed α → Stop → (ts : List Lexeme) → Parsed ts.length α
  | .expression, stop, ts => Parse.expression stop ts
  | .parameter, stop, ts => Parse.parameter stop ts

/-- The running parser of what a loop still reads, behind its state. -/
def Loop.parser : Loop σ α → σ → Parser α
  | .operators level, left, stop, ts => Parse.operators stop level left ts
  | .separated item closing, xs, stop, ts =>
    ((Parse.itemsFrom stop closing ts fun us _ => item.parser stop us).map (xs ++ ·)).relax
  | .subscripts, is, stop, ts => (Parse.indices stop ts).map (is ++ ·)
  | .statements, ss, stop, ts => ((Parse.statements stop ts).map (ss ++ ·)).relax
  | .branches, bs, stop, ts => (Parse.elseChain stop ts).map fun c => (bs ++ c.1, c.2)
  | .items, is, stop, ts => (Parse.items stop ts).map (is ++ ·)

/-- The running parser of a rule. -/
def Rule.parser : Rule α → Parser α
  | .symbol x => .consuming fun stop ts => Parse.eat stop (.symbol x) ts
  | .keyword w => .consuming fun stop ts => Parse.eat stop (.keyword w) ts
  | .identifier => .consuming Parse.identifier
  | .valueType => .consuming Parse.valueType
  | .expression => .consuming Parse.expression
  | .binary level => .consuming fun stop ts => Parse.binary stop level ts
  | .unary => .consuming Parse.unary
  | .primary => .consuming Parse.primary
  | .cast => .consuming Parse.cast
  | .list => .consuming Parse.list
  | .call => .consuming Parse.call
  | .place => .consuming Parse.place
  | .subscripts => Parse.indices
  | .separated item closing => .consuming fun stop ts =>
    Parse.commaSeparated stop closing ts fun us _ => item.parser stop us
  | .declaration => .consuming Parse.declaration
  | .assignment => .consuming Parse.assignment
  | .simpleStatement => .consuming Parse.simpleStatement
  | .parenthesized => .consuming Parse.parenthesized
  | .statement => .consuming Parse.statement
  | .block => .consuming Parse.block
  | .branch => .consuming Parse.branch
  | .ifElse => .consuming Parse.ifElse
  | .forLoop => .consuming Parse.forLoop
  | .whileLoop => .consuming Parse.whileLoop
  | .doWhile => .consuming Parse.doWhile
  | .returnValue => .consuming Parse.returnValue
  | .parameter => .consuming Parse.parameter
  | .function => .consuming Parse.function
  | .program => fun stop ts => (Parse.items stop ts).map Program.mk
  | .loop l state => l.parser state

/-- What the running parser of a rule makes of a stream. -/
def Rule.run (r : Rule α) : Descent α := fun s =>
  match s.parse r.parser with
  | (.ok x, s) => some (.ok (x, s))
  | (.error e, _) => some (.error e)

/-! ## Which calls come first -/

/-- How high a parser stands among those that call each other without consuming: it calls lower ones
only.  Among the levels of binary operators the looser one stands higher. -/
def Rule.rank : Rule α → Nat
  | .symbol _ | .keyword _ | .identifier | .valueType => 0
  | .loop (.operators _) _ | .loop .subscripts _ | .loop .branches _ => 0
  | .place | .cast | .list | .call | .subscripts | .parameter => 1
  | .parenthesized | .block | .ifElse | .forLoop | .whileLoop | .doWhile | .returnValue => 1
  | .declaration | .function => 1
  | .primary | .assignment | .branch | .loop .items _ => 2
  | .unary | .simpleStatement | .program => 3
  | .statement => 4
  | .loop .statements _ => 5
  | .binary level => 4 + level.looseness
  | .expression => 9
  | .loop (.separated _ _) _ => 10
  | .separated _ _ => 11

/-- A call that comes with fewer lexemes of the same stream, or with as many at a lower rank. -/
def Rule.Precedes (r' : Rule β) (s' : Stream) (r : Rule α) (s : Stream) : Prop :=
  s'.last = s.last ∧ s'.entries <:+ s.entries ∧
    (s'.entries.length < s.entries.length ∨
      s'.entries.length = s.entries.length ∧ r'.rank < r.rank)

/-- How far the calls of a parser can go down: sixteen levels for each entry that is left, and as
many more as it stands high. -/
def Rule.measure (r : Rule α) (s : Stream) : Nat := 16 * s.entries.length + r.rank

end MiniC
