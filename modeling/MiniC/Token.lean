/-!
# Tokens

The categories of lexemes.  A keyword or a symbol has one spelling; a literal or an identifier
carries what its spelling means.  `TokenKind` forgets that payload: it is what the grammar looks at
and what syntax errors name.
-/

namespace MiniC

/-- The reserved words. -/
inductive Keyword
  | int | float | string | void
  | if | else | for | while | do
  | break | continue | return
deriving DecidableEq, Inhabited

namespace Keyword

/-- All reserved words. -/
def all : List Keyword :=
  [.int, .float, .string, .void, .if, .else, .for, .while, .do, .break, .continue, .return]

/-- How a reserved word is written. -/
def text : Keyword → String
  | .int => "int"
  | .float => "float"
  | .string => "string"
  | .void => "void"
  | .if => "if"
  | .else => "else"
  | .for => "for"
  | .while => "while"
  | .do => "do"
  | .break => "break"
  | .continue => "continue"
  | .return => "return"

/-- The reserved word with the given spelling. -/
def ofText? (s : String) : Option Keyword :=
  all.find? (·.text == s)

end Keyword

/-- Operators and punctuation. -/
inductive Symbol
  | plus | minus | star | slash | percent
  | ampersand | pipe | caret | tilde | shiftLeft | shiftRight
  | andAnd | orOr | bang
  | equalEqual | notEqual | less | lessEqual | greater | greaterEqual
  | assign | plusAssign | minusAssign | starAssign | slashAssign | percentAssign
  | ampersandAssign | pipeAssign | caretAssign | shiftLeftAssign | shiftRightAssign
  | leftParen | rightParen | leftBrace | rightBrace | leftBracket | rightBracket
  | comma | semicolon
deriving DecidableEq, Inhabited

namespace Symbol

/-- The characters of a symbol. -/
def chars : Symbol → List Char
  | .plus => ['+']
  | .minus => ['-']
  | .star => ['*']
  | .slash => ['/']
  | .percent => ['%']
  | .ampersand => ['&']
  | .pipe => ['|']
  | .caret => ['^']
  | .tilde => ['~']
  | .shiftLeft => ['<', '<']
  | .shiftRight => ['>', '>']
  | .andAnd => ['&', '&']
  | .orOr => ['|', '|']
  | .bang => ['!']
  | .equalEqual => ['=', '=']
  | .notEqual => ['!', '=']
  | .less => ['<']
  | .lessEqual => ['<', '=']
  | .greater => ['>']
  | .greaterEqual => ['>', '=']
  | .assign => ['=']
  | .plusAssign => ['+', '=']
  | .minusAssign => ['-', '=']
  | .starAssign => ['*', '=']
  | .slashAssign => ['/', '=']
  | .percentAssign => ['%', '=']
  | .ampersandAssign => ['&', '=']
  | .pipeAssign => ['|', '=']
  | .caretAssign => ['^', '=']
  | .shiftLeftAssign => ['<', '<', '=']
  | .shiftRightAssign => ['>', '>', '=']
  | .leftParen => ['(']
  | .rightParen => [')']
  | .leftBrace => ['\x7b']
  | .rightBrace => ['\x7d']
  | .leftBracket => ['[']
  | .rightBracket => [']']
  | .comma => [',']
  | .semicolon => [';']

/-- How a symbol is written. -/
def text (s : Symbol) : String :=
  String.ofList s.chars

/-- All symbols, longer spellings before shorter ones. -/
def longestFirst : List Symbol :=
  [.shiftLeftAssign, .shiftRightAssign,
   .shiftLeft, .shiftRight, .andAnd, .orOr,
   .equalEqual, .notEqual, .lessEqual, .greaterEqual,
   .plusAssign, .minusAssign, .starAssign, .slashAssign, .percentAssign,
   .ampersandAssign, .pipeAssign, .caretAssign,
   .plus, .minus, .star, .slash, .percent, .ampersand, .pipe, .caret, .tilde, .bang,
   .less, .greater, .assign,
   .leftParen, .rightParen, .leftBrace, .rightBrace, .leftBracket, .rightBracket,
   .comma, .semicolon]

/-- The longest symbol that a text begins with. -/
def read? (text : List Char) : Option Symbol :=
  longestFirst.find? (·.chars.isPrefixOf text)

end Symbol

/-- A token: the category of a lexeme with the meaning of its spelling. -/
inductive Token
  | floatLiteral (value : Float)
  | intLiteral (value : Int64)
  | stringLiteral (raw : String)
  | identifier (name : String)
  | keyword (word : Keyword)
  | symbol (symbol : Symbol)
  | endOfInput
deriving Inhabited

/-- The category of a token, without the payload of literals and names. -/
inductive TokenKind
  | floatLiteral
  | intLiteral
  | stringLiteral
  | identifier
  | keyword (word : Keyword)
  | symbol (symbol : Symbol)
  | endOfInput
deriving DecidableEq, Inhabited

namespace TokenKind

/-- How syntax errors name a category. -/
def describe : TokenKind → String
  | .floatLiteral => "float literal"
  | .intLiteral => "int literal"
  | .stringLiteral => "string literal"
  | .identifier => "identifier"
  | .keyword w => "'" ++ w.text ++ "'"
  | .symbol s => "'" ++ s.text ++ "'"
  | .endOfInput => "end of input"

/-- The types a variable can be declared with. -/
def isValueType : TokenKind → Bool
  | .keyword .int | .keyword .float | .keyword .string => true
  | _ => false

end TokenKind

namespace Token

/-- The category of a token. -/
def kind : Token → TokenKind
  | .floatLiteral _ => .floatLiteral
  | .intLiteral _ => .intLiteral
  | .stringLiteral _ => .stringLiteral
  | .identifier _ => .identifier
  | .keyword w => .keyword w
  | .symbol s => .symbol s
  | .endOfInput => .endOfInput

/-- Tokens of one category with equal payloads.  Float payloads compare as numbers. -/
def same : Token → Token → Bool
  | .floatLiteral x, .floatLiteral y => x == y
  | .intLiteral m, .intLiteral n => m == n
  | .stringLiteral s, .stringLiteral t => s == t
  | .identifier s, .identifier t => s == t
  | .keyword v, .keyword w => v == w
  | .symbol s, .symbol t => s == t
  | .endOfInput, .endOfInput => true
  | _, _ => false

end Token

end MiniC
