/-
Tokens — classified pieces of the source.

A token keeps its text and its place. The kinds are grouped as the grammar uses
them: operands, operators by level, punctuation, words, and the parts of a string
with embedded expressions.
-/
import GuardedExpr.Text.Ascii
import GuardedExpr.Text.Location

namespace GuardedExpr

/-- The kinds of tokens. -/
inductive TokenKind where
  | integer | float
  /-- A whole quoted literal, quotes included. -/
  | string
  | bool | null
  /-- The name of a function, class or constant, possibly qualified. -/
  | identifier
  /-- A variable with its sigil. -/
  | variable
  | plus | minus | star | slash | percent | starStar
  | equal | notEqual | identical | notIdentical
  | less | lessEqual | greater | greaterEqual | spaceship
  | andAnd | orOr | bang | and | or | xor
  | arrow | doubleArrow | doubleColon | dot | coalesce | question | colon
  | lparen | rparen | lbracket | rbracket | lbrace | rbrace
  | comma | assign | ampersand
  | array | instanceOf
  /-- A parenthesised type, blanks allowed inside. -/
  | cast
  /-- The opening or closing quote of a string with embedded expressions. -/
  | quote
  /-- Text between embedded expressions, escapes not yet read. -/
  | fragment
  | eof
deriving DecidableEq, Repr

namespace TokenKind

/-- Every kind, in the order of the declaration. -/
def all : List TokenKind :=
  [.integer, .float, .string, .bool, .null, .identifier, .variable, .plus, .minus, .star,
   .slash, .percent, .starStar, .equal, .notEqual, .identical, .notIdentical, .less,
   .lessEqual, .greater, .greaterEqual, .spaceship, .andAnd, .orOr, .bang, .and, .or, .xor,
   .arrow, .doubleArrow, .doubleColon, .dot, .coalesce, .question, .colon, .lparen,
   .rparen, .lbracket, .rbracket, .lbrace, .rbrace, .comma, .assign, .ampersand, .array,
   .instanceOf, .cast, .quote, .fragment, .eof]

/-- The name under which a token shows its kind. -/
def name : TokenKind → String
  | .integer => "Integer"
  | .float => "Float"
  | .string => "String"
  | .bool => "Bool"
  | .null => "Null"
  | .identifier => "Identifier"
  | .variable => "Variable"
  | .plus => "Plus"
  | .minus => "Minus"
  | .star => "Star"
  | .slash => "Slash"
  | .percent => "Percent"
  | .starStar => "StarStar"
  | .equal => "Equal"
  | .notEqual => "NotEqual"
  | .identical => "Identical"
  | .notIdentical => "NotIdentical"
  | .less => "Less"
  | .lessEqual => "LessEqual"
  | .greater => "Greater"
  | .greaterEqual => "GreaterEqual"
  | .spaceship => "Spaceship"
  | .andAnd => "AndAnd"
  | .orOr => "OrOr"
  | .bang => "Bang"
  | .and => "And"
  | .or => "Or"
  | .xor => "Xor"
  | .arrow => "Arrow"
  | .doubleArrow => "DoubleArrow"
  | .doubleColon => "DoubleColon"
  | .dot => "Dot"
  | .coalesce => "Coalesce"
  | .question => "Question"
  | .colon => "Colon"
  | .lparen => "LParen"
  | .rparen => "RParen"
  | .lbracket => "LBracket"
  | .rbracket => "RBracket"
  | .lbrace => "LBrace"
  | .rbrace => "RBrace"
  | .comma => "Comma"
  | .assign => "Assign"
  | .ampersand => "Ampersand"
  | .array => "Array"
  | .instanceOf => "InstanceOf"
  | .cast => "Cast"
  | .quote => "Quote"
  | .fragment => "StringFragment"
  | .eof => "Eof"

/-- The kind with the given name. -/
def ofName? (s : String) : Option TokenKind := all.find? fun k => k.name == s

/-- The kind as parse errors describe it. -/
def describe : TokenKind → String
  | .integer => "integer"
  | .float => "float"
  | .string => "string"
  | .bool => "boolean"
  | .null => "null"
  | .identifier => "identifier"
  | .variable => "variable"
  | .plus => "'+'"
  | .minus => "'-'"
  | .star => "'*'"
  | .slash => "'/'"
  | .percent => "'%'"
  | .starStar => "'**'"
  | .equal => "'=='"
  | .notEqual => "'!='"
  | .identical => "'==='"
  | .notIdentical => "'!=='"
  | .less => "'<'"
  | .lessEqual => "'<='"
  | .greater => "'>'"
  | .greaterEqual => "'>='"
  | .spaceship => "'<=>'"
  | .andAnd => "'&&'"
  | .orOr => "'||'"
  | .bang => "'!'"
  | .and => "'and'"
  | .or => "'or'"
  | .xor => "'xor'"
  | .arrow => "'->'"
  | .doubleArrow => "'=>'"
  | .doubleColon => "'::'"
  | .dot => "'.'"
  | .coalesce => "'??'"
  | .question => "'?'"
  | .colon => "':'"
  | .lparen => "'('"
  | .rparen => "')'"
  | .lbracket => "'['"
  | .rbracket => "']'"
  | .lbrace => "'\x7b'"
  | .rbrace => "'\x7d'"
  | .comma => "','"
  | .assign => "'='"
  | .ampersand => "'&'"
  | .array => "'array'"
  | .instanceOf => "'instanceof'"
  | .cast => "cast"
  | .quote => "'\"'"
  | .fragment => "string fragment"
  | .eof => "end of input"

/-- Kinds spelt as a bare word, which may stand as a member name. -/
def isWord : TokenKind → Bool
  | .identifier | .bool | .null | .and | .or | .xor | .array | .instanceOf => true
  | _ => false

end TokenKind

/-- A classified piece of the source with its place. -/
structure Token where
  kind : TokenKind
  text : String
  location : Location
deriving DecidableEq, Repr

namespace Token

/-- The name of a variable without its sigil. -/
def variableName (t : Token) : String := Text.dropOne '$' t.text

/-- The token as it is shown: kind, text, line and column. -/
def display (t : Token) : String :=
  s!"{t.kind.name}({t.text}) at ({t.location.line}, {t.location.column})"

end Token

end GuardedExpr
