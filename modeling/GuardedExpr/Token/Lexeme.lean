/-
Lexemes — the token at the start of a piece of code.

Each reader takes the longest text of its class from the front of the source:
words, variables, numbers, casts, operators, single-quoted strings. Strings
between double quotes may embed code and are left to the scanner.
-/
import GuardedExpr.CastType
import GuardedExpr.Token.Piece

namespace GuardedExpr.Lexeme

open Text

/-- Whether the source goes on with a character that may start a name. -/
def startsName (cs : List Char) : Bool := cs.head?.any isNameStart

def startsDigit (cs : List Char) : Bool := cs.head?.any Char.isDigit

/-! ## Words and variables -/

/-- The longest name, parts separated by backslashes. -/
def wordText : List Char → List Char
  | [] => []
  | c :: cs => if isNameChar c || (c == '\\' && startsName cs) then c :: wordText cs else []

/-- The words that are no names, in any case. -/
def keyword? (text : String) : Option TokenKind :=
  match Text.lower text with
  | "true" | "false" => some .bool
  | "null" => some .null
  | "and" => some .and
  | "or" => some .or
  | "xor" => some .xor
  | "array" => some .array
  | "instanceof" => some .instanceOf
  | _ => none

def word (cs : List Char) : Piece :=
  let text := wordText cs
  .lexeme ((keyword? (String.ofList text)).getD .identifier) text

/-- A sigil and the name characters behind it. -/
def variableText (cs : List Char) : List Char := cs.take 1 ++ (cs.drop 1).takeWhile isNameChar

def variableName (cs : List Char) : Piece := .lexeme .variable (variableText cs)

/-! ## Numbers -/

def isDigitOrMark (c : Char) : Bool := c.isDigit || c == '_'

/-- Every mark stands between two letters or digits. -/
def marksSeparate : (before : Option Char) → List Char → Bool
  | _, [] => true
  | before, c :: cs =>
    (c != '_' || (before.any Char.isAlphanum && cs.head?.any Char.isAlphanum))
      && marksSeparate (some c) cs

/-- The base that the letter behind a zero announces. -/
def radix? : List Char → Option Nat
  | '0' :: c :: _ =>
    if c == 'x' || c == 'X' then some 16
    else if c == 'b' || c == 'B' then some 2
    else if c == 'o' || c == 'O' then some 8
    else none
  | _ => none

/-- A number with a base of its own. All name characters behind the base belong to it. -/
def radixNumber (base : Nat) (cs : List Char) : Except ScanFault Piece :=
  let digits := (cs.drop 2).takeWhile isNameChar
  let text := cs.take 2 ++ digits
  if !digits.isEmpty && marksSeparate none digits
      && digits.all fun c => c == '_' || isDigitIn base c then
    .ok (.lexeme .integer text)
  else .error ⟨.invalidNumber (String.ofList text), cs⟩

/-- A point and the digits behind it, if there are any. -/
def fractionText : List Char → List Char
  | '.' :: cs => if startsDigit cs then '.' :: cs.takeWhile isDigitOrMark else []
  | _ => []

/-- An exponent with its digits, if there are any. -/
def exponentText : List Char → List Char
  | c :: cs =>
    if c == 'e' || c == 'E' then
      let sign := cs.take 1 |>.takeWhile fun c => c == '+' || c == '-'
      let digits := (cs.drop sign.length).takeWhile Char.isDigit
      if digits.isEmpty then [] else c :: (sign ++ digits)
    else []
  | [] => []

/-- Digits behind a leading zero are octal. -/
def octalInOrder (text : List Char) : Bool :=
  text.length ≤ 1 || text.head? != some '0' || text.all fun c => c == '_' || isDigitIn 8 c

/-- A decimal number, or an octal one with a leading zero. Name characters that follow
without a gap make it invalid. -/
def decimalNumber (cs : List Char) : Except ScanFault Piece :=
  let whole := cs.takeWhile isDigitOrMark
  let fraction := fractionText (cs.drop whole.length)
  let mantissa := whole ++ fraction
  let exponent := exponentText (cs.drop mantissa.length)
  let text := mantissa ++ exponent
  let isFloat := !fraction.isEmpty || !exponent.isEmpty
  let tail := (cs.drop text.length).takeWhile isNameChar
  if tail.isEmpty && marksSeparate none text && (isFloat || octalInOrder text) then
    .ok (.lexeme (if isFloat then .float else .integer) text)
  else .error ⟨.invalidNumber (String.ofList (text ++ tail)), cs⟩

def number (cs : List Char) : Except ScanFault Piece :=
  match radix? cs with
  | some base => radixNumber base cs
  | none => decimalNumber cs

/-! ## Casts and operators -/

def isSpaceOrTab (c : Char) : Bool := c == ' ' || c == '\t'

/-- The text of a cast: a type between parentheses, with blanks around it. -/
def castText? (cs : List Char) : Option (List Char) :=
  let front := (cs.drop 1).takeWhile isSpaceOrTab
  let type := (cs.drop (1 + front.length)).takeWhile Char.isAlpha
  let back := (cs.drop (1 + front.length + type.length)).takeWhile isSpaceOrTab
  let text := cs.take 1 ++ front ++ type ++ back
  match cs.drop text.length with
  | ')' :: _ => if (CastType.ofWord? (String.ofList type)).isSome then some (text ++ [')']) else none
  | _ => none

/-- Operators and punctuation, longer spellings first. -/
def operators : List (String × TokenKind) :=
  [("===", .identical), ("!==", .notIdentical), ("<=>", .spaceship),
   ("==", .equal), ("!=", .notEqual), ("<>", .notEqual), ("<=", .lessEqual),
   (">=", .greaterEqual), ("&&", .andAnd), ("||", .orOr), ("**", .starStar), ("->", .arrow),
   ("=>", .doubleArrow), ("::", .doubleColon), ("??", .coalesce),
   ("+", .plus), ("-", .minus), ("*", .star), ("/", .slash), ("%", .percent), ("<", .less),
   (">", .greater), ("!", .bang), (".", .dot), ("?", .question), (":", .colon),
   ("(", .lparen), (")", .rparen), ("[", .lbracket), ("]", .rbracket), (",", .comma),
   ("=", .assign), ("&", .ampersand)]

def operator (cs : List Char) : Except ScanFault Piece :=
  match operators.find? fun (spelling, _) => spelling.toList.isPrefixOf cs with
  | some (spelling, kind) => .ok (.lexeme kind spelling.toList)
  | none => .error (.unexpected cs)

/-! ## Single-quoted strings -/

/-- The text up to and with the closing quote; a backslash takes the next character along. -/
def singleQuoted? : List Char → Option (List Char)
  | [] => none
  | '\'' :: _ => some ['\'']
  | '\\' :: c :: cs => (singleQuoted? cs).map ('\\' :: c :: ·)
  | c :: cs => (singleQuoted? cs).map (c :: ·)

def singleQuotedString (cs : List Char) : Except ScanFault Piece :=
  match singleQuoted? (cs.drop 1) with
  | some text => .ok (.lexeme .string (cs.take 1 ++ text))
  | none => .error (.unterminated cs)

/-! ## The token at the front -/

/-- The first token of some code that starts with no blank, brace or double quote. -/
def read (cs : List Char) : Except ScanFault Piece :=
  match cs with
  | [] => .error (.unexpected [])
  | c :: rest =>
    if c == '$' && startsName rest then .ok (variableName cs)
    else if c.isDigit || (c == '.' && startsDigit rest) then number cs
    else if c == '\'' then singleQuotedString cs
    else if isNameStart c || (c == '\\' && startsName rest) then .ok (word cs)
    else if c == '(' then
      match castText? cs with
      | some text => .ok (.lexeme .cast text)
      | none => operator cs
    else operator cs

end GuardedExpr.Lexeme
