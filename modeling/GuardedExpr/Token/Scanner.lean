/-
The scanner — source text to tokens.

The scanner is a machine with a stack. In code it takes one blank stretch or one
token at a time. A string between double quotes that embeds expressions is read
in the `text` mode, an expression in braces inside it in the `hole` mode, which
counts its own braces and ends at the brace that closes it. One step gives some
pieces and the next mode; `scanFrom` passes over the characters of these pieces
with a counter, so it is recursive on the source itself.
-/
import GuardedExpr.Token.Lexeme

namespace GuardedExpr

namespace Scanner

open Text Lexeme

/-- What surrounds the place that is read. -/
inductive Mode where
  /-- Code outside of strings. -/
  | code
  /-- Code embedded in the string `outer`, inside of `braces` braces of its own. -/
  | hole (braces : Nat) (outer : Mode)
  /-- A string whose opening quote starts `opening`, inside of the code `outer`. -/
  | text (opening : List Char) (outer : Mode)
deriving DecidableEq, Repr

namespace Mode

/-- The innermost string that is still open: the source from its opening quote on. -/
def openString? : Mode → Option (List Char)
  | .code => none
  | .hole _ outer => outer.openString?
  | .text opening _ => some opening

/-- The mode behind an opening brace in code. -/
def openBrace : Mode → Mode
  | .hole braces outer => .hole (braces + 1) outer
  | mode => mode

/-- The mode behind a closing brace in code. -/
def closeBrace : Mode → Mode
  | .hole 0 outer => outer
  | .hole (braces + 1) outer => .hole braces outer
  | mode => mode

end Mode

/-! ## Strings between double quotes -/

/-- Whether an embedded expression starts here. -/
def startsHole : List Char → Bool
  | '$' :: cs => startsName cs
  | '{' :: cs => cs.head? == some '$'
  | _ => false

/-- The text up to the closing quote or the next embedded expression; a backslash takes the
next character along. -/
def literalRun : List Char → List Char
  | [] => []
  | '\\' :: c :: cs => '\\' :: c :: literalRun cs
  | c :: cs => if c == '"' || startsHole (c :: cs) then [] else c :: literalRun cs

/-- A string that embeds nothing is one token; otherwise its opening quote is one. -/
def doubleQuoted (cs : List Char) (mode : Mode) : Except ScanFault (List Piece × Mode) :=
  let run := literalRun (cs.drop 1)
  match cs.drop (1 + run.length) with
  | [] => .error (.unterminated cs)
  | '"' :: _ => .ok ([.lexeme .string (cs.take 1 ++ run ++ ['"'])], mode)
  | _ => .ok ([.lexeme .quote (cs.take 1)], .text cs mode)

/-! ## Variables embedded without braces -/

def digitsPiece (cs : List Char) : Piece := .lexeme .integer (cs.takeWhile Char.isDigit)

/-- The offset between the brackets behind an embedded variable: an integer, a variable, or a
bare word. -/
def embeddedOffset (cs : List Char) : Except ScanFault (List Piece) :=
  match cs with
  | [] => .error (.unexpected [])
  | c :: rest =>
    if c == '-' && startsDigit rest then .ok [.lexeme .minus [c], digitsPiece rest]
    else if c.isDigit then .ok [digitsPiece cs]
    else if c == '$' && startsName rest then .ok [variableName cs]
    else if isNameStart c then .ok [.lexeme .fragment (cs.takeWhile isNameChar)]
    else .error (.unexpected cs)

/-- A variable in a string, with one offset or one property at most. -/
def embeddedVariable (cs : List Char) : Except ScanFault (List Piece) :=
  let var := variableText cs
  match cs.drop var.length with
  | '[' :: rest =>
    match embeddedOffset rest with
    | .error f => .error f
    | .ok offset =>
      match rest.drop (Piece.textLength offset) with
      | ']' :: _ => .ok (.lexeme .variable var :: .lexeme .lbracket ['['] :: offset
          ++ [.lexeme .rbracket [']']])
      | stop => .error (.unexpected stop)
  | '-' :: '>' :: rest =>
    if startsName rest then
      .ok [.lexeme .variable var, .lexeme .arrow ['-', '>'],
        .lexeme .identifier (rest.takeWhile isNameChar)]
    else .ok [.lexeme .variable var]
  | _ => .ok [.lexeme .variable var]

/-! ## Steps -/

/-- The next pieces of a string that embeds expressions. -/
def textStep (opening : List Char) (outer : Mode) (cs : List Char) :
    Except ScanFault (List Piece × Mode) :=
  match cs with
  | '"' :: _ => .ok ([.lexeme .quote ['"']], outer)
  | '{' :: '$' :: _ => .ok ([.lexeme .lbrace ['{']], .hole 0 (.text opening outer))
  | _ =>
    if startsHole cs then (embeddedVariable cs).map fun ps => (ps, .text opening outer)
    else .ok ([.lexeme .fragment (literalRun cs)], .text opening outer)

/-- The next piece of code. -/
def codeStep (mode : Mode) (cs : List Char) : Except ScanFault (List Piece × Mode) :=
  let blanks := cs.takeWhile isTokenBlank
  if !blanks.isEmpty then .ok ([.blank blanks], mode)
  else
    match cs with
    | '{' :: _ => .ok ([.lexeme .lbrace ['{']], mode.openBrace)
    | '}' :: _ => .ok ([.lexeme .rbrace ['}']], mode.closeBrace)
    | '"' :: _ => doubleQuoted cs mode
    | _ => (Lexeme.read cs).map fun p => ([p], mode)

/-- The pieces at the front of the source, and the mode behind them. -/
def step (mode : Mode) (cs : List Char) : Except ScanFault (List Piece × Mode) :=
  match mode with
  | .text opening outer => textStep opening outer cs
  | mode => codeStep mode cs

/-- Cut the source into pieces, after passing over `skip` characters. -/
def scanFrom (mode : Mode) (skip : Nat) : List Char → Except ScanFault (List Piece)
  | [] =>
    match mode.openString? with
    | some opening => .error (.unterminated opening)
    | none => .ok []
  | c :: cs =>
    match skip with
    | skip + 1 => scanFrom mode skip cs
    | 0 =>
      match step mode (c :: cs) with
      | .error f => .error f
      | .ok (ps, next) =>
        match scanFrom next (Piece.textLength ps - 1) cs with
        | .error f => .error f
        | .ok rest => .ok (ps ++ rest)

/-- Cut a whole source into pieces. -/
def scan (cs : List Char) : Except ScanFault (List Piece) := scanFrom .code 0 cs

end Scanner

/-- The tokens of a source, the end of the input last. -/
def tokenize (source : String) : Except ParseError (List Token) :=
  match Scanner.scan source.toList with
  | .error f => .error (f.toParseError source.toList)
  | .ok ps => .ok (Piece.place .start ps)

end GuardedExpr
