/-
Reports — a diagnostic with the line of the source that it is about.

The label underlines the source; where it covers nothing, the message hangs below
an empty line. The margin is as wide as the line number.
-/
import GuardedExpr.Diagnostic
import GuardedExpr.Text.Ascii
import GuardedExpr.Text.Blank

namespace GuardedExpr

namespace Report

def spaces (n : Nat) : String := String.ofList (List.replicate n ' ')

def rule (n : Nat) : String := String.ofList (List.replicate n '─')

/-- The heading of a severity. -/
def heading : Severity → String
  | .error => "Error"
  | .warning => "Warning"
  | .info => "Advice"

/-! ## Lines -/

/-- The characters that end a line. -/
def isLineBreak (c : Char) : Bool :=
  c == '\n' || c == '\r' || c == '\x0b' || c == '\x0c' || c == '\u0085' || c == '\u2028'
    || c == '\u2029'

/-- The lines of a source, each with the break that ends it; `line` are the characters of the
current one, the latest first. A return and a line feed are one break. -/
def splitLines (line : List Char) : List Char → List (List Char)
  | [] => if line.isEmpty then [] else [line.reverse]
  | '\r' :: '\n' :: cs => ('\n' :: '\r' :: line).reverse :: splitLines [] cs
  | c :: cs =>
    if isLineBreak c then (c :: line).reverse :: splitLines [] cs else splitLines (c :: line) cs

/-- A place in the source as a reader finds it: the number of its line from one, the column from
zero, and the line. -/
structure Place where
  line : Nat
  column : Nat
  text : List Char
deriving DecidableEq, Repr

/-- The place at an offset into some lines, the first of which has the given number. What is behind
the last line break belongs to the line before it. -/
def placeIn (number offset : Nat) : List (List Char) → Place
  | [] => ⟨number, offset, []⟩
  | l :: rest =>
    if rest.isEmpty || offset < Text.byteLength l then
      ⟨number, (charsBefore offset l).length, l⟩
    else placeIn (number + 1) (offset - Text.byteLength l) rest

def placeOf (source : String) (offset : Nat) : Place :=
  placeIn 1 offset (splitLines [] source.toList)

/-! ## Labels -/

/-- Where a label of the given width is tied to its message. -/
def anchor (width : Nat) : Nat := width / 2

/-- The line below a label that starts at a column. -/
def underline (column width : Nat) : String :=
  if width = 0 then spaces column ++ "│ "
  else spaces column ++ rule (anchor width) ++ "┬" ++ rule (width - anchor width - 1) ++ "  "

/-- The line that ties the message to its label. -/
def pointer (column width : Nat) (message : String) : String :=
  spaces (column + anchor width) ++ "╰" ++ rule (width + 1 - anchor width) ++ " " ++ message

/-- The lines of the report. -/
def lines (source : String) (d : Diagnostic) : List String :=
  let stop := min d.stop source.utf8ByteSize
  let first := min d.first stop
  let place := placeOf source first
  let width := (sliceText source first stop).length
  let shown := String.ofList (Text.trimRight Text.isBlank place.text)
  let number := toString place.line
  let margin := spaces (number.length + 2)
  let header :=
    [s!"[{d.code}] {heading d.severity}: {d.message}",
     s!"{margin}╭─[ <expr>:{place.line}:{place.column + 1} ]",
     s!"{margin}│",
     s!" {number} │ {shown}",
     s!"{margin}│ {underline place.column width}",
     s!"{margin}│ {pointer place.column width d.message}"]
  let help := match d.help with
    | none => []
    | some text => [s!"{margin}│ ", s!"{margin}│ Help: {text}"]
  header ++ help ++ [rule (number.length + 2) ++ "╯"]

/-- The report as text. -/
def text (source : String) (d : Diagnostic) : String :=
  String.join ((lines source d).map (· ++ "\n"))

end Report

end GuardedExpr
