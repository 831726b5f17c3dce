/-
Escapes of quoted literals — from source text to the string meant, and back.

Between single quotes only `\\` and `\'` are escapes. Between double quotes a
backslash may start one of the escapes read by `readEscape`; any other backslash
stands for itself and the character after it is read on its own. Both readers
pass over the characters of an escape with a counter, so they are recursive on
the text itself.
-/
import GuardedExpr.Text.Ascii

namespace GuardedExpr

/-- Why a `\u` escape cannot be read. -/
inductive EscapeFault where
  /-- The digits do not give a Unicode scalar value. -/
  | invalidCodepoint (digits : String)
  /-- The brace holds no digit, or no closing brace follows the digits. -/
  | malformedUnicode (digits : String)
deriving DecidableEq, Repr

/-- A fault and the byte offset of the backslash that starts the escape. -/
structure EscapeError where
  fault : EscapeFault
  offset : Nat
deriving DecidableEq, Repr

def EscapeError.message (e : EscapeError) : String :=
  match e.fault with
  | .invalidCodepoint digits => "invalid UTF-8 codepoint escape sequence: \\u\x7b" ++ digits ++ "\x7d"
  | .malformedUnicode digits => "malformed Unicode escape sequence '\\u\x7b" ++ digits ++ "'"

namespace Literal

/-! ## Single quotes -/

/-- The character with the backslash it needs between single quotes. -/
def quoteChar (c : Char) : List Char :=
  if c = '\\' ∨ c = '\'' then ['\\', c] else [c]

/-- The text as a literal between single quotes. -/
def quoteSingle (s : String) : String :=
  String.ofList ('\'' :: (s.toList.flatMap quoteChar ++ ['\'']))

/-- Read the characters between single quotes. -/
def unquoteSingle : List Char → List Char
  | '\\' :: '\\' :: cs => '\\' :: unquoteSingle cs
  | '\\' :: '\'' :: cs => '\'' :: unquoteSingle cs
  | c :: cs => c :: unquoteSingle cs
  | [] => []

/-- The string meant by the text between single quotes. -/
def unescapeSingle (s : String) : String :=
  String.ofList (unquoteSingle s.toList)

/-! ## Double quotes -/

/-- The escapes of one letter or sign. -/
def plainEscape : Char → Option Char
  | 'n' => some '\n'
  | 'r' => some '\r'
  | 't' => some '\t'
  | 'v' => some '\x0b'
  | 'e' => some '\x1b'
  | 'f' => some '\x0c'
  | '\\' => some '\\'
  | '$' => some '$'
  | '"' => some '"'
  | _ => none

/-- A numeric escape gives the character of its value's lowest byte. -/
def byteChar (n : Nat) : Char := Char.ofNat (n % 256)

/-- Read an octal or hexadecimal escape whose digits start the text. -/
def readByte (base most : Nat) (cs : List Char) : Option (Char × Nat) :=
  let digits := (cs.take most).takeWhile (Text.isDigitIn base)
  if digits.isEmpty then none else some (byteChar (Text.numberIn base digits), digits.length)

/-- Read a code point whose digits follow the opening brace. The answer counts the
digits and the closing brace. -/
def readCodepoint (cs : List Char) : Except EscapeFault (Char × Nat) :=
  let digits := cs.takeWhile (Text.isDigitIn 16)
  if digits.isEmpty || (cs.drop digits.length).head? != some '}' then
    .error (.malformedUnicode (String.ofList digits))
  else
    let value := Text.numberIn 16 digits
    if value.isValidChar then .ok (Char.ofNat value, digits.length + 1)
    else .error (.invalidCodepoint (String.ofList digits))

/-- Read what follows a backslash: the character meant and how many characters it took,
or nothing when the backslash stands for itself. -/
def readEscape (cs : List Char) : Except EscapeFault (Option (Char × Nat)) :=
  match cs with
  | [] => .ok none
  | 'x' :: rest => .ok ((readByte 16 2 rest).map fun (c, n) => (c, n + 1))
  | 'u' :: '{' :: rest => (readCodepoint rest).map fun (c, n) => some (c, n + 2)
  | c :: _ =>
    match plainEscape c with
    | some meant => .ok (some (meant, 1))
    | none => .ok (readByte 8 3 cs)

/-- Read the characters between double quotes from a byte offset on, after passing over
`skip` characters that belong to the escape just read. -/
def unquoteDouble (offset : Nat) : (skip : Nat) → List Char → Except EscapeError (List Char)
  | _, [] => .ok []
  | skip + 1, c :: cs => unquoteDouble (offset + c.utf8Size) skip cs
  | 0, c :: cs =>
    if c = '\\' then
      match readEscape cs with
      | .error fault => .error ⟨fault, offset⟩
      | .ok none => (unquoteDouble (offset + c.utf8Size) 0 cs).map (c :: ·)
      | .ok (some (meant, taken)) => (unquoteDouble (offset + c.utf8Size) taken cs).map (meant :: ·)
    else (unquoteDouble (offset + c.utf8Size) 0 cs).map (c :: ·)

/-- The string meant by the text between double quotes. -/
def unescapeDouble (s : String) : Except EscapeError String :=
  (unquoteDouble 0 0 s.toList).map String.ofList

end Literal

end GuardedExpr
