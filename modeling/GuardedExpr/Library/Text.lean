/-
String functions.

Lengths and offsets count bytes; upper and lower case exist for ASCII letters
only. No function builds a string beyond `maxLength` bytes out of repetitions or
replacements: the size is worked out first.
-/
import GuardedExpr.Library.Arguments
import GuardedExpr.Text.Blank
import GuardedExpr.Text.Split
import GuardedExpr.Text.Utf8

namespace GuardedExpr.Library

/-- The largest string, in bytes, that is built from repetitions. -/
def maxLength : Nat := 16777216

/-- The size, unless it takes more than 64 bits. -/
def fitSize? (n : Nat) : Option Nat := if n < UInt64.size then some n else none

/-- Fail where a result would be too long, or no size that can be worked out. -/
def Arguments.checkLength (a : Arguments) (length : Option Nat) : Except HostError Unit :=
  if length.any (· ≤ maxLength) then .ok () else a.fail s!"result would exceed {maxLength} bytes"

/-! ## Case, length, search -/

def stringLength (a : Arguments) : HostResult := do
  return .int (Int64.ofNat (← a.string 0).utf8ByteSize)

def upperCase (a : Arguments) : HostResult := return .str (Text.upper (← a.string 0))

def lowerCase (a : Arguments) : HostResult := return .str (Text.lower (← a.string 0))

def contains (a : Arguments) : HostResult := do
  let s ← a.string 0
  return .bool (Text.containsText s (← a.string 1))

def startsWith (a : Arguments) : HostResult := do
  let s ← a.string 0
  return .bool ((← a.string 1).toList.isPrefixOf s.toList)

def endsWith (a : Arguments) : HostResult := do
  let s ← a.string 0
  return .bool ((← a.string 1).toList.isSuffixOf s.toList)

/-! ## Trimming -/

/-- The characters trimmed unless others are given. -/
def trimmedByDefault : List Char := [' ', '\t', '\n', '\r', '\x00', '\x0b']

/-- Trim the characters given, or the default ones, by one of the trimming functions. -/
def trimBy (side : (Char → Bool) → List Char → List Char) (a : Arguments) : HostResult := do
  let s ← a.string 0
  let chars ← match a.optional? 1 with
    | some _ => String.toList <$> a.string 1
    | none => pure trimmedByDefault
  return .str (String.ofList (side chars.contains s.toList))

/-! ## Repeating and replacing -/

/-- A text repeated. -/
def repeated (s : String) (times : Nat) : String :=
  if s.isEmpty then "" else times.repeat (· ++ s) ""

def repeatString (a : Arguments) : HostResult := do
  let s ← a.string 0
  let times ← a.int 1
  if times < 0 then a.fail "argument #2 ($times) must be greater than or equal to 0"
  else
    let times := times.toInt.toNat
    a.checkLength (fitSize? (s.utf8ByteSize * times))
    return .str (repeated s times)

/-- The bytes of the subject after every hit has been replaced by something longer. -/
def lengthReplaced (search replacement subject : String) (hits : Nat) : Option Nat := do
  let growth ← fitSize? (hits * (replacement.utf8ByteSize - search.utf8ByteSize))
  fitSize? (growth + subject.utf8ByteSize)

/-- Replace every occurrence. The size is checked only where it can grow. -/
def replace (a : Arguments) : HostResult := do
  let search ← a.string 0
  let replacement ← a.string 1
  let subject ← a.string 2
  if search.isEmpty then return .str subject
  else
    let pieces := Text.splitAll search subject
    if search.utf8ByteSize < replacement.utf8ByteSize then
      a.checkLength (lengthReplaced search replacement subject (pieces.length - 1))
    return .str (replacement.intercalate pieces)

/-! ## Cutting -/

/-- An offset into `length` bytes; a negative one counts from the end. -/
def resolveOffset (offset : Int) (length : Nat) : Nat :=
  if offset < 0 then length - offset.natAbs else min offset.toNat length

/-- The bytes from an offset on, for a length if one is given. A negative length leaves that many
bytes off at the end. -/
def substringBounds (offset : Int) (length : Option Int) (size : Nat) : Nat × Nat :=
  let first := resolveOffset offset size
  let stop := match length with
    | none => size
    | some n => if n < 0 then max (resolveOffset n size) first else min (first + n.toNat) size
  (first, stop)

def substring (a : Arguments) : HostResult := do
  let s ← a.string 0
  let offset ← a.int 1
  let length ← match a.optional? 2 with
    | none | some .null => pure none
    | some _ => some <$> a.int 2
  let (first, stop) := substringBounds offset.toInt (length.map Int64.toInt) s.utf8ByteSize
  return .str (Text.sliceBytes s first stop)

/-! ## Joining and splitting -/

/-- The strings of the values, or a failure at the first that has none. -/
def joinable (a : Arguments) (vs : List Value) : Except HostError (List String) :=
  vs.mapM fun v =>
    match v.scalarText? with
    | some s => .ok s
    | none => a.fail s!"cannot join a value of type {v.kind.name}"

def implode (a : Arguments) : HostResult := do
  if a.values.length = 1 then
    let t ← a.table 0
    return .str ("".intercalate (← joinable a t.values))
  else
    let separator ← a.string 0
    let t ← a.table 1
    return .str (separator.intercalate (← joinable a t.values))

/-- The pieces of a text. A positive limit is the largest number of pieces, a negative one drops
that many from the end, and zero counts as one. -/
def explodeLimited (separator s : String) (limit : Option Int) : List String :=
  match limit with
  | none => Text.splitAll separator s
  | some n =>
    if 0 ≤ n then Text.splitAtMost (n.toNat - 1) separator s
    else
      let all := Text.splitAll separator s
      all.take (all.length - n.natAbs)

def explode (a : Arguments) : HostResult := do
  let separator ← a.string 0
  let s ← a.string 1
  if separator.isEmpty then a.fail "argument #1 ($separator) cannot be empty"
  else
    let limit ← match a.optional? 2 with
      | some _ => some <$> a.int 2
      | none => pure none
    return .list ((explodeLimited separator s (limit.map Int64.toInt)).map .str)

/-- The string functions. -/
def stringFunctions : List Entry :=
  [entry "strlen" 1 1 stringLength,
   entry "strtoupper" 1 1 upperCase,
   entry "strtolower" 1 1 lowerCase,
   entry "trim" 1 2 (trimBy Text.trimBoth),
   entry "ltrim" 1 2 (trimBy Text.trimLeft),
   entry "rtrim" 1 2 (trimBy Text.trimRight),
   entry "str_contains" 2 2 contains,
   entry "str_starts_with" 2 2 startsWith,
   entry "str_ends_with" 2 2 endsWith,
   entry "str_repeat" 2 2 repeatString,
   entry "str_replace" 3 3 replace,
   entry "substr" 2 3 substring,
   entry "implode" 1 2 implode,
   entry "explode" 2 3 explode]

end GuardedExpr.Library
