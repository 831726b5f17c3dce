/-
# Outline reader — texts of trees with one reading

The outline of a tree is read off its text.  A reader takes one operand from the front:
something that stands alone, and behind it all the offsets, members and arguments that
follow.

    operand     primary suffix*
    primary     leaf | '(' bracketed ')' | '[' element, … ']' | '"' (run | '{' operand '}')* '"'
    suffix      '[' operand ']' | '->' member | '::' member | '(' argument, … ')'
    bracketed   operand operator operand | sign operand | '(' type ')' operand

No operand starts with a sign, and `(int) …` is none, so a bracket is read in one way.
In a string a hole is an opening brace, any number of opening parentheses and a variable.
No run of text holds this: there the variable alone would be a hole.

The readers are recursive in a depth.  What they make of the texts of whole trees is
shown in `OutlineReading`.
-/
import GuardedExpr.Proofs.Outline

namespace GuardedExpr

open Text Lexeme

/-! ## Readers -/

namespace Outline

/-- What stands in front, and the text behind it. -/
abbrev Reader (α : Type) : Type := List Char → Option (α × List Char)

/-- The text behind the given one. -/
def expect (text cs : List Char) : Option (List Char) :=
  if text.isPrefixOf cs then some (cs.drop text.length) else none

/-- Something in front of a closing bracket. -/
def closed {α : Type} (read : Reader α) (close : Char) : Reader α := fun cs => do
  let (a, cs) ← read cs
  let cs ← expect [close] cs
  some (a, cs)

/-- Things with commas between them, up to a closing bracket. -/
def separated {α : Type} (read : Reader α) (close : Char) : Nat → Reader (List α)
  | 0, _ => none
  | n + 1, cs =>
    match read cs with
    | none => (expect [close] cs).map fun cs => ([], cs)
    | some (a, cs) =>
      match expect [',', ' '] cs with
      | none => (expect [close] cs).map fun cs => ([a], cs)
      | some cs => (separated read close n cs).map fun (as, cs) => (a :: as, cs)

/-- The kinds of words, variables, numbers and strings. -/
def isLeafKind (k : TokenKind) : Bool :=
  k.isWord || [TokenKind.variable, .integer, .float, .string].contains k

/-- The node of a leaf. -/
def leafOf (t : Token) : Expr := if t.kind = .variable then .variable t else .literal t

/-- Digits alone; in strings they may start with a zero. -/
def digits : Reader Expr := fun cs =>
  let ds := cs.takeWhile Char.isDigit
  if ds.isEmpty then none
  else some (.literal ⟨.integer, String.ofList ds, default⟩, cs.drop ds.length)

/-- A word, a variable, a number or a string in single quotes. -/
def leaf : Reader Expr := fun cs =>
  match Lexeme.read cs with
  | .ok (.lexeme k text) =>
    if isLeafKind k then some (leafOf ⟨k, String.ofList text, default⟩, cs.drop text.length)
    else none
  | _ => digits cs

section Inner

variable (read : Reader Expr)

/-- The name of a member. -/
def member : Reader Expr := fun cs =>
  match leaf cs with
  | some found => some found
  | none => (expect ['\x7b'] cs).bind (closed read '\x7d')

def element : Reader Element := fun cs => do
  let (key, cs) ← read cs
  match expect [' ', '=', '>', ' '] cs with
  | none => some (.item key, cs)
  | some cs =>
    let (value, cs) ← read cs
    some (.pair key value, cs)

def argument : Reader Argument := fun cs =>
  match read cs with
  | some (value, cs) => some (.mk false value, cs)
  | none => do
    let cs ← expect ['&'] cs
    let (value, cs) ← read cs
    some (.mk true value, cs)

/-- The operation that an operator between two operands tells. -/
def joined (left : Expr) (symbol : String) (right : Expr) : Option Expr :=
  if symbol = "=" then some (.assign left ⟨.assign, "=", default⟩ right)
  else if symbol = "instanceof" then
    some (.instanceOf left ⟨.instanceOf, "instanceof", default⟩ right)
  else (binaryWords.find? fun w => w.2 == symbol).map fun w => .binary left ⟨w.1, w.2, default⟩ right

/-- An operator and its operands on the right. -/
def operation (left : Expr) : Reader Expr := fun cs => do
  let cs ← expect [' '] cs
  let symbol := cs.takeWhile fun c => c != ' '
  let cs ← expect [' '] (cs.drop symbol.length)
  let (right, cs) ← read cs
  if symbol = ['?'] then
    let cs ← expect [' ', ':', ' '] cs
    let (no, cs) ← read cs
    some (.ternary left ⟨.question, "?", default⟩ right no, cs)
  else
    let e ← joined left (String.ofList symbol) right
    some (e, cs)

/-- An operand behind a type between parentheses. -/
def casted : Reader Expr := fun cs => do
  let cs ← expect ['('] cs
  let name := cs.takeWhile fun c => c != ')'
  let type ← CastType.ofWord? (String.ofList name)
  let cs ← expect [')', ' '] (cs.drop name.length)
  let (e, cs) ← read cs
  some (.cast ⟨.cast, "", default⟩ type e, cs)

/-- An operand behind a sign. -/
def signed : Reader Expr
  | [] => none
  | c :: cs => do
    let kind ← [('-', TokenKind.minus), ('+', .plus), ('!', .bang)].lookup c
    let (e, cs) ← read cs
    some (.unary ⟨kind, String.ofList [c], default⟩ e, cs)

/-- What stands between parentheses. -/
def bracketed : Reader Expr := fun cs =>
  match read cs with
  | some (left, cs) => operation read left cs
  | none => (signed read cs).or (casted read cs)

/-! ## Strings -/

/-- Behind any number of parentheses stands a variable. -/
def opensVariable (cs : List Char) : Bool :=
  match cs.dropWhile fun c => c == '(' with
  | '$' :: cs => startsName cs
  | _ => false

/-- A hole is rendered here. -/
def opensHole : List Char → Bool
  | '{' :: cs => opensVariable cs
  | _ => false

/-- The text up to the quote or the next hole; a backslash takes the next character along. -/
def run : List Char → List Char
  | [] => []
  | '\\' :: c :: cs => '\\' :: c :: run cs
  | c :: cs => if c == '"' || opensHole (c :: cs) then [] else c :: run cs

/-- Runs of text and holes, up to the closing quote. -/
def parts : Nat → Reader (List Expr)
  | 0, _ => none
  | n + 1, cs =>
    if (run cs).isEmpty then
      match expect ['"'] cs with
      | some cs => some ([], cs)
      | none => do
        let cs ← expect ['{'] cs
        let (e, cs) ← closed read '}' cs
        let (es, cs) ← parts n cs
        some (e :: es, cs)
    else do
      let (es, rest) ← parts n (cs.drop (run cs).length)
      some (.literal ⟨.fragment, String.ofList (run cs), default⟩ :: es, rest)

/-- A string: one token if there is no hole in it. -/
def string (es : List Expr) : Expr :=
  if es.all fun e => e.fragment?.isSome then
    .literal ⟨.string, "\"" ++ Expr.renderParts es ++ "\"", default⟩
  else .interpolation ⟨.quote, "\"", default⟩ es

/-! ## Operands -/

/-- A leaf, or something between brackets or quotes. -/
def primary (n : Nat) : Reader Expr := fun cs =>
  match leaf cs with
  | some found => some found
  | none =>
    match cs with
    | '(' :: cs => closed (bracketed read) ')' cs
    | '[' :: cs => (separated (element read) ']' n cs).map fun (elements, cs) =>
        (.array ⟨.lbracket, "[", default⟩ elements, cs)
    | '"' :: cs => (parts read n cs).map fun (es, cs) => (string es, cs)
    | _ => none

/-- What a suffix makes of the expression in front of it. -/
def suffix (n : Nat) (e : Expr) : Reader Expr
  | '[' :: cs => (closed read ']' cs).map fun (offset, cs) =>
      (.access e ⟨.lbracket, "[", default⟩ offset, cs)
  | '-' :: '>' :: cs => (member read cs).map fun (name, cs) =>
      (.property e ⟨.arrow, "->", default⟩ false name, cs)
  | ':' :: ':' :: cs => (member read cs).map fun (name, cs) =>
      (.property e ⟨.doubleColon, "::", default⟩ true name, cs)
  | '(' :: cs => (separated (argument read) ')' n cs).map fun (args, cs) =>
      (e.called ⟨.lparen, "(", default⟩ args, cs)
  | _ => none

/-- All suffixes behind an expression, up to a number of them. -/
def suffixes (n : Nat) : Nat → Expr → Reader Expr
  | 0, e, cs => some (e, cs)
  | k + 1, e, cs =>
    match suffix read n e cs with
    | some (e, cs) => suffixes n k e cs
    | none => some (e, cs)

end Inner

/-- An operand of this depth at most. -/
def operand : Nat → Reader Expr
  | 0, _ => none
  | n + 1, cs => do
    let (e, cs) ← primary (operand n) n cs
    suffixes (operand n) n n e cs

/-! ## Reading single things -/

/-- The text is read as `a` in front of one of the characters. -/
def Reads {α : Type} (read : Reader α) (stops : List Char) (text : List Char) (a : α) : Prop :=
  ∀ c ∈ stops, ∀ rest, read (text ++ c :: rest) = some (a, c :: rest)

/-- The characters that an operand stands in front of. -/
def closers : List Char := [' ', ')', ']', ',', '}']

/-- The characters that an element or an argument stands in front of. -/
def enders : List Char := [',', ')', ']']

theorem closer_of_ender {c : Char} (hc : c ∈ enders) : c ∈ closers ∧ c ≠ ' ' := by
  simp only [enders, List.mem_cons, List.not_mem_nil, or_false] at hc
  rcases hc with rfl | rfl | rfl <;> decide

theorem setOff_closer {c : Char} (hc : c ∈ closers) (rest : List Char) : SetOff (c :: rest) := by
  refine setOff_cons ?_ rest
  simp only [closers, List.mem_cons, List.not_mem_nil, or_false] at hc
  rcases hc with rfl | rfl | rfl | rfl | rfl <;> decide

theorem expect_append (text rest : List Char) : expect text (text ++ rest) = some rest := by
  unfold expect
  rw [if_pos (List.isPrefixOf_iff_prefix.mpr (List.prefix_append text rest)), List.drop_left]

@[simp] theorem expect_singleton (c : Char) (rest : List Char) :
    expect [c] (c :: rest) = some rest := expect_append [c] rest

theorem expect_cons_ne {c d : Char} (hne : d ≠ c) (text rest : List Char) :
    expect (c :: text) (d :: rest) = none := by
  unfold expect
  rw [if_neg]
  intro hprefix
  rw [List.isPrefixOf_iff_prefix, List.cons_prefix_cons] at hprefix
  exact hne hprefix.1.symm

section Leaves

variable {t : Token} {cs text rest : List Char} {k : TokenKind}

theorem isLeafKind_of_readAs (h : ReadAs cs (.lexeme k text)) : isLeafKind k = true := by
  unfold isLeafKind
  rcases h.kind_cases with hmem | hkind
  · rw [List.contains_iff_mem.mpr hmem, Bool.or_true]
  · rw [hkind, isWord_word, Bool.true_or]

theorem leafOf_variable (h : t.kind = .variable) : leafOf t = .variable t := if_pos h

theorem leafOf_literal (h : t.kind ≠ .variable) : leafOf t = .literal t := if_neg h

theorem leaf_of_readAs (h : ReadAs cs (.lexeme k text)) (hrest : SetOff rest) :
    leaf (text ++ rest) = some (leafOf ⟨k, String.ofList text, default⟩, rest) := by
  unfold leaf
  rw [(h.again hrest).read_eq]
  dsimp only
  rw [if_pos (isLeafKind_of_readAs h), List.drop_left]

theorem leaf_isOperand (h : t.IsOperand) (hrest : SetOff rest) :
    leaf (t.text.toList ++ rest) = some (leafOf t.unplaced, rest) := by
  obtain ⟨cs, hread⟩ := h
  rw [leaf_of_readAs hread hrest, String.ofList_toList]
  rfl

/-- Digits announce no base. -/
theorem radix?_digits {ds rest : List Char} (hne : ds ≠ []) (hds : ∀ c ∈ ds, c.isDigit = true)
    (hrest : SetOff rest) : radix? (ds ++ rest) = none := by
  rw [radix?_eq hne (r := []) (by simp) fun c hc => (hrest c hc).1, List.append_nil]
  unfold radix?
  split
  · next c cs =>
      have hc : c.isDigit = true := hds c (by simp)
      have hletter : ∀ x : Char, x.isDigit = false → (c == x) = false := by
        intro x hx
        refine beq_eq_false_iff_ne.mpr ?_
        rintro rfl
        exact Bool.false_ne_true (hx.symm.trans hc)
      simp [hletter 'x' rfl, hletter 'X' rfl, hletter 'b' rfl, hletter 'B' rfl,
        hletter 'o' rfl, hletter 'O' rfl]
  · rfl

/-- Digits alone are an integer, or no number at all because of a leading zero. -/
theorem number_digits {ds rest : List Char} (hne : ds ≠ []) (hds : ∀ c ∈ ds, c.isDigit = true)
    (hrest : SetOff rest) : number (ds ++ rest) = .ok (.lexeme .integer ds) ∨
      ∃ fault, number (ds ++ rest) = .error fault := by
  have hmark : ∀ c ∈ ds, isDigitOrMark c = true := fun c hc => by
    rw [isDigitOrMark, hds c hc, Bool.true_or]
  have hwhole : (ds ++ rest).takeWhile isDigitOrMark = ds :=
    wholeText_setOff hrest hmark .nil .nil
  have hfraction : fractionText rest = [] := fractionText_setOff hrest .nil .nil
  have hexponent : exponentText rest = [] := exponentText_setOff hrest .nil
  unfold number
  rw [radix?_digits hne hds hrest]
  unfold decimalNumber
  simp only [hwhole, List.drop_left, hfraction, hexponent, List.append_nil]
  split
  · exact .inl rfl
  · exact .inr ⟨_, rfl⟩

theorem leaf_isDigits (h : t.IsDigits) (hrest : SetOff rest) :
    leaf (t.text.toList ++ rest) = some (.literal t.unplaced, rest) := by
  obtain ⟨hkind, hne, hds⟩ := h
  have htoken : t.unplaced = ⟨.integer, t.text, default⟩ := by
    rw [← hkind]
    rfl
  have hdigits : digits (t.text.toList ++ rest) = some (.literal t.unplaced, rest) := by
    have htake := hrest.takeWhile_append (fun _ => isNameChar_of_isDigit) hds
    have hempty : ¬ t.text.toList.isEmpty = true := by simpa using hne
    unfold digits
    simp only [htake]
    rw [if_neg hempty, List.drop_left, String.ofList_toList, htoken]
  have hread : Lexeme.read (t.text.toList ++ rest) = number (t.text.toList ++ rest) := by
    obtain ⟨d, ds, hcons⟩ := List.exists_cons_of_ne_nil hne
    have hd : d.isDigit = true := hds d (by simp [hcons])
    rw [hcons, List.cons_append, read_number (by rw [hd, Bool.true_or])]
  unfold leaf
  rw [hread]
  rcases number_digits hne hds hrest with hnumber | ⟨fault, hnumber⟩
  · rw [hnumber]
    dsimp only
    rw [if_pos (show isLeafKind .integer = true from rfl), List.drop_left, String.ofList_toList,
      htoken]
    rfl
  · rw [hnumber]
    exact hdigits

/-- No leaf starts with a bracket, a quote or a sign. -/
theorem leaf_punctuation {c : Char} (hc : c ∈ punctuation) (cs : List Char) :
    leaf (c :: cs) = none := by
  have hdigit : c.isDigit = false := by
    simp only [punctuation, List.mem_cons, List.not_mem_nil, or_false] at hc
    rcases hc with rfl | rfl | rfl | rfl | rfl | rfl | rfl | rfl | rfl | rfl | rfl | rfl | rfl <;> rfl
  have hdigits : digits (c :: cs) = none := by
    unfold digits
    simp [hdigit]
  unfold leaf
  split
  · next k text hread =>
      have hkind : isLeafKind k = false := by
        rcases read_cases hread with hoperand | ⟨-, cast, -, hcast⟩ | hoperator
        · exact absurd hc hoperand.head.2
        · cases hcast
          rfl
        · obtain ⟨spelling, k', hmem, heq⟩ := exists_of_operator hoperator
          cases heq
          have hall : ∀ o ∈ operators, isLeafKind o.2 = false := by decide
          exact hall _ hmem
      rw [hkind, if_neg Bool.false_ne_true]
  · exact hdigits

end Leaves

section Closed

variable {α : Type} {read : Reader α} {text : List Char} {a : α} {c : Char}

theorem closed_append {stops : List Char} (h : Reads read stops text a) (hc : c ∈ stops)
    (rest : List Char) : closed read c (text ++ c :: rest) = some (a, rest) := by
  simp [closed, h c hc rest]

/-- Things with commas between them are read one by one, if none can be read at the end. -/
theorem separated_append {β : Type} {xs : List β} {shown : β → List Char} {value : β → α}
    (h : ∀ x ∈ xs, Reads read enders (shown x) (value x)) (hc : c ∈ enders) (hne : c ≠ ',')
    (hend : ∀ rest, read (c :: rest) = none) {n : Nat} (hn : xs.length < n) (rest : List Char) :
    separated read c n (List.intercalate [',', ' '] (xs.map shown) ++ c :: rest)
      = some (xs.map value, rest) := by
  induction xs generalizing n with
  | nil =>
      obtain ⟨n, rfl⟩ := Nat.exists_eq_succ_of_ne_zero (Nat.ne_of_gt hn)
      unfold separated
      rw [List.map_nil, List.intercalate_nil, List.nil_append, hend rest]
      rw [expect_singleton]
      rfl
  | cons x xs ih =>
      obtain ⟨n, rfl⟩ := Nat.exists_eq_succ_of_ne_zero (Nat.ne_of_gt (Nat.zero_lt_of_lt hn))
      have hx := h x List.mem_cons_self
      cases xs with
      | nil =>
          unfold separated
          rw [List.map_cons, List.map_nil, List.intercalate_singleton,
            hx c hc rest]
          dsimp only
          rw [expect_cons_ne hne, expect_singleton]
          rfl
      | cons y ys =>
          have hlater := ih (fun y hy => h y (List.mem_cons_of_mem x hy))
            (Nat.lt_of_succ_lt_succ hn)
          have htext : List.intercalate [',', ' '] ((x :: y :: ys).map shown) ++ c :: rest
              = shown x ++ ',' :: (' ' :: (List.intercalate [',', ' '] ((y :: ys).map shown)
                ++ c :: rest)) := by
            simp [List.intercalate_cons_cons]
          unfold separated
          rw [htext, hx ',' List.mem_cons_self]
          dsimp only
          rw [show ∀ cs, expect [',', ' '] (',' :: ' ' :: cs) = some cs from
            expect_append [',', ' ']]
          dsimp only
          rw [hlater]
          rfl

end Closed

section Bracketed

variable {read : Reader Expr} {text yesText noText : List Char} {l r e yes no : Expr}

theorem reads_item (h : Reads read closers text e) :
    Reads (element read) enders text (.item e) := by
  intro c hc rest
  obtain ⟨hcloser, hne⟩ := closer_of_ender hc
  simp [element, h c hcloser rest, expect_cons_ne hne]

theorem reads_pair {key value : Expr} {valueText : List Char} (hkey : Reads read closers text key)
    (hvalue : Reads read closers valueText value) :
    Reads (element read) enders (text ++ ' ' :: '=' :: '>' :: ' ' :: valueText)
      (.pair key value) := by
  intro c hc rest
  have harrow : ∀ cs, expect [' ', '=', '>', ' '] (' ' :: '=' :: '>' :: ' ' :: cs) = some cs :=
    expect_append [' ', '=', '>', ' ']
  have hkey := hkey ' ' (by decide) ('=' :: '>' :: ' ' :: (valueText ++ c :: rest))
  simp [element, hkey, harrow, hvalue c (closer_of_ender hc).1 rest]

theorem reads_value (h : Reads read closers text e) :
    Reads (argument read) enders text (.mk false e) := by
  intro c hc rest
  simp [argument, h c (closer_of_ender hc).1 rest]

theorem reads_reference (h : Reads read closers text e) (hmark : ∀ cs, read ('&' :: cs) = none) :
    Reads (argument read) enders ('&' :: text) (.mk true e) := by
  intro c hc rest
  simp [argument, hmark, h c (closer_of_ender hc).1 rest]

theorem reads_joined {symbol : List Char} (hl : Reads read closers text l)
    (hr : Reads read closers yesText r) (hsymbol : ∀ c ∈ symbol, (c != ' ') = true)
    (hne : symbol ≠ ['?']) (hjoined : joined l (String.ofList symbol) r = some e) :
    Reads (bracketed read) [')'] (text ++ ' ' :: (symbol ++ ' ' :: yesText)) e := by
  intro c hc rest
  obtain rfl := List.mem_singleton.mp hc
  have htext : text ++ ' ' :: (symbol ++ ' ' :: yesText) ++ ')' :: rest
      = text ++ ' ' :: (symbol ++ ' ' :: (yesText ++ ')' :: rest)) := by
    simp
  unfold bracketed
  rw [htext, hl ' ' (by decide)]
  have htake : (symbol ++ ' ' :: (yesText ++ ')' :: rest)).takeWhile (fun c => c != ' ')
      = symbol := by
    rw [List.takeWhile_append_of_pos hsymbol]
    simp
  simp [operation, htake, hne, hjoined, hr ')' (by decide) rest]

theorem reads_ternary (hc : Reads read closers text e) (hyes : Reads read closers yesText yes)
    (hno : Reads read closers noText no) :
    Reads (bracketed read) [')']
      (text ++ ' ' :: '?' :: ' ' :: (yesText ++ ' ' :: ':' :: ' ' :: noText))
      (.ternary e ⟨.question, "?", default⟩ yes no) := by
  intro c hc' rest
  obtain rfl := List.mem_singleton.mp hc'
  have hcolon : ∀ cs, expect [' ', ':', ' '] (' ' :: ':' :: ' ' :: cs) = some cs :=
    expect_append [' ', ':', ' ']
  have hc := hc ' ' (by decide) ('?' :: ' ' :: (yesText ++ ' ' :: ':' :: ' ' ::
    (noText ++ ')' :: rest)))
  have hyes := hyes ' ' (by decide) (':' :: ' ' :: (noText ++ ')' :: rest))
  simp [bracketed, operation, hc, hyes, hno ')' (by decide) rest, hcolon]

theorem reads_signed {c : Char} {k : TokenKind}
    (hc : (c, k) ∈ [('-', TokenKind.minus), ('+', .plus), ('!', .bang)])
    (hsign : ∀ cs, read (c :: cs) = none) (h : Reads read closers text e) :
    Reads (bracketed read) [')'] (c :: text) (.unary ⟨k, String.ofList [c], default⟩ e) := by
  intro d hd rest
  obtain rfl := List.mem_singleton.mp hd
  have hlookup : [('-', TokenKind.minus), ('+', .plus), ('!', .bang)].lookup c = some k := by
    simp only [List.mem_cons, Prod.mk.injEq, List.not_mem_nil, or_false] at hc
    rcases hc with ⟨rfl, rfl⟩ | ⟨rfl, rfl⟩ | ⟨rfl, rfl⟩ <;> rfl
  simp [bracketed, hsign, signed, hlookup, h ')' (by decide) rest]

theorem reads_casted (type : CastType)
    (hcast : ∀ cs, read ('(' :: (type.name.toList ++ ')' :: cs)) = none)
    (h : Reads read closers text e) :
    Reads (bracketed read) [')'] ('(' :: (type.name.toList ++ ')' :: ' ' :: text))
      (.cast ⟨.cast, "", default⟩ type e) := by
  intro d hd rest
  obtain rfl := List.mem_singleton.mp hd
  have htext : '(' :: (type.name.toList ++ ')' :: ' ' :: text) ++ ')' :: rest
      = '(' :: (type.name.toList ++ ')' :: ' ' :: (text ++ ')' :: rest)) := by
    simp
  have htake : ∀ cs, (type.name.toList ++ ')' :: cs).takeWhile (fun c => c != ')')
      = type.name.toList := by
    intro cs
    cases type <;> rfl
  have htype : CastType.ofWord? type.name = some type := by
    cases type <;> rfl
  have hclose : ∀ cs, expect [')', ' '] (')' :: ' ' :: cs) = some cs := expect_append [')', ' ']
  have hsigned : signed read ('(' :: (type.name.toList ++ ')' :: ' ' :: (text ++ ')' :: rest)))
      = none := rfl
  unfold bracketed
  rw [htext, hcast]
  dsimp only
  rw [hsigned, Option.none_or]
  simp [casted, htake, htype, hclose, h ')' (by decide) rest]

end Bracketed

/-! ## Reading strings -/

section Strings

variable {c : Char} {cs rest : List Char}

/-- What a run of text stands in front of: the closing quote or a hole. -/
def EndsRun (cs : List Char) : Prop := cs.head? = some '"' ∨ opensHole cs = true

theorem exists_cons_of_endsRun (h : EndsRun cs) :
    ∃ c ds, cs = c :: ds ∧ (c = '"' ∨ c = '{') := by
  rcases h with hquote | hhole
  · exact ⟨'"', _, List.eq_cons_of_mem_head? hquote, .inl rfl⟩
  · unfold opensHole at hhole
    split at hhole
    · exact ⟨'{', _, rfl, .inr rfl⟩
    · cases hhole

theorem opensVariable_cons (hc : c ≠ '(') (cs : List Char) :
    opensVariable (c :: cs) = (c == '$' && startsName cs) := by
  have hparen : (c == '(') = false := by simpa using hc
  unfold opensVariable
  rw [List.dropWhile_cons_of_neg (by simp [hc])]
  split
  · next heq =>
      obtain ⟨rfl, rfl⟩ := List.cons.inj heq
      rfl
  · next hne =>
      by_cases hsigil : c = '$'
      · exact absurd (by rw [hsigil]) (hne cs)
      · simp [hsigil]

/-- A run of text goes on as the source does. -/
theorem startsName_literalRun (h : startsName cs = false) (hrest : startsName rest = false) :
    startsName (Scanner.literalRun cs ++ rest) = false := by
  unfold Scanner.literalRun
  split
  · exact hrest
  · rfl
  · split
    · exact hrest
    · exact h

/-- **No run of text holds what holes are rendered as**: the variable would be a hole. -/
theorem opensVariable_literalRun (hrest : EndsRun rest) (cs : List Char) :
    opensVariable (Scanner.literalRun cs ++ rest) = false := by
  obtain ⟨d, ds, rfl, hd⟩ := exists_cons_of_endsRun hrest
  have hstop : opensVariable (d :: ds) = false := by
    rcases hd with rfl | rfl <;> rfl
  have hname : startsName (d :: ds) = false := by
    rcases hd with rfl | rfl <;> rfl
  fun_induction Scanner.literalRun cs with
  | case1 => exact hstop
  | case2 => rfl
  | case3 => exact hstop
  | case4 c cs _ hplain ih =>
      by_cases hparen : c = '('
      · rw [hparen]
        exact ih
      · rw [List.cons_append, opensVariable_cons hparen]
        by_cases hsigil : c = '$'
        · have hvariable : startsName cs = false := by
            rw [hsigil, Bool.or_eq_true, not_or] at hplain
            exact Bool.eq_false_iff.mpr hplain.2
          rw [startsName_literalRun hvariable hname, Bool.and_false]
        · simp [hsigil]

theorem run_cons (hc : c ≠ '\\') (cs : List Char) :
    run (c :: cs) = if c == '"' || opensHole (c :: cs) then [] else c :: run cs := by
  rw [run]
  rintro c' cs' rfl
  exact absurd rfl hc

theorem run_endsRun (h : EndsRun cs) : run cs = [] := by
  obtain ⟨c, ds, rfl, hc⟩ := exists_cons_of_endsRun h
  rcases h with hquote | hhole
  · obtain rfl : c = '"' := Option.some.inj hquote
    rfl
  · rcases hc with rfl | rfl
    · rfl
    · rw [run_cons (by decide), hhole]
      rfl

/-- A run is found again in the rendering. -/
theorem run_append {text : List Char} (h : Scanner.IsRun text) (hrest : EndsRun rest) :
    run (text ++ rest) = text := by
  obtain ⟨cs, hmore, rfl⟩ := h
  fun_induction Scanner.literalRun cs with
  | case1 => exact absurd rfl hmore
  | case2 c cs ih => exact congrArg ('\\' :: c :: ·) (ih hmore)
  | case3 => exact run_endsRun hrest
  | case4 c cs hescape hstop ih =>
      rw [List.length_cons, List.drop_succ_cons] at hmore
      have hc : c ≠ '\\' := by
        rintro rfl
        cases cs with
        | nil => exact hmore rfl
        | cons c' cs' => exact hescape c' cs' rfl rfl
      have hhole : opensHole (c :: (Scanner.literalRun cs ++ rest)) = false := by
        unfold opensHole
        split
        · next heq =>
            obtain ⟨-, rfl⟩ := List.cons.inj heq
            exact opensVariable_literalRun hrest cs
        · rfl
      have hplain : (c == '"') = false := Bool.eq_false_iff.mpr fun hquote => hstop (by simp [hquote])
      rw [List.cons_append, run_cons hc, hplain, hhole, ih hmore]
      rfl

/-- A hole of a string: it is led by a variable, and it can be read. -/
structure IsHoleText (read : Reader Expr) (part : Expr) : Prop where
  opens : ∀ rest, opensVariable (part.render.toList ++ rest) = true
  reads : Reads read closers part.render.toList part.partOutline

section Parts

variable {read : Reader Expr} {part : Expr} {ps : List Expr} {t : Token}

theorem toList_renderParts_hole (h : part.IsHole) (ps : List Expr) (rest : List Char) :
    (Expr.renderParts (part :: ps)).toList ++ rest
      = '{' :: (part.render.toList ++ '}' :: ((Expr.renderParts ps).toList ++ rest)) := by
  have hpart : part.fragment? = none := h
  simp [Expr.renderParts, Expr.partText, hpart, Expr.braced]

theorem toList_renderParts_run (h : part.fragment? = some t) (ps : List Expr) (rest : List Char) :
    (Expr.renderParts (part :: ps)).toList ++ rest
      = t.text.toList ++ ((Expr.renderParts ps).toList ++ rest) := by
  simp [Expr.renderParts, Expr.partText, h]

theorem endsRun_parts (hholes : ∀ part ∈ ps, part.IsHole → IsHoleText read part)
    (h : ∀ part ∈ ps.head?, part.IsHole) (rest : List Char) :
    EndsRun ((Expr.renderParts ps).toList ++ '"' :: rest) := by
  cases ps with
  | nil => exact .inl rfl
  | cons part ps =>
      have hhole := h part rfl
      rw [toList_renderParts_hole hhole]
      exact .inr ((hholes part List.mem_cons_self hhole).opens _)

theorem literal_of_fragment (h : part.fragment? = some t) : part = .literal t := by
  unfold Expr.fragment? at h
  split at h
  · split at h
    · cases h
      rfl
    · cases h
  · cases h

/-- Runs and holes are read one by one, as long as no two runs touch. -/
theorem parts_append (hruns : ∀ part ∈ ps, ∀ t ∈ part.fragment?, t.IsRun)
    (hholes : ∀ part ∈ ps, part.IsHole → IsHoleText read part)
    (hchain : ps.IsChain fun a b => a.IsHole ∨ b.IsHole) {n : Nat} (hn : ps.length < n)
    (rest : List Char) :
    parts read n ((Expr.renderParts ps).toList ++ '"' :: rest)
      = some (ps.map Expr.partOutline, rest) := by
  induction ps generalizing n with
  | nil =>
      obtain ⟨n, rfl⟩ := Nat.exists_eq_succ_of_ne_zero (Nat.ne_of_gt hn)
      rfl
  | cons part ps ih =>
      obtain ⟨n, rfl⟩ := Nat.exists_eq_succ_of_ne_zero (Nat.ne_of_gt (Nat.zero_lt_of_lt hn))
      have hlater := ih (fun p hp => hruns p (List.mem_cons_of_mem part hp))
        (fun p hp => hholes p (List.mem_cons_of_mem part hp)) hchain.tail
        (Nat.lt_of_succ_lt_succ hn)
      cases hpart : part.fragment? with
      | none =>
          have hhole := hholes part List.mem_cons_self hpart
          rw [toList_renderParts_hole hpart]
          have hrun : run ('{' :: (part.render.toList ++ '}' ::
              ((Expr.renderParts ps).toList ++ '"' :: rest))) = [] :=
            run_endsRun (.inr (hhole.opens _))
          have hclosed := closed_append hhole.reads (c := '}') (by decide)
            ((Expr.renderParts ps).toList ++ '"' :: rest)
          unfold parts
          rw [hrun]
          simp [expect_cons_ne, hclosed, hlater]
      | some t =>
          obtain ⟨hkind, hne, hrun⟩ := hruns part List.mem_cons_self t hpart
          have hends : EndsRun ((Expr.renderParts ps).toList ++ '"' :: rest) := by
            refine endsRun_parts (fun p hp => hholes p (List.mem_cons_of_mem part hp)) ?_ rest
            intro next hnext
            refine (hchain.rel_head? hnext).resolve_left ?_
            rw [Expr.IsHole, hpart]
            exact Option.some_ne_none t
          have houtline : part.partOutline = .literal ⟨.fragment, t.text, default⟩ := by
            rw [Expr.partOutline, hpart, literal_of_fragment hpart, ← hkind]
            rfl
          have hempty : ¬ t.text.toList.isEmpty = true := by simpa using hne
          unfold parts
          rw [toList_renderParts_run hpart, run_append hrun hends, if_neg hempty, List.drop_left,
            hlater, List.map_cons, houtline, String.ofList_toList]
          rfl

/-- A string with a hole in it is no token. -/
theorem string_interpolation (h : ∃ part ∈ ps, part.IsHole ∧ part.isLed = true) :
    string (ps.map Expr.partOutline)
      = .interpolation ⟨.quote, "\"", default⟩ (ps.map Expr.partOutline) := by
  obtain ⟨part, hmem, hhole, hled⟩ := h
  have hpart : part.partOutline.fragment? = none := by
    have hhole : part.fragment? = none := hhole
    rw [Expr.partOutline, hhole]
    exact Expr.fragment?_outline hled
  unfold string
  rw [if_neg]
  intro hall
  have hfragment := List.all_eq_true.mp hall _ (List.mem_map_of_mem hmem)
  rw [hpart] at hfragment
  cases hfragment

/-- The parts of a string that embeds nothing. -/
theorem parts_closedString {text : List Char} (h : Scanner.IsRun text) {n : Nat} (hn : 1 < n)
    (rest : List Char) : ∃ es, parts read n (text ++ '"' :: rest) = some (es, rest) ∧
      string es = .literal ⟨.string, String.ofList ('"' :: (text ++ ['"'])), default⟩ := by
  by_cases hempty : text = []
  · have hread : parts read n ((Expr.renderParts []).toList ++ '"' :: rest) = some ([], rest) :=
      parts_append (by simp) (by simp) .nil (Nat.zero_lt_of_lt hn) rest
    subst hempty
    exact ⟨_, hread, rfl⟩
  · let part : Expr := .literal ⟨.fragment, String.ofList text, default⟩
    have hpart : part.fragment? = some ⟨.fragment, String.ofList text, default⟩ := rfl
    have hrun : Token.IsRun ⟨.fragment, String.ofList text, default⟩ := by
      refine ⟨rfl, ?_, ?_⟩ <;> rwa [String.toList_ofList]
    have hread : parts read n ((Expr.renderParts [part]).toList ++ '"' :: rest)
        = some ([part].map Expr.partOutline, rest) := by
      refine parts_append ?_ ?_ (.singleton part) hn rest
      · rintro _ (_ | ⟨_, ⟨⟩⟩) t ht
        obtain rfl := Option.some.inj (hpart.symm.trans ht)
        exact hrun
      · rintro _ (_ | ⟨_, ⟨⟩⟩) hhole
        cases hhole
    rw [toList_renderParts_run hpart, String.toList_ofList] at hread
    have htext : "\"" ++ (String.ofList text ++ "") ++ "\""
        = String.ofList ('"' :: (text ++ ['"'])) := by
      rw [← String.toList_inj]
      simp
    rw [← htext]
    exact ⟨_, hread, rfl⟩

end Parts

end Strings

end Outline

end GuardedExpr
