/-
# Line breaks — no reader looks across one

Every reader of the scanner decides by the characters up to the next line break,
except that the text of a string may run over it.  So a reader gives the same
result when a break and more text are put behind what it reads (`Unaffected`), or
the string that it is in is still open where the break stands.

Code that is in a string ends at a double quote or a closing brace, and the readers of
code that read no string look across these as little (`tokenEnds`).
-/
import GuardedExpr.Proofs.Scanning
import Mathlib.Data.List.Find

namespace GuardedExpr

open Text

/-- The fault is that the source ends inside of a string. -/
def ParseFault.isOpenString : ParseFault → Bool
  | .unterminatedString _ => true
  | _ => false

/-- The second result is read from the same text with more behind it: what was read is the same,
and a fault remains one. No string is open. -/
inductive Unaffected {α : Type} : Except ScanFault α → Except ScanFault α → Prop
  | ok (a : α) : Unaffected (.ok a) (.ok a)
  | error {f f' : ScanFault} : f.fault.isOpenString = false → Unaffected (.error f) (.error f')

theorem exists_of_map_eq_ok {ε α β : Type} {r : Except ε α} {f : α → β} {b : β}
    (h : r.map f = .ok b) : ∃ a, r = .ok a ∧ f a = b := by
  cases r with
  | error e => cases h
  | ok a => exact ⟨a, rfl, Except.ok.inj h⟩

theorem eq_error_of_map_eq_error {ε α β : Type} {r : Except ε α} {f : α → β} {e : ε}
    (h : r.map f = .error e) : r = .error e := by
  cases r with
  | error e => exact congrArg Except.error (Except.error.inj h)
  | ok a => cases h

theorem Unaffected.bind {α β : Type} {r r' : Except ScanFault α} {f f' : α → Except ScanFault β}
    (h : Unaffected r r') (hf : ∀ a, r = .ok a → Unaffected (f a) (f' a)) :
    Unaffected (r.bind f) (r'.bind f') := by
  cases h with
  | ok a => exact hf a rfl
  | error hfault => exact .error hfault

theorem Unaffected.eq_ok {α : Type} {r : Except ScanFault α} {a : α}
    (h : Unaffected r (.ok a)) : r = .ok a := by
  cases h
  rfl

theorem Unaffected.eq_ok_of_ok {α : Type} {r : Except ScanFault α} {a : α}
    (h : Unaffected (.ok a) r) : r = .ok a := by
  cases h
  rfl

/-! ## Lists -/

section Lists

variable {p : Char → Bool} {cs : List Char} (ds : List Char)

theorem takeWhile_append_cons {z : Char} (hp : p z = false) (cs : List Char) :
    (cs ++ z :: ds).takeWhile p = cs.takeWhile p := by
  induction cs with
  | nil => exact List.takeWhile_cons_of_neg (by simp [hp])
  | cons c cs ih => rw [List.cons_append, List.takeWhile_cons, List.takeWhile_cons, ih]

/-- Whatever stands behind a character that does not occur in it, it starts with the same texts. -/
theorem isPrefix_append_cons {w : List Char} {z : Char} (hw : z ∉ w) :
    w <+: cs ++ z :: ds ↔ w <+: cs := by
  induction cs generalizing w with
  | nil =>
      cases w with
      | nil => simp
      | cons a w =>
          refine ⟨fun h => absurd (List.cons_prefix_cons.mp h).1 ?_, fun h => absurd h (by simp)⟩
          rintro rfl
          exact hw List.mem_cons_self
  | cons c cs ih =>
      cases w with
      | nil => simp
      | cons a w =>
          rw [List.cons_append, List.cons_prefix_cons, List.cons_prefix_cons,
            ih fun h => hw (List.mem_cons_of_mem a h)]

/-- Behind a front of the text the rest of it goes on with what was put behind it. -/
theorem drop_length_append_cons {z : Char} {w : List Char} (h : w <+: cs) :
    (cs ++ z :: ds).drop w.length = cs.drop w.length ++ z :: ds :=
  List.drop_append_of_le_length h.length_le

end Lists

/-- Characters that stand in no token but strings, braces and quotes. -/
def tokenEnds : List Char := ['\n', '"', '\x7d']

theorem lineBreak_mem_tokenEnds : '\n' ∈ tokenEnds := List.mem_cons_self

namespace Lexeme

variable (cs ds : List Char)

/-- The operator at the front ends in front of a character that is part of none. -/
theorem find?_operators_append {z : Char} (hz : ∀ o ∈ operators, z ∉ o.1.toList) :
    (operators.find? fun o => o.1.toList.isPrefixOf (cs ++ z :: ds))
      = operators.find? fun o => o.1.toList.isPrefixOf cs := by
  refine List.find?_congr fun o ho => ?_
  rw [Bool.eq_iff_iff, List.isPrefixOf_iff_prefix, List.isPrefixOf_iff_prefix]
  exact isPrefix_append_cons ds (hz o ho)

section Ends

variable {z : Char} (hz : z ∈ tokenEnds)

include hz

omit cs ds in
theorem eq_of_mem_tokenEnds : z = '\n' ∨ z = '"' ∨ z = '\x7d' := by simpa [tokenEnds] using hz

omit cs in
/-- A run of a class with none of these characters ends there. -/
theorem takeWhile_append_end {p : Char → Bool} (hp : tokenEnds.any p = false)
    (cs : List Char) : (cs ++ z :: ds).takeWhile p = cs.takeWhile p :=
  takeWhile_append_cons ds (Bool.eq_false_iff.mpr (List.any_eq_false.mp hp z hz)) cs

/-! ## Words and numbers -/

theorem startsName_append_end : startsName (cs ++ z :: ds) = startsName cs := by
  rcases eq_of_mem_tokenEnds hz with rfl | rfl | rfl <;> cases cs <;> rfl

theorem startsDigit_append_end : startsDigit (cs ++ z :: ds) = startsDigit cs := by
  rcases eq_of_mem_tokenEnds hz with rfl | rfl | rfl <;> cases cs <;> rfl

theorem wordText_append_end : wordText (cs ++ z :: ds) = wordText cs := by
  induction cs with
  | nil => rcases eq_of_mem_tokenEnds hz with rfl | rfl | rfl <;> rfl
  | cons c cs ih => rw [List.cons_append, wordText, wordText, startsName_append_end cs ds hz, ih]

theorem variableText_append_end (c : Char) :
    variableText (c :: cs ++ z :: ds) = variableText (c :: cs) :=
  congrArg (c :: ·) (takeWhile_append_end ds hz (p := isNameChar) (by decide) cs)

theorem variableName_append_end (c : Char) :
    variableName (c :: cs ++ z :: ds) = variableName (c :: cs) :=
  congrArg (Piece.lexeme .variable) (variableText_append_end cs ds hz c)

theorem radix?_append_end : radix? (cs ++ z :: ds) = radix? cs := by
  rcases cs with _ | ⟨c, _ | ⟨d, cs⟩⟩
  · rcases eq_of_mem_tokenEnds hz with rfl | rfl | rfl <;> rfl
  · by_cases hc : c = '0'
    · subst hc
      rcases eq_of_mem_tokenEnds hz with rfl | rfl | rfl <;> rfl
    · unfold radix?
      split <;> simp_all
  · by_cases hc : c = '0'
    · subst hc
      rfl
    · unfold radix?
      split <;> simp_all

theorem radixNumber_unaffected (base : Nat) (hlen : 2 ≤ cs.length) :
    Unaffected (radixNumber base cs) (radixNumber base (cs ++ z :: ds)) := by
  unfold radixNumber
  rw [List.drop_append_of_le_length hlen, takeWhile_append_end ds hz (by decide),
    List.take_append_of_le_length hlen]
  dsimp only
  split
  · exact .ok _
  · exact .error rfl

theorem fractionText_append_end : fractionText (cs ++ z :: ds) = fractionText cs := by
  have hdigits := takeWhile_append_end ds hz (p := isDigitOrMark) (by decide)
  rcases cs with _ | ⟨c, cs⟩
  · rcases eq_of_mem_tokenEnds hz with rfl | rfl | rfl <;> rfl
  · by_cases hc : c = '.'
    · subst hc
      simp only [fractionText, List.cons_append, startsDigit_append_end cs ds hz, hdigits]
    · unfold fractionText
      split <;> simp_all

theorem exponentText_append_end : exponentText (cs ++ z :: ds) = exponentText cs := by
  have hdigits := takeWhile_append_end ds hz (p := Char.isDigit) (by decide)
  rcases cs with _ | ⟨c, cs⟩
  · rcases eq_of_mem_tokenEnds hz with rfl | rfl | rfl <;> rfl
  · have hsign : ((cs ++ z :: ds).take 1).takeWhile (fun c => c == '+' || c == '-')
        = (cs.take 1).takeWhile fun c => c == '+' || c == '-' := by
      rcases eq_of_mem_tokenEnds hz with rfl | rfl | rfl <;> cases cs <;> rfl
    have hfront : (cs.take 1).takeWhile (fun c => c == '+' || c == '-') <+: cs :=
      (List.takeWhile_prefix _).trans (List.take_prefix 1 cs)
    simp only [List.cons_append, exponentText, hsign, drop_length_append_cons ds hfront, hdigits]

theorem decimalNumber_unaffected :
    Unaffected (decimalNumber cs) (decimalNumber (cs ++ z :: ds)) := by
  have hwhole : cs.takeWhile isDigitOrMark <+: cs := List.takeWhile_prefix _
  have hmantissa := isPrefix_append hwhole (fractionText_isPrefix _)
  have htext := isPrefix_append hmantissa (exponentText_isPrefix _)
  have hdigits := takeWhile_append_end ds hz (p := isDigitOrMark) (by decide)
  have hnames := takeWhile_append_end ds hz (p := isNameChar) (by decide)
  have hfraction := fun cs => fractionText_append_end cs ds hz
  have hexponent := fun cs => exponentText_append_end cs ds hz
  unfold decimalNumber
  simp only [hdigits, drop_length_append_cons ds hwhole, hfraction,
    drop_length_append_cons ds hmantissa, hexponent, drop_length_append_cons ds htext, hnames]
  split
  · exact .ok _
  · exact .error rfl

theorem number_unaffected : Unaffected (number cs) (number (cs ++ z :: ds)) := by
  unfold number
  rw [radix?_append_end cs ds hz]
  split
  · next base hbase =>
      refine radixNumber_unaffected cs ds hz base ?_
      unfold radix? at hbase
      split at hbase
      · simp
      · cases hbase
  · exact decimalNumber_unaffected cs ds hz

/-! ## Casts and operators -/

theorem castText?_append_end (c : Char) :
    castText? (c :: cs ++ z :: ds) = castText? (c :: cs) := by
  have hdrop : ∀ n, n ≤ (c :: cs).length →
      (c :: cs ++ z :: ds).drop n = (c :: cs).drop n ++ z :: ds := fun _ =>
    List.drop_append_of_le_length
  have hlen : ∀ (p : Char → Bool) n, n ≤ (c :: cs).length →
      n + (((c :: cs).drop n).takeWhile p).length ≤ (c :: cs).length := by
    intro p n hn
    have := (List.takeWhile_prefix p (l := (c :: cs).drop n)).length_le
    rw [List.length_drop] at this
    omega
  -- every part is taken from behind the one before it
  have hopen : 1 ≤ (c :: cs).length := Nat.succ_le_succ (Nat.zero_le _)
  have hfront := hlen isSpaceOrTab 1 hopen
  have htype := hlen Char.isAlpha _ hfront
  have hback := hlen isSpaceOrTab _ htype
  unfold castText?
  rw [show (c :: cs ++ z :: ds).take 1 = [c] from rfl, show (c :: cs).take 1 = [c] from rfl]
  dsimp only
  rw [hdrop _ hopen, takeWhile_append_end ds hz (by decide), hdrop _ hfront,
    takeWhile_append_end ds hz (by decide), hdrop _ htype,
    takeWhile_append_end ds hz (by decide)]
  simp only [List.length_append, List.length_singleton]
  rw [hdrop _ hback]
  rcases (c :: cs).drop _ with _ | ⟨stop, rest⟩
  · rcases eq_of_mem_tokenEnds hz with rfl | rfl | rfl <;> rfl
  · by_cases hstop : stop = ')'
    · subst hstop
      rfl
    · simp [hstop]

theorem operator_unaffected : Unaffected (operator cs) (operator (cs ++ z :: ds)) := by
  have hnone : ∀ o ∈ operators, z ∉ o.1.toList := by
    rcases eq_of_mem_tokenEnds hz with rfl | rfl | rfl <;> decide
  unfold operator
  rw [find?_operators_append cs ds hnone]
  cases operators.find? fun o => o.1.toList.isPrefixOf cs with
  | none => exact .error rfl
  | some o => exact .ok _

/-! ## The token at the front -/

/-- The first token of some code that is no string stands in front of such a character. -/
theorem read_unaffected {c : Char} (hc : c ≠ '\'') :
    Unaffected (read (c :: cs)) (read (c :: cs ++ z :: ds)) := by
  have hquote : (c == '\'') = false := by simpa using hc
  have hword : word (c :: cs ++ z :: ds) = word (c :: cs) := by
    unfold word
    rw [wordText_append_end (c :: cs) ds hz]
  unfold read
  simp only [List.cons_append, startsName_append_end cs ds hz, startsDigit_append_end cs ds hz,
    hquote, Bool.false_eq_true, if_false]
  rw [← List.cons_append, variableName_append_end cs ds hz, hword, castText?_append_end cs ds hz]
  split
  · exact .ok _
  · split
    · exact number_unaffected (c :: cs) ds hz
    · split
      · exact .ok _
      · split
        · split
          · exact .ok _
          · exact operator_unaffected (c :: cs) ds hz
        · exact operator_unaffected (c :: cs) ds hz

end Ends

/-! ## Texts of strings -/

theorem singleQuoted?_cons {c : Char} (hquote : c ≠ '\'') (hescape : c ≠ '\\') :
    singleQuoted? (c :: cs) = (singleQuoted? cs).map (c :: ·) := by
  rw [singleQuoted?]
  · exact hquote
  · intro c' cs' hc
    exact absurd hc hescape

/-- The text of a string has ended before the break, or what there is of it runs over it. -/
inductive RunsOver (cs : List Char) : Option (List Char) → Option (List Char) → Prop
  | ended (text : List Char) : RunsOver cs (some text) (some text)
  | goesOn {r : Option (List Char)} :
      (∀ text, r = some text → cs ++ ['\n'] <+: text) → RunsOver cs none r

theorem RunsOver.behind {cs : List Char} {r r' : Option (List Char)} (h : RunsOver cs r r')
    (front : List Char) : RunsOver (front ++ cs) (r.map (front ++ ·)) (r'.map (front ++ ·)) := by
  cases h with
  | ended text => exact .ended (front ++ text)
  | goesOn h =>
      refine .goesOn fun text htext => ?_
      obtain ⟨more, hmore, rfl⟩ := Option.map_eq_some_iff.mp htext
      rw [List.append_assoc]
      exact (List.prefix_append_right_inj front).mpr (h more hmore)

theorem singleQuoted?_runsOver :
    RunsOver cs (singleQuoted? cs) (singleQuoted? (cs ++ '\n' :: ds)) := by
  have hbreak : ∀ front : List Char, RunsOver front none
      ((singleQuoted? ds).map (front ++ '\n' :: ·)) := by
    intro front
    refine .goesOn fun text htext => ?_
    obtain ⟨more, -, rfl⟩ := Option.map_eq_some_iff.mp htext
    exact ⟨more, by simp⟩
  fun_induction singleQuoted? cs with
  | case1 => exact hbreak []
  | case2 rest => exact .ended _
  | case3 c cs ih => exact ih.behind ['\\', c]
  | case4 c cs hquote hescape ih =>
      by_cases hc : c = '\\'
      · subst hc
        -- a backslash that ends the line takes the break along
        obtain rfl : cs = [] := by
          cases cs with
          | nil => rfl
          | cons c' cs' => exact (hescape c' cs' rfl rfl).elim
        exact hbreak ['\\']
      · rw [List.cons_append, singleQuoted?_cons _ hquote hc]
        exact ih.behind [c]

end Lexeme

namespace Scanner

open Lexeme Piece

variable (cs ds : List Char)

theorem startsHole_lineBreak : startsHole (cs ++ '\n' :: ds) = startsHole cs := by
  rcases cs with _ | ⟨c, cs⟩
  · rfl
  · by_cases hdollar : c = '$'
    · subst hdollar
      exact startsName_append_end cs ds lineBreak_mem_tokenEnds
    · by_cases hbrace : c = '\x7b'
      · subst hbrace
        cases cs <;> rfl
      · simp [startsHole, hdollar, hbrace]

theorem literalRun_cons {c : Char} (hescape : c ≠ '\\') :
    literalRun (c :: cs) = if c == '"' || startsHole (c :: cs) then [] else c :: literalRun cs := by
  rw [literalRun]
  intro c' cs' hc
  exact absurd hc hescape

/-- A literal text ends before the break, or what there is of it runs over the break. -/
theorem literalRun_lineBreak :
    (∃ c rest, cs.drop (literalRun cs).length = c :: rest ∧
      literalRun (cs ++ '\n' :: ds) = literalRun cs) ∨
    (literalRun cs = cs ∧ cs ++ ['\n'] <+: literalRun (cs ++ '\n' :: ds)) := by
  fun_induction literalRun cs with
  | case1 => exact .inr ⟨rfl, literalRun ds, rfl⟩
  | case2 c cs ih =>
      rcases ih with ⟨stop, rest, hcs, hrun⟩ | ⟨hcs, hrun⟩
      · exact .inl ⟨stop, rest, hcs, congrArg ('\\' :: c :: ·) hrun⟩
      · refine .inr ⟨congrArg _ (congrArg _ hcs), ?_⟩
        exact (List.prefix_cons_inj _).mpr ((List.prefix_cons_inj _).mpr hrun)
  | case3 c cs hescape hstop =>
      have hc : c ≠ '\\' := by
        rintro rfl
        cases hstop
      refine .inl ⟨c, cs, rfl, ?_⟩
      rw [List.cons_append, literalRun_cons _ hc, ← List.cons_append, startsHole_lineBreak,
        if_pos hstop]
  | case4 c cs hescape hstop ih =>
      by_cases hc : c = '\\'
      · subst hc
        obtain rfl : cs = [] := by
          cases cs with
          | nil => rfl
          | cons c' cs' => exact (hescape c' cs' rfl rfl).elim
        exact .inr ⟨rfl, literalRun ds, rfl⟩
      · rw [List.cons_append, literalRun_cons _ hc, ← List.cons_append, startsHole_lineBreak,
          if_neg hstop]
        rcases ih with ⟨stop, rest, hcs, hrun⟩ | ⟨hcs, hrun⟩
        · exact .inl ⟨stop, rest, hcs, congrArg _ hrun⟩
        · exact .inr ⟨congrArg _ hcs, (List.prefix_cons_inj _).mpr hrun⟩

/-! ## Variables in strings -/

theorem digitsPiece_lineBreak : digitsPiece (cs ++ '\n' :: ds) = digitsPiece cs :=
  congrArg (Piece.lexeme .integer) (takeWhile_append_cons ds (z := '\n') (p := Char.isDigit) rfl cs)

theorem embeddedOffset_unaffected :
    Unaffected (embeddedOffset cs) (embeddedOffset (cs ++ '\n' :: ds)) := by
  rcases cs with _ | ⟨c, cs⟩
  · exact .error rfl
  · unfold embeddedOffset
    have hbreak := lineBreak_mem_tokenEnds
    simp only [List.cons_append, startsName_append_end cs ds hbreak,
      startsDigit_append_end cs ds hbreak]
    rw [← List.cons_append, variableName_append_end cs ds hbreak, digitsPiece_lineBreak,
      digitsPiece_lineBreak, takeWhile_append_cons ds rfl]
    split
    · exact .ok _
    · split
      · exact .ok _
      · split
        · exact .ok _
        · split
          · exact .ok _
          · exact .error rfl

/-- With a bracket behind it a variable has an offset. -/
theorem embeddedVariable_of_bracket {cs rest : List Char}
    (h : cs.drop (variableText cs).length = '[' :: rest) :
    embeddedVariable cs = (embeddedOffset rest).bind fun offset =>
      match rest.drop (textLength offset) with
      | ']' :: _ => .ok (.lexeme .variable (variableText cs) :: .lexeme .lbracket ['['] :: offset
          ++ [.lexeme .rbracket [']']])
      | stop => .error (.unexpected stop) := by
  unfold embeddedVariable
  simp only [h]
  cases embeddedOffset rest <;> rfl

theorem embeddedVariable_unaffected (c : Char) :
    Unaffected (embeddedVariable (c :: cs)) (embeddedVariable (c :: cs ++ '\n' :: ds)) := by
  have hdrop : (c :: cs ++ '\n' :: ds).drop (variableText (c :: cs ++ '\n' :: ds)).length
      = (c :: cs).drop (variableText (c :: cs)).length ++ '\n' :: ds := by
    rw [variableText_append_end cs ds lineBreak_mem_tokenEnds,
      drop_length_append_cons ds (variableText_isPrefix (c :: cs))]
  by_cases hbracket : ∃ rest, (c :: cs).drop (variableText (c :: cs)).length = '[' :: rest
  · obtain ⟨rest, hrest⟩ := hbracket
    have hmore : (c :: cs ++ '\n' :: ds).drop (variableText (c :: cs ++ '\n' :: ds)).length
        = '[' :: (rest ++ '\n' :: ds) := by
      rw [hdrop, hrest]
      rfl
    rw [embeddedVariable_of_bracket hrest, embeddedVariable_of_bracket hmore,
      variableText_append_end cs ds lineBreak_mem_tokenEnds]
    refine (embeddedOffset_unaffected rest ds).bind fun offset hoffset => ?_
    have hfront := (embeddedOffset_fronts hoffset).texts_isPrefix
    rw [textLength_eq, drop_length_append_cons ds hfront]
    rcases rest.drop (texts offset).length with _ | ⟨stop, more⟩
    · exact .error rfl
    · by_cases hstop : stop = ']'
      · subst hstop
        exact .ok _
      · simpa [hstop] using Unaffected.error rfl
  · unfold embeddedVariable
    dsimp only
    rw [hdrop, variableText_append_end cs ds lineBreak_mem_tokenEnds]
    rcases hrest : (c :: cs).drop (variableText (c :: cs)).length with _ | ⟨d, rest⟩
    · exact .ok _
    · have hd : d ≠ '[' := by
        rintro rfl
        exact hbracket ⟨rest, hrest⟩
      by_cases harrow : d = '-'
      · subst harrow
        rcases rest with _ | ⟨e, rest⟩
        · exact .ok _
        · by_cases he : e = '>'
          · subst he
            simp only [List.cons_append, startsName_append_end rest ds lineBreak_mem_tokenEnds,
              takeWhile_append_cons ds (z := '\n') (p := isNameChar) rfl]
            split <;> exact .ok _
          · simpa [he] using Unaffected.ok _
      · simpa [hd, harrow] using Unaffected.ok _

/-! ## Steps -/

namespace Mode

/-- The mode when more stands behind the source: the open strings reach as far as it. -/
def before (tail : List Char) : Mode → Mode
  | .code => .code
  | .hole braces outer => .hole braces (outer.before tail)
  | .text opening outer => .text (opening ++ tail) (outer.before tail)

theorem frames_before (tail : List Char) (mode : Mode) :
    (mode.before tail).frames = mode.frames := by
  induction mode with
  | code => rfl
  | hole braces outer ih => exact congrArg (Frame.hole braces :: ·) ih
  | text opening outer ih => exact congrArg (Frame.text :: ·) ih

theorem openBrace_before (tail : List Char) (mode : Mode) :
    (mode.before tail).openBrace = mode.openBrace.before tail := by
  cases mode <;> rfl

theorem closeBrace_before (tail : List Char) (mode : Mode) :
    (mode.before tail).closeBrace = mode.closeBrace.before tail := by
  cases mode with
  | hole braces outer => cases braces <;> rfl
  | _ => rfl

end Mode

/-- The step gives the same pieces when there is a line break and more behind the source. -/
def StepUnaffected (r r' : Except ScanFault (List Piece × Mode)) : Prop :=
  Unaffected (r.map fun s => (s.1, s.2.before ('\n' :: ds))) r'

/-- What a reader gives is a step that stays in the mode. -/
theorem StepUnaffected.of_reader {α : Type} {r r' : Except ScanFault α} (h : Unaffected r r')
    (f : α → List Piece) (mode : Mode) :
    StepUnaffected ds (r.map fun a => (f a, mode))
      (r'.map fun a => (f a, mode.before ('\n' :: ds))) := by
  cases h with
  | ok a => exact .ok _
  | error hf => exact .error hf

/-- What a step gives at the start of a string that is open at the break: the string as a whole,
or its opening quote. -/
inductive OpensString (mode : Mode) : List Piece × Mode → Prop
  | whole {text : List Char} : cs ++ ['\n'] <+: text →
      OpensString mode ([.lexeme .string text], mode)
  | quote {rest : List Char} : cs = '"' :: rest → literalRun rest = rest →
      OpensString mode ([.lexeme .quote ['"']], .text (cs ++ '\n' :: ds) mode)

/-- A string starts here, and the source ends inside of it. -/
def StaysOpen (mode : Mode) (r r' : Except ScanFault (List Piece × Mode)) : Prop :=
  ∃ f, r = .error f ∧ f.fault.isOpenString = true ∧
    ∀ s, r' = .ok s → OpensString cs ds (mode.before ('\n' :: ds)) s

theorem doubleQuoted_lineBreak (mode : Mode) :
    StepUnaffected ds (doubleQuoted ('"' :: cs) mode)
      (doubleQuoted ('"' :: cs ++ '\n' :: ds) (mode.before ('\n' :: ds))) ∨
    StaysOpen ('"' :: cs) ds mode (doubleQuoted ('"' :: cs) mode)
      (doubleQuoted ('"' :: cs ++ '\n' :: ds) (mode.before ('\n' :: ds))) := by
  have hdrop : ∀ cs n, ('"' :: cs).drop (1 + n) = cs.drop n := by
    intro cs n
    rw [Nat.add_comm, List.drop_succ_cons]
  unfold doubleQuoted
  simp only [List.cons_append, hdrop, List.drop_succ_cons, List.drop_zero]
  rcases literalRun_lineBreak cs ds with ⟨c, rest, hcs, hrun⟩ | ⟨hcs, hrun⟩
  · left
    rw [hrun, drop_length_append_cons ds (literalRun_isPrefix cs), hcs]
    by_cases hc : c = '"'
    · subst hc
      exact .ok _
    · simp only [List.cons_append, List.cons.injEq, hc, false_and, imp_self, implies_true]
      exact .ok _
  · right
    rw [hcs, List.drop_length]
    refine ⟨_, rfl, rfl, fun s hs => ?_⟩
    split at hs
    · cases hs
    · cases hs
      refine .whole ((List.prefix_cons_inj _).mpr (hrun.trans ?_))
      exact List.prefix_append _ _
    · cases hs
      exact .quote rfl hcs

theorem singleQuotedString_lineBreak :
    Unaffected (singleQuotedString ('\'' :: cs)) (singleQuotedString ('\'' :: cs ++ '\n' :: ds)) ∨
    ((∃ f, singleQuotedString ('\'' :: cs) = .error f ∧ f.fault.isOpenString = true) ∧
      ∀ p, singleQuotedString ('\'' :: cs ++ '\n' :: ds) = .ok p →
        ∃ text, p = .lexeme .string text ∧ '\'' :: cs ++ ['\n'] <+: text) := by
  have hover := singleQuoted?_runsOver cs ds
  unfold singleQuotedString
  simp only [List.cons_append, List.drop_succ_cons, List.drop_zero]
  generalize singleQuoted? cs = r, singleQuoted? (cs ++ '\n' :: ds) = r' at hover
  cases hover with
  | ended text => exact .inl (.ok _)
  | goesOn hmore =>
      refine .inr ⟨⟨_, rfl, rfl⟩, fun p hp => ?_⟩
      split at hp
      · next text =>
          cases hp
          exact ⟨_, rfl, (List.prefix_cons_inj _).mpr (hmore text rfl)⟩
      · cases hp

/-- A step in code that does not start with a blank. -/
theorem codeStep_lineBreak (mode : Mode) {c : Char} (hc : isTokenBlank c = false) :
    StepUnaffected ds (codeStep mode (c :: cs))
      (codeStep (mode.before ('\n' :: ds)) (c :: cs ++ '\n' :: ds)) ∨
    StaysOpen (c :: cs) ds mode (codeStep mode (c :: cs))
      (codeStep (mode.before ('\n' :: ds)) (c :: cs ++ '\n' :: ds)) := by
  have hblanks : ∀ cs, (c :: cs).takeWhile isTokenBlank = [] := fun cs =>
    List.takeWhile_cons_of_neg (by simp [hc])
  unfold codeStep
  simp only [List.cons_append, hblanks, List.isEmpty_nil, Bool.not_true, Bool.false_eq_true,
    if_false]
  by_cases hopen : c = '\x7b'
  · subst hopen
    left
    simp only [Mode.openBrace_before]
    exact .ok _
  · by_cases hclose : c = '\x7d'
    · subst hclose
      left
      simp only [Mode.closeBrace_before]
      exact .ok _
    · by_cases hdouble : c = '"'
      · subst hdouble
        exact doubleQuoted_lineBreak cs ds mode
      · simp only [List.cons.injEq, hopen, hclose, hdouble, false_and, imp_self, implies_true]
        by_cases hsingle : c = '\''
        · subst hsingle
          have hread : ∀ cs, read ('\'' :: cs) = singleQuotedString ('\'' :: cs) := fun _ => rfl
          rw [hread, hread]
          rcases singleQuotedString_lineBreak cs ds with h | ⟨⟨f, hf, hopen⟩, hwhole⟩
          · exact .inl (.of_reader ds h (fun p => [p]) mode)
          · refine .inr ⟨f, by rw [hf]; rfl, hopen, fun s hs => ?_⟩
            obtain ⟨p, hp, rfl⟩ := exists_of_map_eq_ok hs
            obtain ⟨text, rfl, htext⟩ := hwhole p hp
            exact .whole htext
        · have hread := read_unaffected cs ds lineBreak_mem_tokenEnds hsingle
          exact .inl (.of_reader ds hread (fun p => [p]) mode)

theorem literalRun_of_startsHole {cs : List Char} (h : startsHole cs = true) :
    literalRun cs = [] := by
  rcases cs with _ | ⟨c, cs⟩
  · rfl
  · have hescape : c ≠ '\\' := by
      rintro rfl
      cases h
    rw [literalRun_cons cs hescape, if_pos (by rw [h, Bool.or_true])]

/-- A literal text that is not empty is the next piece of its string. -/
theorem textStep_of_literalRun {cs : List Char} (opening : List Char) (outer : Mode)
    (h : literalRun cs ≠ []) :
    textStep opening outer cs = .ok ([.lexeme .fragment (literalRun cs)], .text opening outer) := by
  unfold textStep
  split
  · exact absurd rfl h
  · exact absurd (literalRun_of_startsHole rfl) h
  · rw [if_neg fun hhole => h (literalRun_of_startsHole hhole)]

/-- A step in a string is unaffected, or all that is left is a literal text. -/
theorem textStep_lineBreak (opening : List Char) (outer : Mode) :
    StepUnaffected ds (textStep opening outer cs)
      (textStep (opening ++ '\n' :: ds) (outer.before ('\n' :: ds)) (cs ++ '\n' :: ds)) ∨
    literalRun cs = cs := by
  rcases cs with _ | ⟨c, cs⟩
  · exact .inr rfl
  · by_cases hquote : c = '"'
    · subst hquote
      exact .inl (.ok _)
    · cases hhole : startsHole (c :: cs) with
      | true =>
          left
          by_cases hbrace : c = '\x7b'
          · subst hbrace
            obtain ⟨rest, rfl⟩ : ∃ rest, cs = '$' :: rest :=
              List.head?_eq_some_iff.mp (by simpa [startsHole] using hhole)
            exact .ok _
          · unfold textStep
            rw [startsHole_lineBreak, hhole]
            simp only [List.cons_append, List.cons.injEq, hquote, hbrace, false_and, imp_self,
              implies_true, if_true]
            exact .of_reader ds (embeddedVariable_unaffected cs ds c) id (.text opening outer)
      | false =>
          have hne : literalRun (c :: cs) ≠ [] :=
            literalRun_ne_nil (List.cons_ne_nil c cs) (by simpa using hquote) hhole
          rcases literalRun_lineBreak (c :: cs) ds with ⟨stop, rest, -, hrun⟩ | ⟨hcs, -⟩
          · left
            rw [textStep_of_literalRun opening outer hne,
              textStep_of_literalRun _ _ (by rwa [hrun]), hrun]
            exact .ok _
          · exact .inr hcs

end Scanner

end GuardedExpr
