/-
# Scanning — what one step of the scanner takes

Every step takes a non-empty stretch from the front of what is left, and the pieces
of the step cover the stretch without a gap (`step_takes`).  So the pieces of a
whole source, one behind the other, are the source (`scan_covers`).

Where a piece stands is not told by its characters alone: a blank inside of a
string belongs to its text.  `TokenKind.framesAfter` follows the quotes and braces
among the kinds of the tokens, and `Quoted` says that no blank was taken where a
text is open.  The scanner keeps its own account in `Mode`; `Mode.frames` is what
the two have in common.
-/
import GuardedExpr.Token.Scanner

namespace GuardedExpr

open Text

/-! ## Frames -/

/-- What a token can stand in: the text of a string, or an expression in braces inside of one,
which has opened some braces of its own. -/
inductive Frame where
  | text
  | hole (braces : Nat)
deriving DecidableEq, Repr

/-- The frames behind a token, the innermost first, given those before it. -/
def TokenKind.framesAfter : TokenKind → List Frame → List Frame
  | .quote, .text :: fs => fs
  | .quote, fs => .text :: fs
  | .lbrace, .text :: fs => .hole 0 :: .text :: fs
  | .lbrace, .hole braces :: fs => .hole (braces + 1) :: fs
  | .rbrace, .hole 0 :: fs => fs
  | .rbrace, .hole (braces + 1) :: fs => .hole braces :: fs
  | _, fs => fs

/-- Kinds inside of the input that neither open nor close a frame. -/
def TokenKind.isPlain : TokenKind → Bool
  | .quote | .lbrace | .rbrace | .eof => false
  | _ => true

theorem TokenKind.framesAfter_of_isPlain {k : TokenKind} (h : k.isPlain = true) (fs : List Frame) :
    k.framesAfter fs = fs := by
  unfold framesAfter
  split <;> first | rfl | cases h

/-- In code a quote opens a string. -/
theorem TokenKind.framesAfter_quote {fs : List Frame} (hcode : fs.head? ≠ some .text) :
    TokenKind.quote.framesAfter fs = .text :: fs := by
  unfold framesAfter
  split <;> simp_all

namespace Piece

/-- The characters of some pieces, one behind the other. -/
def texts (ps : List Piece) : List Char := ps.flatMap text

theorem textLength_eq (ps : List Piece) : textLength ps = (texts ps).length := by
  simp [textLength, texts, List.length_flatMap]

/-- The piece may stand where the frames are open: it takes something, a token other than the end
of the input or blanks outside of the texts of strings. -/
def Fits (fs : List Frame) : Piece → Prop
  | .blank text => text ≠ [] ∧ (∀ c ∈ text, isTokenBlank c = true) ∧ fs.head? ≠ some .text
  | .lexeme kind text => text ≠ [] ∧ kind ≠ .eof

def framesAfter (fs : List Frame) : Piece → List Frame
  | .blank _ => fs
  | .lexeme kind _ => kind.framesAfter fs

/-- Every piece fits between the first frames and the last. -/
inductive Quoted : List Frame → List Piece → List Frame → Prop
  | nil (fs : List Frame) : Quoted fs [] fs
  | cons {fs fs' : List Frame} {p : Piece} {ps : List Piece} :
      p.Fits fs → Quoted (p.framesAfter fs) ps fs' → Quoted fs (p :: ps) fs'

theorem Quoted.single {fs : List Frame} {p : Piece} (h : p.Fits fs) :
    Quoted fs [p] (p.framesAfter fs) := .cons h (.nil _)

theorem Quoted.append {fs₁ fs₂ fs₃ : List Frame} {ps qs : List Piece} (h : Quoted fs₁ ps fs₂)
    (h' : Quoted fs₂ qs fs₃) : Quoted fs₁ (ps ++ qs) fs₃ := by
  induction h with
  | nil => exact h'
  | cons hp _ ih => exact .cons hp (ih h')

theorem Quoted.textLength_pos {fs fs' : List Frame} {ps : List Piece} (h : Quoted fs ps fs')
    (hne : ps ≠ []) : 0 < textLength ps := by
  cases h with
  | nil => exact absurd rfl hne
  | @cons _ _ p ps hp _ =>
      have htext : p.text ≠ [] := by cases p <;> exact hp.1
      have := List.length_pos_iff.mpr htext
      simp only [textLength, List.map_cons, List.sum_cons]
      omega

/-- A plain token that some text starts with. -/
inductive Front (cs : List Char) : Piece → Prop
  | lexeme {kind : TokenKind} {text : List Char} :
      kind.isPlain = true → text ≠ [] → text <+: cs → Front cs (.lexeme kind text)

theorem Front.quoted {cs : List Char} {p : Piece} (h : Front cs p) (fs : List Frame) :
    Quoted fs [p] fs := by
  cases h with
  | @lexeme kind text hkind htext _ =>
      have heof : kind ≠ .eof := by
        rintro rfl
        cases hkind
      have hfs : Quoted fs [.lexeme kind text] (kind.framesAfter fs) := .single ⟨htext, heof⟩
      rwa [TokenKind.framesAfter_of_isPlain hkind] at hfs

/-- Plain tokens, one behind the other, at the front of some text. -/
inductive Fronts : List Char → List Piece → Prop
  | nil (cs : List Char) : Fronts cs []
  | cons {cs : List Char} {p : Piece} {ps : List Piece} :
      Front cs p → Fronts (cs.drop p.text.length) ps → Fronts cs (p :: ps)

theorem Fronts.append {cs : List Char} {ps qs : List Piece} (h : Fronts cs ps)
    (h' : Fronts (cs.drop (textLength ps)) qs) : Fronts cs (ps ++ qs) := by
  induction h with
  | nil => exact h'
  | cons hp _ ih =>
      refine .cons hp (ih ?_)
      rwa [List.drop_drop]

theorem Fronts.quoted {cs : List Char} {ps : List Piece} (h : Fronts cs ps) (fs : List Frame) :
    Quoted fs ps fs := by
  induction h with
  | nil => exact .nil fs
  | cons hp _ ih => exact (hp.quoted fs).append ih

end Piece

/-! ## Prefixes -/

theorem isPrefix_append {α : Type} {front more cs : List α} (h : front <+: cs)
    (hmore : more <+: cs.drop front.length) : front ++ more <+: cs := by
  obtain ⟨rest, rfl⟩ := h
  rw [List.drop_left] at hmore
  exact (List.prefix_append_right_inj front).mpr hmore

theorem take_isPrefix_append {α : Type} {more : List α} (n : Nat) {cs : List α}
    (hmore : more <+: cs.drop n) : cs.take n ++ more <+: cs := by
  obtain ⟨rest, hrest⟩ := hmore
  exact ⟨rest, by rw [List.append_assoc, hrest, List.take_append_drop]⟩

/-- What stands behind a front goes with it. -/
theorem isPrefix_concat {α : Type} {front rest cs : List α} {c : α} (h : front <+: cs)
    (hc : cs.drop front.length = c :: rest) : front ++ [c] <+: cs :=
  isPrefix_append h (hc ▸ ⟨rest, rfl⟩)

/-! ## Lexemes -/

namespace Lexeme

open Piece

theorem wordText_isPrefix (cs : List Char) : wordText cs <+: cs := by
  induction cs with
  | nil => exact List.nil_prefix
  | cons c cs ih =>
      unfold wordText
      split
      · exact (List.prefix_cons_inj c).mpr ih
      · exact List.nil_prefix

theorem keyword?_isPlain {text : String} {k : TokenKind} (h : keyword? text = some k) :
    k.isPlain = true := by
  unfold keyword? at h
  split at h <;> cases h <;> rfl

theorem word_front {c : Char} {cs : List Char}
    (hc : (isNameStart c || (c == '\\' && startsName cs)) = true) :
    Front (c :: cs) (word (c :: cs)) := by
  refine .lexeme ?_ ?_ (wordText_isPrefix _)
  · cases hk : keyword? (String.ofList (wordText (c :: cs))) with
    | none => rfl
    | some k => exact keyword?_isPlain hk
  · have : (isNameChar c || (c == '\\' && startsName cs)) = true := by
      simp only [isNameChar, Bool.or_eq_true] at hc ⊢
      exact hc.imp_left Or.inl
    simp [wordText, this]

theorem variableText_isPrefix (cs : List Char) : variableText cs <+: cs :=
  take_isPrefix_append 1 (List.takeWhile_prefix _)

theorem variableName_front (c : Char) (cs : List Char) :
    Front (c :: cs) (variableName (c :: cs)) :=
  .lexeme rfl (by simp [variableText]) (variableText_isPrefix _)

theorem radixNumber_front {base : Nat} {c : Char} {cs : List Char} {p : Piece}
    (h : radixNumber base (c :: cs) = .ok p) : Front (c :: cs) p := by
  unfold radixNumber at h
  dsimp only at h
  split at h
  · cases h
    exact .lexeme rfl (by simp) (take_isPrefix_append 2 (List.takeWhile_prefix _))
  · cases h

theorem fractionText_isPrefix (cs : List Char) : fractionText cs <+: cs := by
  unfold fractionText
  split
  · split
    · exact (List.prefix_cons_inj _).mpr (List.takeWhile_prefix _)
    · exact List.nil_prefix
  · exact List.nil_prefix

theorem exponentText_isPrefix (cs : List Char) : exponentText cs <+: cs := by
  unfold exponentText
  split
  · next c cs =>
      dsimp only
      split
      · split
        · exact List.nil_prefix
        · refine (List.prefix_cons_inj c).mpr (isPrefix_append ?_ (List.takeWhile_prefix _))
          exact (List.takeWhile_prefix _).trans (List.take_prefix 1 cs)
      · exact List.nil_prefix
  · exact List.nil_prefix

theorem decimalNumber_front {c : Char} {cs : List Char} {p : Piece}
    (hc : (c.isDigit || (c == '.' && startsDigit cs)) = true)
    (h : decimalNumber (c :: cs) = .ok p) : Front (c :: cs) p := by
  unfold decimalNumber at h
  dsimp only at h
  split at h
  · cases h
    refine .lexeme (by split <;> rfl) ?_ ?_
    · rcases Bool.or_eq_true _ _ ▸ hc with hd | hd
      · simp [isDigitOrMark, hd]
      · simp only [Bool.and_eq_true, beq_iff_eq] at hd
        obtain ⟨rfl, hd⟩ := hd
        simp [isDigitOrMark, fractionText, hd]
    · refine isPrefix_append (isPrefix_append (List.takeWhile_prefix _) ?_) ?_
      · exact fractionText_isPrefix _
      · exact exponentText_isPrefix _
  · cases h

theorem number_front {c : Char} {cs : List Char} {p : Piece}
    (hc : (c.isDigit || (c == '.' && startsDigit cs)) = true) (h : number (c :: cs) = .ok p) :
    Front (c :: cs) p := by
  unfold number at h
  split at h
  · exact radixNumber_front h
  · exact decimalNumber_front hc h

theorem castText?_front {c : Char} {cs text : List Char} (h : castText? (c :: cs) = some text) :
    Front (c :: cs) (.lexeme .cast text) := by
  unfold castText? at h
  dsimp only at h
  split at h
  · next rest hrest =>
      split at h
      · cases h
        refine .lexeme rfl (by simp) (isPrefix_concat ?_ hrest)
        refine isPrefix_append (isPrefix_append ?_ ?_) ?_
        · exact take_isPrefix_append 1 (List.takeWhile_prefix _)
        · rw [List.length_append]
          exact List.takeWhile_prefix _
        · rw [List.length_append, List.length_append]
          exact List.takeWhile_prefix _
      · cases h
  · cases h

theorem operators_isPlain : ∀ o ∈ operators, o.1.toList ≠ [] ∧ o.2.isPlain = true := by decide

theorem operator_front {cs : List Char} {p : Piece} (h : operator cs = .ok p) : Front cs p := by
  unfold operator at h
  split at h
  · next spelling kind hfind =>
      cases h
      obtain ⟨hne, hplain⟩ := operators_isPlain _ (List.mem_of_find?_eq_some hfind)
      have hfront : spelling.toList.isPrefixOf cs = true := by simpa using List.find?_some hfind
      exact .lexeme hplain hne (List.isPrefixOf_iff_prefix.mp hfront)
  · cases h

theorem singleQuoted?_isPrefix {cs text : List Char} (h : singleQuoted? cs = some text) :
    text <+: cs := by
  fun_induction singleQuoted? cs generalizing text with
  | case1 => cases h
  | case2 rest =>
      cases h
      exact ⟨rest, rfl⟩
  | case3 c cs ih =>
      obtain ⟨more, hmore, rfl⟩ := Option.map_eq_some_iff.mp h
      exact (List.prefix_cons_inj _).mpr ((List.prefix_cons_inj _).mpr (ih hmore))
  | case4 c cs _ _ ih =>
      obtain ⟨more, hmore, rfl⟩ := Option.map_eq_some_iff.mp h
      exact (List.prefix_cons_inj _).mpr (ih hmore)

theorem singleQuotedString_front {c : Char} {cs : List Char} {p : Piece}
    (h : singleQuotedString (c :: cs) = .ok p) : Front (c :: cs) p := by
  unfold singleQuotedString at h
  split at h
  · next text htext =>
      cases h
      exact .lexeme rfl (by simp) (take_isPrefix_append 1 (singleQuoted?_isPrefix htext))
  · cases h

theorem read_front {cs : List Char} {p : Piece} (h : read cs = .ok p) : Front cs p := by
  unfold read at h
  split at h
  · cases h
  · next c rest =>
      split at h
      · cases h
        exact variableName_front c rest
      · split at h
        · next hc => exact number_front hc h
        · split at h
          · exact singleQuotedString_front h
          · split at h
            · next hc =>
                cases h
                exact word_front hc
            · split at h
              · split at h
                · next text htext =>
                    cases h
                    exact castText?_front htext
                · exact operator_front h
              · exact operator_front h

end Lexeme

theorem Piece.Fronts.texts_isPrefix {cs : List Char} {ps : List Piece} (h : Fronts cs ps) :
    texts ps <+: cs := by
  induction h with
  | nil => exact List.nil_prefix
  | cons hp _ ih =>
      obtain ⟨-, -, htext⟩ := hp
      exact isPrefix_append htext ih

/-! ## Steps -/

namespace Scanner

open Lexeme Piece

theorem literalRun_isPrefix (cs : List Char) : literalRun cs <+: cs := by
  fun_induction literalRun cs with
  | case1 => exact List.nil_prefix
  | case2 c cs ih => exact (List.prefix_cons_inj _).mpr ((List.prefix_cons_inj _).mpr ih)
  | case3 => exact List.nil_prefix
  | case4 c cs _ _ ih => exact (List.prefix_cons_inj _).mpr ih

theorem literalRun_ne_nil {cs : List Char} (hne : cs ≠ []) (hquote : cs.head? ≠ some '"')
    (hhole : startsHole cs = false) : literalRun cs ≠ [] := by
  fun_cases literalRun cs with
  | case1 => exact absurd rfl hne
  | case2 c cs => exact List.cons_ne_nil _ _
  | case3 c cs _ hstop => simp_all
  | case4 c cs => exact List.cons_ne_nil _ _

theorem digitsPiece_front {cs : List Char} (h : startsDigit cs = true) :
    Front cs (digitsPiece cs) := by
  cases cs with
  | nil => cases h
  | cons c cs =>
      have hc : c.isDigit = true := by simpa [startsDigit] using h
      exact .lexeme rfl (by simp [hc]) (List.takeWhile_prefix _)

/-- The longest name at the front, where there is one. -/
theorem name_front {kind : TokenKind} (hkind : kind.isPlain = true) {cs : List Char}
    (h : startsName cs = true) : Front cs (.lexeme kind (cs.takeWhile isNameChar)) := by
  cases cs with
  | nil => cases h
  | cons c cs =>
      have hc : isNameStart c = true := by simpa [startsName] using h
      exact .lexeme hkind (by simp [isNameChar, hc]) (List.takeWhile_prefix _)

theorem single_front {kind : TokenKind} (hkind : kind.isPlain = true) (c : Char) (cs : List Char) :
    Front (c :: cs) (.lexeme kind [c]) := .lexeme hkind (List.cons_ne_nil _ _) ⟨cs, rfl⟩

theorem embeddedOffset_fronts {cs : List Char} {ps : List Piece} (h : embeddedOffset cs = .ok ps) :
    Fronts cs ps := by
  unfold embeddedOffset at h
  split at h
  · cases h
  · next c rest =>
      split at h
      · next hc =>
          cases h
          simp only [Bool.and_eq_true] at hc
          exact .cons (single_front rfl c rest) (.cons (digitsPiece_front hc.2) (.nil _))
      · split at h
        · next hc =>
            cases h
            exact .cons (digitsPiece_front hc) (.nil _)
        · split at h
          · cases h
            exact .cons (variableName_front c rest) (.nil _)
          · split at h
            · next hc =>
                cases h
                exact .cons (name_front rfl hc) (.nil _)
            · cases h

theorem embeddedVariable_fronts {c : Char} {cs : List Char} {ps : List Piece}
    (h : embeddedVariable (c :: cs) = .ok ps) : Fronts (c :: cs) ps ∧ ps ≠ [] := by
  have hvar : Front (c :: cs) (.lexeme .variable (variableText (c :: cs))) :=
    variableName_front c cs
  unfold embeddedVariable at h
  dsimp only at h
  split at h
  · next rest hrest =>
      split at h
      · cases h
      · next offset hoffset =>
          split at h
          · next more hmore =>
              cases h
              refine ⟨.cons hvar ?_, by simp⟩
              rw [show Piece.text (.lexeme .variable (variableText (c :: cs)))
                = variableText (c :: cs) from rfl, hrest]
              refine .cons (single_front rfl _ _) ((embeddedOffset_fronts hoffset).append ?_)
              rw [show rest.drop (textLength offset) = ']' :: more from hmore]
              exact .cons (single_front rfl _ _) (.nil _)
          · cases h
  · next rest hrest =>
      split at h
      · next hname =>
          cases h
          refine ⟨.cons hvar ?_, by simp⟩
          rw [show Piece.text (.lexeme .variable (variableText (c :: cs)))
            = variableText (c :: cs) from rfl, hrest]
          refine .cons (.lexeme rfl (by simp) ⟨rest, rfl⟩) (.cons (name_front rfl hname) (.nil _))
      · cases h
        exact ⟨.cons hvar (.nil _), by simp⟩
  · cases h
    exact ⟨.cons hvar (.nil _), by simp⟩

/-- The frames that are open in a mode. -/
def Mode.frames : Mode → List Frame
  | .code => []
  | .hole braces outer => .hole braces :: outer.frames
  | .text _ outer => .text :: outer.frames

theorem Mode.text_mem_frames {mode : Mode} : .text ∈ mode.frames ↔ mode.openString? ≠ none := by
  induction mode with
  | code => simp [frames, openString?]
  | hole braces outer ih => simpa [frames, openString?] using ih
  | text opening outer => simp [frames, openString?]

/-- What a step takes: pieces that fit, one behind the other, and not nothing. -/
structure Taken (mode : Mode) (cs : List Char) (ps : List Piece) (next : Mode) : Prop where
  covers : texts ps <+: cs
  ne_nil : ps ≠ []
  quoted : Quoted mode.frames ps next.frames

/-- What a step leaves is what is behind the first character, less the rest of what it takes. -/
theorem Taken.texts_append {mode next : Mode} {c : Char} {cs : List Char} {ps : List Piece}
    (h : Taken mode (c :: cs) ps next) : texts ps ++ cs.drop (textLength ps - 1) = c :: cs := by
  obtain ⟨more, hmore⟩ := h.covers
  have hdrop : (c :: cs).drop (textLength ps) = more := by
    rw [textLength_eq, ← hmore, List.drop_left]
  obtain ⟨n, hn⟩ : ∃ n, textLength ps = n + 1 :=
    Nat.exists_eq_succ_of_ne_zero (Nat.ne_of_gt (h.quoted.textLength_pos h.ne_nil))
  rw [hn, List.drop_succ_cons] at hdrop
  rw [hn, Nat.add_sub_cancel, hdrop]
  exact hmore

theorem Taken.of_fronts {mode : Mode} {cs : List Char} {ps : List Piece} (h : Fronts cs ps)
    (hne : ps ≠ []) : Taken mode cs ps mode := ⟨h.texts_isPrefix, hne, h.quoted mode.frames⟩

theorem Taken.of_front {mode : Mode} {cs : List Char} {p : Piece} (h : Front cs p) :
    Taken mode cs [p] mode := .of_fronts (.cons h (.nil _)) (List.cons_ne_nil _ _)

/-- A single token that opens or closes a frame. -/
theorem Taken.of_lexeme {mode next : Mode} {kind : TokenKind} (hkind : kind ≠ .eof)
    (hnext : next.frames = kind.framesAfter mode.frames) (c : Char) (cs : List Char) :
    Taken mode (c :: cs) [.lexeme kind [c]] next :=
  ⟨⟨cs, rfl⟩, List.cons_ne_nil _ _, hnext ▸ .single ⟨List.cons_ne_nil _ _, hkind⟩⟩

theorem doubleQuoted_taken {mode next : Mode} (hcode : mode.frames.head? ≠ some .text)
    {cs : List Char} {ps : List Piece} (h : doubleQuoted ('"' :: cs) mode = .ok (ps, next)) :
    Taken mode ('"' :: cs) ps next := by
  unfold doubleQuoted at h
  dsimp only at h
  split at h
  · cases h
  · next rest hrest =>
      cases h
      refine .of_front (.lexeme rfl (by simp) (isPrefix_concat ?_ (?_ : _ = '"' :: rest)))
      · exact take_isPrefix_append 1 (literalRun_isPrefix _)
      · rwa [List.length_append]
  · cases h
    refine .of_lexeme (by decide) ?_ _ cs
    -- behind the opening quote of a string in code
    show Frame.text :: mode.frames = TokenKind.quote.framesAfter mode.frames
    unfold TokenKind.framesAfter
    split <;> simp_all

theorem textStep_taken {opening : List Char} {outer next : Mode} {cs : List Char} (hne : cs ≠ [])
    {ps : List Piece} (h : textStep opening outer cs = .ok (ps, next)) :
    Taken (.text opening outer) cs ps next := by
  unfold textStep at h
  split at h
  · cases h
    exact .of_lexeme (by decide) rfl _ _
  · cases h
    exact .of_lexeme (by decide) rfl _ _
  · next hquote _ =>
      split at h
      · obtain ⟨c, cs, rfl⟩ := List.exists_cons_of_ne_nil hne
        cases hvar : embeddedVariable (c :: cs) with
        | error f =>
            rw [hvar] at h
            cases h
        | ok ps' =>
            rw [hvar] at h
            cases h
            obtain ⟨hfronts, hne⟩ := embeddedVariable_fronts hvar
            exact .of_fronts hfronts hne
      · next hhole =>
          cases h
          refine .of_front (.lexeme rfl (literalRun_ne_nil hne ?_ ?_) (literalRun_isPrefix cs))
          · intro hhead
            obtain ⟨rest, rfl⟩ := List.head?_eq_some_iff.mp hhead
            exact hquote rest rfl
          · exact Bool.eq_false_iff.mpr hhole

theorem codeStep_taken {mode next : Mode} (hcode : mode.frames.head? ≠ some .text)
    {cs : List Char} {ps : List Piece} (h : codeStep mode cs = .ok (ps, next)) :
    Taken mode cs ps next := by
  unfold codeStep at h
  dsimp only at h
  split at h
  · next hblanks =>
      cases h
      refine ⟨?_, List.cons_ne_nil _ _, .single ⟨by simpa using hblanks, ?_, hcode⟩⟩
      · simpa [texts, text] using List.takeWhile_prefix _
      · exact List.all_eq_true.mp List.all_takeWhile
  · split at h
    · cases h
      refine .of_lexeme (by decide) ?_ _ _
      cases mode with
      | code => rfl
      | hole braces outer => rfl
      | text opening outer => exact absurd rfl hcode
    · cases h
      refine .of_lexeme (by decide) ?_ _ _
      cases mode with
      | code => rfl
      | hole braces outer => cases braces <;> rfl
      | text opening outer => exact absurd rfl hcode
    · exact doubleQuoted_taken hcode h
    · cases hread : Lexeme.read cs with
      | error f =>
          rw [hread] at h
          cases h
      | ok p =>
          rw [hread] at h
          cases h
          exact .of_front (read_front hread)

/-- **One step of the scanner** takes fitting pieces from the front of the source. -/
theorem step_takes {mode next : Mode} {cs : List Char} (hne : cs ≠ []) {ps : List Piece}
    (h : step mode cs = .ok (ps, next)) : Taken mode cs ps next := by
  cases mode with
  | code => exact codeStep_taken (by simp [Mode.frames]) h
  | hole braces outer => exact codeStep_taken (by simp [Mode.frames]) h
  | text opening outer => exact textStep_taken hne h

/-! ## Runs -/

/-- Passing over characters is scanning behind them. -/
theorem scanFrom_skip (mode : Mode) (skip : Nat) (cs : List Char) :
    scanFrom mode skip cs = scanFrom mode 0 (cs.drop skip) := by
  induction skip generalizing cs with
  | zero => rfl
  | succ skip ih =>
      cases cs with
      | nil => rfl
      | cons c cs => exact ih cs

/-- The scanner goes on behind what a step has taken. -/
theorem scanFrom_of_step {mode next : Mode} {front rest : List Char} {ps : List Piece}
    (h : step mode (front ++ rest) = .ok (ps, next)) (hfront : texts ps = front)
    (hne : front ≠ []) :
    scanFrom mode 0 (front ++ rest) = (scanFrom next 0 rest).map (ps ++ ·) := by
  obtain ⟨c, cs, rfl⟩ := List.exists_cons_of_ne_nil hne
  rw [List.cons_append] at h ⊢
  rw [scanFrom, h]
  dsimp only
  rw [scanFrom_skip, textLength_eq, hfront, List.length_cons, Nat.add_sub_cancel, List.drop_left]
  cases scanFrom next 0 rest <;> rfl

/-- What the pieces of a run cover, and how they are quoted. At the end every string is closed. -/
theorem scanFrom_covers {cs : List Char} {mode : Mode} {skip : Nat} {ps : List Piece}
    (h : scanFrom mode skip cs = .ok ps) :
    texts ps = cs.drop skip ∧ ∃ fs, Quoted mode.frames ps fs ∧ .text ∉ fs := by
  induction cs generalizing mode skip ps with
  | nil =>
      unfold scanFrom at h
      split at h
      · cases h
      · next hclosed =>
          cases h
          exact ⟨by simp [texts], mode.frames, .nil _, by simp [Mode.text_mem_frames, hclosed]⟩
  | cons c cs ih =>
      cases skip with
      | succ skip => exact ih h
      | zero =>
          unfold scanFrom at h
          dsimp only at h
          split at h
          · cases h
          · next front next hstep =>
              split at h
              · cases h
              · next rest hrest =>
                  cases h
                  have htaken := step_takes (List.cons_ne_nil c cs) hstep
                  obtain ⟨htexts, fs, hquoted, hclosed⟩ := ih hrest
                  refine ⟨?_, fs, htaken.quoted.append hquoted, hclosed⟩
                  rw [texts, List.flatMap_append, List.drop_zero]
                  exact (congrArg _ htexts).trans htaken.texts_append

/-- **The pieces of a source are the source**, and no blank among them stands in a string. -/
theorem scan_covers {cs : List Char} {ps : List Piece} (h : scan cs = .ok ps) :
    texts ps = cs ∧ ∃ fs, Quoted [] ps fs ∧ .text ∉ fs := scanFrom_covers h

end Scanner

end GuardedExpr
