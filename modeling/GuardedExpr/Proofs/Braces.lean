/-
# Braces — embedded variables written with braces

A variable with one offset or one property may stand in a string without braces.
`inBraces` writes every such variable as a hole, so that `$n[word]` becomes
`{$n['word']}`; all other forms keep their text between the braces.

The readers of code look ahead, and what they see there may be written otherwise now.
But between them and the next hole there is a quote or a brace, and they do not look
across it (`SameAhead`).  A hole gives the words of the variable as code spells them:
a bare word is a string, and the name of a property is whatever word it spells
(`gives_embedded`).  The text before a hole ends where it ended (`bracedFrom_run`).
-/
import GuardedExpr.Proofs.Legible
import GuardedExpr.Proofs.LineByLine
import GuardedExpr.Proofs.PrintedValues

namespace GuardedExpr

open Text Lexeme

/-! ## The source with braces -/

/-- How a piece of an embedded variable is written in a hole: a bare word is a string there. -/
def Piece.inHole : Piece → List Char
  | .lexeme .fragment text => (Literal.quoteSingle (.ofList text)).toList
  | p => p.text

namespace Scanner

open Piece

/-- The pieces of a step as they are written with braces. -/
def respelt (mode : Mode) (ps : List Piece) : List Char :=
  match mode, ps with
  | .text .., .lexeme .variable _ :: _ => '\x7b' :: (ps.flatMap inHole ++ ['\x7d'])
  | _, _ => texts ps

/-- A source with braces around its embedded variables, after passing over `skip` characters. What
cannot be scanned stays as it is. -/
def bracedFrom (mode : Mode) (skip : Nat) : List Char → List Char
  | [] => []
  | c :: cs =>
    match skip with
    | skip + 1 => bracedFrom mode skip cs
    | 0 =>
      match step mode (c :: cs) with
      | .error _ => c :: cs
      | .ok (ps, next) => respelt mode ps ++ bracedFrom next (textLength ps - 1) cs

end Scanner

/-- The source with braces around every variable that is embedded without them. -/
def inBraces (source : String) : String := .ofList (Scanner.bracedFrom .code 0 source.toList)

/-- A word as it is spelt in code: a name by its kind of word, a fragment as a string. -/
def Word.inCode : Word → Word
  | (.identifier, text) => ((keyword? text).getD .identifier, text)
  | (.fragment, text) => (.string, Literal.quoteSingle text)
  | w => w

namespace Scanner

open Piece

section Braced

variable {mode next : Mode} {front rest : List Char} {ps : List Piece}

theorem respelt_of_code (hcode : mode.frames.head? ≠ some .text) (ps : List Piece) :
    respelt mode ps = texts ps := by
  cases mode with
  | text opening outer => exact absurd rfl hcode
  | _ => rfl

theorem bracedFrom_skip (mode : Mode) (skip : Nat) (cs : List Char) :
    bracedFrom mode skip cs = bracedFrom mode 0 (cs.drop skip) := by
  induction skip generalizing cs with
  | zero => rfl
  | succ skip ih =>
      cases cs with
      | nil => rfl
      | cons c cs => exact ih cs

theorem bracedFrom_of_step (h : step mode (front ++ rest) = .ok (ps, next))
    (hfront : texts ps = front) (hne : front ≠ []) :
    bracedFrom mode 0 (front ++ rest) = respelt mode ps ++ bracedFrom next 0 rest := by
  obtain ⟨c, cs, rfl⟩ := List.exists_cons_of_ne_nil hne
  rw [List.cons_append] at h ⊢
  rw [bracedFrom, h]
  dsimp only
  rw [bracedFrom_skip, textLength_eq, hfront, List.length_cons, Nat.add_sub_cancel, List.drop_left]

theorem bracedFrom_of_fault {f : ScanFault} {cs : List Char} (h : step mode cs = .error f) :
    bracedFrom mode 0 cs = cs := by
  cases cs with
  | nil => rfl
  | cons c cs => rw [bracedFrom, h]

end Braced

/-! ## Looking ahead -/

/-- The same text, or the same up to a character where tokens end. -/
inductive SameAhead : List Char → List Char → Prop
  | refl (cs : List Char) : SameAhead cs cs
  | upTo {z : Char} : z ∈ tokenEnds → (front ds ds' : List Char) →
      SameAhead (front ++ z :: ds) (front ++ z :: ds')

section Ahead

variable {cs cs' : List Char}

theorem SameAhead.behind (h : SameAhead cs cs') (front : List Char) :
    SameAhead (front ++ cs) (front ++ cs') := by
  cases h with
  | refl => exact .refl _
  | upTo hz more ds ds' =>
      rw [← List.append_assoc, ← List.append_assoc]
      exact .upTo hz _ _ _

theorem SameAhead.head_eq (h : SameAhead cs cs') : cs.head? = cs'.head? := by
  cases h with
  | refl => rfl
  | upTo hz front ds ds' => cases front <;> rfl

/-- A run that ends in front of the one text ends in front of the other. -/
theorem SameAhead.takeWhile_eq (h : SameAhead cs cs') {p : Char → Bool} {front : List Char}
    (hfront : (front ++ cs).takeWhile p = front) : (front ++ cs').takeWhile p = front := by
  have hall : ∀ c ∈ front, p c = true := by
    rw [← hfront]
    exact List.all_eq_true.mp List.all_takeWhile
  rw [List.takeWhile_append_of_pos hall] at hfront ⊢
  have hstop : cs.takeWhile p = [] := List.append_right_eq_self.mp hfront
  have hhead := h.head_eq
  cases cs with
  | nil =>
      obtain rfl : cs' = [] := List.head?_eq_none_iff.mp hhead.symm
      exact List.append_nil _
  | cons c cs =>
      obtain ⟨more, rfl⟩ := List.head?_eq_some_iff.mp hhead.symm
      have hc : ¬ p c = true := by
        intro hc
        rw [List.takeWhile_cons_of_pos hc] at hstop
        cases hstop
      rw [List.takeWhile_cons_of_neg hc, List.append_nil]

/-- In code that starts with no closing brace, a step that opens no string leads to code. -/
theorem code_of_codeStep {mode next : Mode} {c : Char} {ps : List Piece}
    (hcode : mode.frames.head? ≠ some .text) (hopen : ps ≠ [.lexeme .quote ['"']])
    (hbrace : c ≠ '\x7d') (h : codeStep mode (c :: cs) = .ok (ps, next)) :
    next.frames.head? ≠ some .text := by
  unfold codeStep at h
  dsimp only at h
  split at h
  · cases h
    exact hcode
  · split at h
    · cases h
      cases mode with
      | text => exact absurd rfl hcode
      | code => exact hcode
      | hole => simp [Mode.openBrace, Mode.frames]
    · next heq => exact absurd (List.cons.inj heq).1 hbrace
    · next heq =>
        rw [heq] at h
        rcases doubleQuoted_cases h with ⟨run, -, -, rfl⟩ | ⟨hps, -⟩
        · exact hcode
        · exact absurd hps hopen
    · obtain ⟨p, -, heq⟩ := exists_of_map_eq_ok h
      cases heq
      exact hcode

/-- Code with braces around embedded variables starts like the code itself. -/
theorem sameAhead_bracedFrom {mode : Mode} (hcode : mode.frames.head? ≠ some .text)
    (cs : List Char) : SameAhead cs (bracedFrom mode 0 cs) := by
  induction hn : cs.length using Nat.strongRecOn generalizing mode cs with
  | ind n ih =>
      subst hn
      by_cases hne : cs = []
      · subst hne
        exact .refl []
      · cases hstep : step mode cs with
        | error f =>
            rw [bracedFrom_of_fault hstep]
            exact .refl cs
        | ok s =>
            obtain ⟨ps, next⟩ := s
            have htaken := step_takes hne hstep
            have htexts := htaken.texts_ne_nil
            obtain ⟨rest, rfl⟩ := htaken.covers
            rw [bracedFrom_of_step hstep rfl htexts, respelt_of_code hcode]
            obtain ⟨c, front, hfront⟩ := List.exists_cons_of_ne_nil htexts
            rw [hfront] at hstep ⊢
            by_cases hend : c = '"' ∨ c = '\x7d'
            · have hz : c ∈ tokenEnds := by rcases hend with rfl | rfl <;> decide
              exact .upTo hz [] _ _
            · rw [not_or] at hend
              have hopen : ps ≠ [.lexeme .quote ['"']] := by
                rintro rfl
                exact hend.1 (List.cons.inj hfront).1.symm
              rw [step_of_code hcode] at hstep
              have hnext := code_of_codeStep hcode hopen hend.2 hstep
              refine (ih rest.length ?_ hnext rest rfl).behind (c :: front)
              have := List.length_pos_iff.mpr htexts
              rw [List.length_append]
              omega

end Ahead

/-! ## Steps that stay the same -/

section Steps

variable {mode mode' next next' : Mode} {front rest rest' : List Char} {ps : List Piece}

/-- A token of code is read again where the same stands ahead. -/
theorem read_sameAhead {p : Piece} (h : Lexeme.read (front ++ rest) = .ok p) (hp : p.text = front)
    (hne : front ≠ []) (hsame : SameAhead rest rest') :
    Lexeme.read (front ++ rest') = .ok p := by
  cases hsame with
  | refl => exact h
  | upTo hz more ds ds' =>
      obtain ⟨c, front, rfl⟩ := List.exists_cons_of_ne_nil hne
      by_cases hc : c = '\''
      · subst hc
        have hquoted : singleQuotedString ('\'' :: (front ++ (more ++ _ :: ds))) = .ok p := h
        show singleQuotedString ('\'' :: (front ++ (more ++ _ :: ds'))) = .ok p
        unfold singleQuotedString at hquoted ⊢
        rw [List.drop_succ_cons, List.drop_zero] at hquoted ⊢
        split at hquoted
        · next text htext =>
            cases hquoted
            obtain rfl : text = front := (List.cons.inj hp).2
            rw [singleQuoted?_setOff htext]
            rfl
        · cases hquoted
      · have hread := read_unaffected (front ++ more) ds hz hc
        have hread' := read_unaffected (front ++ more) ds' hz hc
        rw [← List.cons_append, List.append_assoc] at hread hread'
        rw [h] at hread
        rw [hread.eq_ok] at hread'
        exact hread'.eq_ok_of_ok

theorem codeStep_blanks {c : Char} (hc : isTokenBlank c = true) (mode : Mode) (cs : List Char) :
    codeStep mode (c :: cs) = .ok ([.blank ((c :: cs).takeWhile isTokenBlank)], mode) := by
  unfold codeStep
  rw [List.takeWhile_cons_of_pos hc]
  rfl

/-- A step in code takes the same pieces where the same stands ahead, unless it opens a string. -/
theorem codeStep_sameAhead (h : codeStep mode (front ++ rest) = .ok (ps, next))
    (hfront : texts ps = front) (hne : front ≠ []) (hopen : ps ≠ [.lexeme .quote ['"']])
    (hsame : SameAhead rest rest') (mode' : Mode) :
    ∃ next', codeStep mode' (front ++ rest') = .ok (ps, next') := by
  obtain ⟨c, front, rfl⟩ := List.exists_cons_of_ne_nil hne
  by_cases hblank : isTokenBlank c = true
  · rw [List.cons_append, codeStep_blanks hblank] at h ⊢
    cases h
    have hblanks : (c :: (front ++ rest)).takeWhile isTokenBlank = c :: front := by
      simpa [texts, Piece.text] using hfront
    rw [hblanks, ← List.cons_append, hsame.takeWhile_eq hblanks]
    exact ⟨mode', rfl⟩
  · rw [Bool.not_eq_true] at hblank
    by_cases hquote : c = '"'
    · subst hquote
      have hstep : doubleQuoted ('"' :: (front ++ rest)) mode = .ok (ps, next) := h
      rcases doubleQuoted_cases hstep with ⟨run, hrun, rfl, -⟩ | ⟨rfl, -⟩
      · obtain rfl : run ++ ['"'] = front := by simpa [texts, Piece.text] using hfront
        refine ⟨mode', ?_⟩
        rw [List.cons_append, List.append_assoc, List.singleton_append]
        exact codeStep_closedString hrun mode' rest'
      · exact absurd rfl hopen
    · by_cases hbrace : c = '\x7b' ∨ c = '\x7d'
      · rcases hbrace with rfl | rfl
        · cases h
          exact ⟨_, rfl⟩
        · cases h
          exact ⟨_, rfl⟩
      · have hplain : c ∉ ['\x7b', '\x7d', '"'] := by simp_all
        rw [List.cons_append, codeStep_of_read hblank hplain] at h ⊢
        obtain ⟨p, hread, heq⟩ := exists_of_map_eq_ok h
        cases heq
        have htext : p.text = c :: front := by simpa [texts] using hfront
        rw [← List.cons_append] at hread ⊢
        rw [read_sameAhead hread htext (List.cons_ne_nil _ _) hsame]
        exact ⟨mode', rfl⟩

end Steps

/-! ## Words of a hole -/

/-- Where `cs` and `rest` behind it are tokenized in this mode, `cs` gives these words. -/
def Gives (mode : Mode) (cs : List Char) (ws : List Word) (rest : List Char) : Prop :=
  ∀ p ts, tokensFrom mode p (cs ++ rest) = .ok ts →
    ∃ vs us p', ts = vs ++ us ∧ vs.map Token.word = ws ∧ tokensFrom mode p' rest = .ok us

section Gives

variable {mode : Mode} {cs ds rest : List Char} {ws vs : List Word} {ps : List Piece}

theorem Gives.append (h : Gives mode cs ws (ds ++ rest)) (h' : Gives mode ds vs rest) :
    Gives mode (cs ++ ds) (ws ++ vs) rest := by
  intro p ts hts
  rw [List.append_assoc] at hts
  obtain ⟨front, us, p₁, rfl, hfront, hus⟩ := h p ts hts
  obtain ⟨middle, back, p₂, rfl, hmiddle, hback⟩ := h' p₁ us hus
  refine ⟨front ++ middle, back, p₂, (List.append_assoc _ _ _).symm, ?_, hback⟩
  rw [List.map_append, hfront, hmiddle]

theorem gives_of_codeStep (hcode : mode.frames.head? ≠ some .text) {k : TokenKind} (hne : cs ≠ [])
    (h : codeStep mode (cs ++ rest) = .ok ([.lexeme k cs], mode)) :
    Gives mode cs [(k, String.ofList cs)] rest := by
  intro p ts hts
  rw [← step_of_code hcode] at h
  rw [tokensFrom_of_step h (List.append_nil _) hne] at hts
  obtain ⟨us, hus, rfl⟩ := exists_of_map_eq_ok hts
  exact ⟨_, us, _, rfl, rfl, hus⟩

theorem IsLexeme.gives (hcode : mode.frames.head? ≠ some .text) {k : TokenKind}
    (h : IsLexeme k cs) (hrest : SetOff rest) : Gives mode cs [(k, String.ofList cs)] rest :=
  gives_of_codeStep hcode h.1 (h.2 mode rest hrest)

/-- Digits in front of a bracket are an integer in code, or no number. -/
theorem eq_of_number_digits {d : Char} (hd : ∀ c ∈ d :: ds, c.isDigit = true) {q : Piece}
    (h : number (d :: (ds ++ ']' :: rest)) = .ok q) : q = .lexeme .integer (d :: ds) := by
  have hwhole : (d :: (ds ++ ']' :: rest)).takeWhile isDigitOrMark = d :: ds := by
    have hmarks : ∀ c ∈ d :: ds, isDigitOrMark c = true := by
      intro c hc
      rw [isDigitOrMark, hd c hc, Bool.true_or]
    rw [← List.cons_append, List.takeWhile_append_of_pos hmarks,
      List.takeWhile_cons_of_neg (by decide), List.append_nil]
  have hdrop : (d :: (ds ++ ']' :: rest)).drop (d :: ds).length = ']' :: rest := List.drop_left
  have hradix : radix? (d :: (ds ++ ']' :: rest)) = none := by
    unfold radix?
    split
    · next c more heq =>
        have hc : c = ']' ∨ c.isDigit = true := by
          cases ds with
          | nil => exact .inl (List.cons.inj (List.cons.inj heq).2).1.symm
          | cons e ds =>
              obtain rfl := (List.cons.inj (List.cons.inj heq).2).1
              exact .inr (hd _ (by simp))
        have hletters : ∀ x ∈ ['x', 'X', 'b', 'B', 'o', 'O'], (c == x) = false := by
          have hbracket : ']' ∉ ['x', 'X', 'b', 'B', 'o', 'O'] := by decide
          have hdigit : ['x', 'X', 'b', 'B', 'o', 'O'].any Char.isDigit = false := by decide
          intro x hx
          refine beq_eq_false_iff_ne.mpr ?_
          rintro rfl
          rcases hc with rfl | hc
          · exact hbracket hx
          · exact List.any_eq_false.mp hdigit c hx hc
        simp only [List.forall_mem_cons] at hletters
        simp [hletters]
    · rfl
  unfold number at h
  rw [hradix] at h
  unfold decimalNumber at h
  have hfraction : fractionText (']' :: rest) = [] := rfl
  have hexponent : exponentText (']' :: rest) = [] := rfl
  dsimp only at h
  rw [hwhole, hdrop, hfraction, List.append_nil, hdrop, hexponent, List.append_nil] at h
  split at h
  · exact (Except.ok.inj h).symm
  · cases h

theorem gives_digits (hcode : mode.frames.head? ≠ some .text) (hne : ds ≠ [])
    (hds : ∀ c ∈ ds, c.isDigit = true) (rest : List Char) :
    Gives mode ds [(.integer, String.ofList ds)] (']' :: rest) := by
  obtain ⟨d, ds, rfl⟩ := List.exists_cons_of_ne_nil hne
  have hd : d.isDigit = true := hds d List.mem_cons_self
  have hread : step mode (d :: (ds ++ ']' :: rest))
      = (number (d :: (ds ++ ']' :: rest))).map fun q => ([q], mode) := by
    obtain ⟨hblank, hplain⟩ := plain_of_class hd (by decide)
    have hopen : d ∉ ['\x7b', '\x7d', '"'] :=
      fun hmem => hplain ((List.prefix_append ['\x7b', '\x7d', '"'] _).mem hmem)
    rw [step_of_code hcode, codeStep_of_read hblank hopen, read_number (by rw [hd, Bool.true_or])]
  intro p ts hts
  cases hnumber : number (d :: (ds ++ ']' :: rest)) with
  | error f =>
      rw [hnumber] at hread
      rw [List.cons_append, tokensFrom_of_fault (List.cons_ne_nil _ _) hread] at hts
      cases hts
  | ok q =>
      rw [hnumber, eq_of_number_digits hds hnumber, step_of_code hcode] at hread
      exact gives_of_codeStep hcode (List.cons_ne_nil _ _) hread p ts hts

theorem gives_variable (hcode : mode.frames.head? ≠ some .text) (hname : startsName cs = true)
    (hrest : SetOff rest) : Gives mode (variableText ('$' :: cs))
      [(.variable, String.ofList (variableText ('$' :: cs)))] rest :=
  (isLexeme_of_readAs (.sigil hname)).gives hcode hrest

/-- The name of a property, as a word of code. -/
theorem gives_name (hcode : mode.frames.head? ≠ some .text) (hname : startsName cs = true)
    (hrest : SetOff rest) : Gives mode (cs.takeWhile isNameChar)
      [Word.inCode (.identifier, String.ofList (cs.takeWhile isNameChar))] rest := by
  obtain ⟨ds, hread⟩ := (isName_takeWhile hname .identifier (.ofPosition .start 0)).isOperand
  have hlexeme := isLexeme_of_readAs hread
  rw [String.toList_ofList] at hlexeme
  exact hlexeme.gives hcode hrest

/-! ### Variables with an offset or a property -/

theorem gives_nil (mode : Mode) (rest : List Char) : Gives mode [] [] rest :=
  fun p ts hts => ⟨[], ts, p, rfl, rfl, hts⟩

/-- One more piece in a hole. -/
theorem Gives.piece {k : TokenKind} {text : List Char}
    (h' : Gives mode (ps.flatMap inHole) ((words ps).map Word.inCode) rest)
    (h : Gives mode (Piece.lexeme k text).inHole [Word.inCode (k, String.ofList text)]
      (ps.flatMap inHole ++ rest)) :
    Gives mode ((.lexeme k text :: ps).flatMap inHole)
      ((words (.lexeme k text :: ps)).map Word.inCode) rest := h.append h'

/-- A bare word is a string in code. -/
theorem gives_fragment (hcode : mode.frames.head? ≠ some .text) (text : List Char)
    (hrest : SetOff rest) : Gives mode (Piece.lexeme .fragment text).inHole
      [Word.inCode (.fragment, String.ofList text)] rest := by
  have hgives := (isLexeme_of_readAs (readAs_quoteSingle (.ofList text))).gives hcode hrest
  rwa [String.ofList_toList] at hgives

theorem gives_offset (hcode : mode.frames.head? ≠ some .text) (h : embeddedOffset cs = .ok ps)
    (rest : List Char) :
    Gives mode (ps.flatMap inHole) ((words ps).map Word.inCode) (']' :: rest) := by
  have hdigits : ∀ {ds : List Char}, startsDigit ds = true →
      Gives mode ([digitsPiece ds].flatMap inHole) ((words [digitsPiece ds]).map Word.inCode)
        (']' :: rest) := by
    intro ds hstart
    obtain ⟨-, hne, hall⟩ := isDigits_digitsPiece hstart (.ofPosition .start 0)
    rw [String.toList_ofList] at hne hall
    exact (gives_nil _ _).piece (gives_digits hcode hne hall rest)
  unfold embeddedOffset at h
  split at h
  · cases h
  · next c cs =>
      split at h
      · next hc =>
          simp only [Bool.and_eq_true, beq_iff_eq] at hc
          obtain ⟨rfl, hstart⟩ := hc
          cases h
          refine (hdigits hstart).piece (gives_of_codeStep hcode (List.cons_ne_nil _ _) ?_)
          cases cs with
          | nil => cases hstart
          | cons d cs =>
              have hd : d.isDigit = true := by simpa [startsDigit] using hstart
              have hgreater : d ≠ '>' := by
                rintro rfl
                cases hd
              have hequal : d ≠ '=' := by
                rintro rfl
                cases hd
              simp only [List.flatMap_cons, List.flatMap_nil, inHole, digitsPiece, Piece.text,
                List.takeWhile_cons_of_pos hd, List.append_nil]
              exact codeStep_sign (by simp) hgreater hequal mode _
      · split at h
        · next hc =>
            cases h
            have hstart : startsDigit (c :: cs) = true := hc
            exact hdigits hstart
        · split at h
          · next hc =>
              simp only [Bool.and_eq_true, beq_iff_eq] at hc
              obtain ⟨rfl, hname⟩ := hc
              cases h
              exact (gives_nil _ _).piece (gives_variable hcode hname (setOff_rbracket rest))
          · split at h
            · cases h
              exact (gives_nil _ _).piece (gives_fragment hcode _ (setOff_rbracket rest))
            · cases h

/-- A variable that is embedded without braces, as it is written in a hole. -/
theorem gives_embedded (hcode : mode.frames.head? ≠ some .text) (hname : startsName cs = true)
    (h : embeddedVariable ('$' :: cs) = .ok ps) (rest : List Char) :
    Gives mode (ps.flatMap inHole) ((words ps).map Word.inCode) ('\x7d' :: rest) := by
  have hbrace : SetOff ('\x7d' :: rest) := setOff_cons (by decide) rest
  have halone : Gives mode ([Piece.lexeme .variable (variableText ('$' :: cs))].flatMap inHole)
      ((words [.lexeme .variable (variableText ('$' :: cs))]).map Word.inCode)
        ('\x7d' :: rest) :=
    (gives_nil _ _).piece (gives_variable hcode hname hbrace)
  unfold embeddedVariable at h
  dsimp only at h
  split at h
  · split at h
    · cases h
    · next offset hoffset =>
        split at h
        · cases h
          have hclose : Gives mode ([Piece.lexeme .rbracket [']']].flatMap inHole)
              ((words [.lexeme .rbracket [']']]).map Word.inCode) ('\x7d' :: rest) :=
            (gives_nil _ _).piece (gives_of_codeStep hcode (List.cons_ne_nil _ _) rfl)
          have hinside : Gives mode ((offset ++ [Piece.lexeme .rbracket [']']]).flatMap inHole)
              ((words (offset ++ [.lexeme .rbracket [']']])).map Word.inCode) ('\x7d' :: rest) := by
            rw [List.flatMap_append, words, List.filterMap_append, List.map_append]
            exact (gives_offset hcode hoffset _).append hclose
          refine Gives.piece (hinside.piece ?_) (gives_variable hcode hname ?_)
          · exact gives_of_codeStep hcode (List.cons_ne_nil _ _) rfl
          · exact setOff_lbracket _
        · cases h
  · next more _ =>
      split at h
      · next hproperty =>
          cases h
          have hword : Gives mode
              ([Piece.lexeme .identifier (more.takeWhile isNameChar)].flatMap inHole)
              ((words [.lexeme .identifier (more.takeWhile isNameChar)]).map Word.inCode)
              ('\x7d' :: rest) := (gives_nil _ _).piece (gives_name hcode hproperty hbrace)
          refine Gives.piece (hword.piece ?_) (gives_variable hcode hname ?_)
          · exact gives_of_codeStep hcode (List.cons_ne_nil _ _) rfl
          · exact setOff_cons (by decide) _
      · cases h
        exact halone
  · cases h
    exact halone

end Gives

/-! ## Texts of strings -/

section Strings

variable {opening : List Char} {outer : Mode} {cs : List Char} {us : List Token} {p : Position}

/-- The pieces of an embedded variable start with the variable. -/
theorem exists_of_embeddedVariable {ps : List Piece}
    (h : embeddedVariable ('$' :: cs) = .ok ps) :
    ∃ name more, ps = .lexeme .variable ('$' :: name) :: more := by
  unfold embeddedVariable at h
  dsimp only at h
  split at h
  · split at h
    · cases h
    · split at h
      · cases h
        exact ⟨_, _, rfl⟩
      · cases h
  · split at h
    · cases h
      exact ⟨_, _, rfl⟩
    · cases h
      exact ⟨_, _, rfl⟩
  · cases h
    exact ⟨_, _, rfl⟩

/-- Every hole starts with a brace and a sigil when embedded variables have braces. -/
theorem bracedFrom_hole (hhole : startsHole cs = true)
    (h : tokensFrom (.text opening outer) p cs = .ok us) :
    ∃ more, bracedFrom (.text opening outer) 0 cs = '\x7b' :: '$' :: more := by
  rcases startsHole_cases hhole with ⟨ds, rfl, hname⟩ | ⟨ds, rfl⟩
  · obtain ⟨ps, next, hstep⟩ := exists_step (List.cons_ne_nil _ _) h
    have htaken := step_takes (List.cons_ne_nil _ _) hstep
    obtain ⟨rest, hrest⟩ := htaken.covers
    rw [← hrest, bracedFrom_of_step (hrest ▸ hstep) rfl htaken.texts_ne_nil]
    have hvariable : textStep opening outer ('$' :: ds) = .ok (ps, next) := hstep
    rw [textStep_variable hname] at hvariable
    obtain ⟨qs, hqs, heq⟩ := exists_of_map_eq_ok hvariable
    cases heq
    obtain ⟨name, more, rfl⟩ := exists_of_embeddedVariable hqs
    exact ⟨_, rfl⟩
  · have hstep : step (.text opening outer) (['\x7b'] ++ '$' :: ds)
        = .ok ([.lexeme .lbrace ['\x7b']], .hole 0 (.text opening outer)) := rfl
    have hcode : (Mode.hole 0 (.text opening outer)).frames.head? ≠ some .text := by
      simp [Mode.frames]
    have hhead := (sameAhead_bracedFrom hcode ('$' :: ds)).head_eq
    obtain ⟨more, hmore⟩ := List.head?_eq_some_iff.mp hhead.symm
    have hbraced := bracedFrom_of_step hstep rfl (List.cons_ne_nil _ _)
    rw [hmore] at hbraced
    exact ⟨more, hbraced⟩

/-- Behind a text stands the same quote, or a hole. -/
theorem bracedFrom_stop (hstop : literalRun cs = [])
    (h : tokensFrom (.text opening outer) p cs = .ok us) :
    ∃ d more, bracedFrom (.text opening outer) 0 cs = d :: more ∧ (d = '"' ∨ d = '\x7b') ∧
      (d = '"' ↔ cs.head? = some '"') ∧ literalRun (d :: more) = [] := by
  obtain ⟨c, ds, rfl⟩ := List.exists_cons_of_ne_nil (ne_nil_of_text h)
  have hdrop : (c :: ds).drop (literalRun (c :: ds)).length = c :: ds := by
    rw [hstop]
    rfl
  have hhole : c ≠ '"' → startsHole (c :: ds) = true := (literalRun_stops hdrop).resolve_left
  by_cases hquote : c = '"'
  · subst hquote
    have hstep : step (.text opening outer) (['"'] ++ ds)
        = .ok ([.lexeme .quote ['"']], outer) := rfl
    have hbraced := bracedFrom_of_step hstep rfl (List.cons_ne_nil _ _)
    exact ⟨'"', _, hbraced, .inl rfl, by simp, rfl⟩
  · obtain ⟨more, hmore⟩ := bracedFrom_hole (hhole hquote) h
    exact ⟨'\x7b', '$' :: more, hmore, .inr rfl, by simp [hquote], rfl⟩

/-- A text stays as it is, up to where it ends. -/
theorem bracedFrom_run (h : tokensFrom (.text opening outer) p cs = .ok us) :
    ∃ d more, bracedFrom (.text opening outer) 0 cs = literalRun cs ++ d :: more ∧
      bracedFrom (.text opening outer) 0 (cs.drop (literalRun cs).length) = d :: more ∧
      (d = '"' ↔ (cs.drop (literalRun cs).length).head? = some '"') ∧
      literalRun (literalRun cs ++ d :: more) = literalRun cs := by
  by_cases hrun : literalRun cs = []
  · obtain ⟨d, more, hmore, -, hquote, hstop⟩ := bracedFrom_stop hrun h
    rw [hrun]
    exact ⟨d, more, hmore, hmore, hquote, hstop⟩
  · obtain ⟨t, ts, p', -, -, hts, -⟩ := run_of_tokensFrom hrun h
    have hne := ne_nil_of_text hts
    have hempty : literalRun (cs.drop (literalRun cs).length) = [] := by
      obtain ⟨c, r, hdrop⟩ := List.exists_cons_of_ne_nil hne
      rw [hdrop]
      rcases literalRun_stops hdrop with rfl | hhole
      · rfl
      · exact literalRun_of_startsHole hhole
    obtain ⟨d, more, hmore, hd, hquote, hstop⟩ := bracedFrom_stop hempty hts
    have hcs : literalRun cs ++ cs.drop (literalRun cs).length = cs :=
      List.prefix_iff_eq_append.mp (literalRun_isPrefix cs)
    have hstep : step (.text opening outer) (literalRun cs ++ cs.drop (literalRun cs).length)
        = .ok ([.lexeme .fragment (literalRun cs)], .text opening outer) := by
      rw [hcs]
      exact textStep_of_literalRun opening outer hrun
    have hbraced := bracedFrom_of_step hstep (List.append_nil _) hrun
    rw [hmore, hcs] at hbraced
    have hbraced : bracedFrom (.text opening outer) 0 cs = literalRun cs ++ d :: more := by
      rw [hbraced]
      exact congrArg (· ++ d :: more) (List.append_nil _)
    exact ⟨d, more, hbraced, hmore, hquote, IsRun.literalRun_stop ⟨cs, hne, rfl⟩ hd hstop⟩

end Strings

end Scanner

end GuardedExpr
