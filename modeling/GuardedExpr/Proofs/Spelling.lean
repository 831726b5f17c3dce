/-
# Spelling — texts that read back

`Spelt text ws` says that a text is scanned to the words `ws` wherever it is set off,
and that a sign or a parenthesis may stand in front of it.  It is kept by everything
that puts texts together: a text between parentheses or brackets is set off by them,
an operand next to an operator by a blank.  A text that is spelt in this way and
whose words are read as an operand reads back as this operand (`IsOperand`), and so
for expressions and elements of arrays.
-/
import GuardedExpr.Proofs.NestingLimit
import GuardedExpr.Proofs.ReadingBack
import GuardedExpr.Proofs.Rescanning

namespace GuardedExpr

open Text

/-! ## Scanning to words -/

namespace Scanner

/-- In front of `rest` the text is scanned to these words. -/
def Scans (cs : List Char) (ws : List Word) (rest : List Char) : Prop :=
  ∃ ps, Piece.words ps = ws ∧ scanFrom .code 0 (cs ++ rest) = (scanFrom .code 0 rest).map (ps ++ ·)

section Scans

variable {cs ds rest : List Char} {ws vs : List Word}

theorem Scans.append (h : Scans cs ws (ds ++ rest)) (h' : Scans ds vs rest) :
    Scans (cs ++ ds) (ws ++ vs) rest := by
  obtain ⟨ps, hps, hscan⟩ := h
  obtain ⟨qs, hqs, hscan'⟩ := h'
  refine ⟨ps ++ qs, ?_, ?_⟩
  · rw [← hps, ← hqs, Piece.words, Piece.words, Piece.words, List.filterMap_append]
  · rw [List.append_assoc, hscan, hscan']
    cases scanFrom .code 0 rest <;> simp [Except.map]

/-- One step of the scanner that takes a token. -/
theorem scans_of_codeStep {k : TokenKind} (hne : cs ≠ [])
    (h : codeStep .code (cs ++ rest) = .ok ([.lexeme k cs], .code)) :
    Scans cs [(k, String.ofList cs)] rest :=
  ⟨[.lexeme k cs], rfl, scanFrom_of_step h (List.append_nil _) hne⟩

theorem IsLexeme.scans {k : TokenKind} (h : IsLexeme k cs) (hrest : SetOff rest) :
    Scans cs [(k, String.ofList cs)] rest := scans_of_codeStep h.1 (h.2 .code rest hrest)

theorem scans_space (hrest : NoBlank rest) : Scans [' '] [] rest :=
  ⟨[.blank [' ']], rfl, scanFrom_blank rfl hrest⟩

/-! ### Punctuation -/

theorem scans_rparen (rest : List Char) : Scans [')'] [(.rparen, ")")] rest :=
  scans_of_codeStep (List.cons_ne_nil _ _) rfl

theorem scans_lbracket (rest : List Char) : Scans ['['] [(.lbracket, "[")] rest :=
  scans_of_codeStep (List.cons_ne_nil _ _) rfl

theorem scans_rbracket (rest : List Char) : Scans [']'] [(.rbracket, "]")] rest :=
  scans_of_codeStep (List.cons_ne_nil _ _) rfl

theorem scans_comma (rest : List Char) : Scans [','] [(.comma, ",")] rest :=
  scans_of_codeStep (List.cons_ne_nil _ _) rfl

/-- A parenthesis that starts no cast. -/
theorem scans_lparen (h : Lexeme.castText? ('(' :: rest) = none) :
    Scans ['('] [(.lparen, "(")] rest := by
  refine scans_of_codeStep (List.cons_ne_nil _ _) ?_
  rw [List.singleton_append, codeStep_of_read rfl (by decide)]
  unfold Lexeme.read
  rw [h]
  rfl

end Scans

end Scanner

/-- Without a type behind the parenthesis there is no cast. -/
theorem castText?_eq_none {cs : List Char} (hblank : NoBlank cs)
    (htype : CastType.ofWord? (String.ofList (cs.takeWhile Char.isAlpha)) = none) :
    Lexeme.castText? ('(' :: cs) = none := by
  have hfront : cs.takeWhile Lexeme.isSpaceOrTab = [] := by
    cases cs with
    | nil => rfl
    | cons c cs =>
        refine List.takeWhile_cons_of_neg fun hc => ?_
        have hnot := hblank c rfl
        simp only [Lexeme.isSpaceOrTab, Bool.or_eq_true, beq_iff_eq] at hc
        rcases hc with rfl | rfl <;> cases hnot
  unfold Lexeme.castText?
  simp only [List.drop_succ_cons, List.drop_zero, hfront, List.length_nil, Nat.add_zero, htype,
    Option.isSome_none, Bool.false_eq_true, if_false]
  split <;> rfl

/-! ## Texts that are spelt -/

/-- The text is scanned to these words wherever it is set off. A sign may stand in front of its
first character, and in parentheses it is no cast. -/
structure Spelt (cs : List Char) (ws : List Word) : Prop where
  scans : ∀ rest, SetOff rest → Scanner.Scans cs ws rest
  start : ∃ c ∈ cs.head?, isTokenBlank c = false ∧ c ≠ '>' ∧ c ≠ '='
  noCast : ∀ rest, SetOff rest → Lexeme.castText? ('(' :: (cs ++ rest)) = none

section Spelt

open Scanner

variable {cs ds : List Char} {ws vs : List Word}

theorem Spelt.noBlank (h : Spelt cs ws) (rest : List Char) : NoBlank (cs ++ rest) := by
  obtain ⟨c, hc, hblank, -⟩ := h.start
  cases cs with
  | nil => cases hc
  | cons d cs =>
      cases hc
      intro d hd
      cases hd
      exact hblank

theorem castText?_of_head {c : Char} (hblank : isTokenBlank c = false) (hc : c.isAlpha = false)
    (cs : List Char) : Lexeme.castText? ('(' :: c :: cs) = none := by
  refine castText?_eq_none (fun d hd => by cases hd; exact hblank) ?_
  rw [List.takeWhile_cons_of_neg (by simp [hc])]
  decide

/-- A type between parentheses. -/
theorem castText?_name (type : CastType) (rest : List Char) :
    Lexeme.castText? ('(' :: (type.name.toList ++ ')' :: rest))
      = some ('(' :: (type.name.toList ++ [')'])) := by
  have halpha : ∀ c ∈ type.name.toList, c.isAlpha = true :=
    List.all_eq_true.mp (by cases type <;> decide)
  have hblank : (type.name.toList.head?.any Lexeme.isSpaceOrTab) = false := by
    cases type <;> decide
  have hword : (CastType.ofWord? (String.ofList type.name.toList)).isSome = true := by
    cases type <;> decide
  have hne : type.name.toList ≠ [] := by cases type <;> decide
  generalize type.name.toList = cs at *
  have hfront : (cs ++ ')' :: rest).takeWhile Lexeme.isSpaceOrTab = [] := by
    obtain ⟨c, cs, rfl⟩ := List.exists_cons_of_ne_nil hne
    exact List.takeWhile_cons_of_neg (by simpa using hblank)
  have htype : (cs ++ ')' :: rest).takeWhile Char.isAlpha = cs := by
    rw [List.takeWhile_append_of_pos halpha, List.takeWhile_cons_of_neg (by decide),
      List.append_nil]
  have hback : (')' :: rest).takeWhile Lexeme.isSpaceOrTab = [] :=
    List.takeWhile_cons_of_neg (by decide)
  have hdrop : ('(' :: (cs ++ ')' :: rest)).drop (1 + cs.length) = ')' :: rest := by
    rw [Nat.add_comm, List.drop_succ_cons, List.drop_left]
  unfold Lexeme.castText?
  simp only [List.drop_succ_cons, List.drop_zero, hfront, List.length_nil, Nat.add_zero, htype,
    hdrop, hback, List.take_succ_cons, List.take_zero, List.append_nil, List.singleton_append,
    List.length_cons, List.drop_left, hword, if_true]
  rfl

theorem setOff_space (cs : List Char) : SetOff (' ' :: cs) := setOff_cons (by decide) cs

theorem setOff_rparen (cs : List Char) : SetOff (')' :: cs) := setOff_cons (by decide) cs

theorem setOff_lbracket (cs : List Char) : SetOff ('[' :: cs) := setOff_cons (by decide) cs

theorem setOff_rbracket (cs : List Char) : SetOff (']' :: cs) := setOff_cons (by decide) cs

theorem setOff_comma (cs : List Char) : SetOff (',' :: cs) := setOff_cons (by decide) cs

/-- A single token that starts with no letter. -/
theorem Scanner.IsLexeme.spelt {k : TokenKind} {c : Char} (h : IsLexeme k (c :: cs))
    (hc : isTokenBlank c = false ∧ c ≠ '>' ∧ c ≠ '=') (halpha : c.isAlpha = false) :
    Spelt (c :: cs) [(k, String.ofList (c :: cs))] where
  scans _ hrest := h.scans hrest
  start := ⟨c, rfl, hc⟩
  noCast _ _ := castText?_of_head hc.1 halpha _

/-- What has been read as a number, a variable or a string. -/
theorem Lexeme.ReadAs.spelt {text : List Char} {k : TokenKind} (h : ReadAs cs (.lexeme k text))
    (hk : k.isWord = false) : Spelt text [(k, String.ofList text)] := by
  obtain ⟨c, ds, rfl⟩ : ∃ c ds, cs = c :: ds := by
    cases cs with
    | nil => cases h
    | cons c ds => exact ⟨c, ds, rfl⟩
  have hlexeme := isLexeme_of_readAs h
  have halpha := h.isAlpha_eq_false hk
  obtain ⟨hblank, hplain⟩ := h.head
  obtain ⟨more, r, rfl, -⟩ := h.exists_cons
  refine hlexeme.spelt ⟨hblank, ?_, ?_⟩ halpha
  · rintro rfl
    exact hplain (by decide)
  · rintro rfl
    exact hplain (by decide)

/-- A word of letters that is no type. -/
theorem Scanner.IsLexeme.spelt_word {k : TokenKind} {text : List Char} (h : IsLexeme k text)
    (hletters : ∀ c ∈ text, c.isAlpha = true)
    (htype : CastType.ofWord? (String.ofList text) = none) :
    Spelt text [(k, String.ofList text)] := by
  obtain ⟨c, cs, rfl⟩ := List.exists_cons_of_ne_nil h.1
  have hc : c.isAlpha = true := hletters c List.mem_cons_self
  have hne : ∀ d : Char, d.isAlpha = false → c ≠ d := by
    rintro d hd rfl
    exact Bool.false_ne_true (hd.symm.trans hc)
  have hblank : isTokenBlank c = false := by
    simp [isTokenBlank, hne ' ' rfl, hne '\t' rfl, hne '\n' rfl, hne '\x0c' rfl, hne '\r' rfl]
  refine ⟨fun _ hrest => h.scans hrest, ⟨c, rfl, hblank, hne '>' rfl, hne '=' rfl⟩, ?_⟩
  intro rest hrest
  have hname : ∀ d : Char, d.isAlpha = true → isNameChar d = true := by
    intro d hd
    simp [isNameChar, isNameStart, hd]
  refine castText?_eq_none (fun d hd => by cases hd; exact hblank) ?_
  rw [hrest.takeWhile_append hname hletters, htype]

/-- Between parentheses. -/
theorem Spelt.parenthesised (h : Spelt cs ws) :
    Spelt ('(' :: cs ++ [')']) ((.lparen, "(") :: ws ++ [(.rparen, ")")]) where
  scans rest _ := by
    have hopen : Scans ['('] [(.lparen, "(")] (cs ++ ([')'] ++ rest)) :=
      scans_lparen (h.noCast _ (setOff_rparen rest))
    have hclose : Scans (cs ++ [')']) (ws ++ [(.rparen, ")")]) rest :=
      (h.scans _ (setOff_rparen rest)).append (scans_rparen rest)
    rw [← List.append_assoc] at hopen
    exact hopen.append hclose
  start := ⟨'(', rfl, by decide⟩
  noCast _ _ := castText?_of_head (by decide) (by decide) _

/-- Behind another text, an operator between blanks in the middle. -/
theorem Spelt.operator {sym : List Char} {w : Word} (h : Spelt cs ws)
    (hblank : ∀ rest, NoBlank (sym ++ rest)) (hsym : ∀ rest, Scans sym [w] (' ' :: rest))
    (h' : Spelt ds vs) : Spelt (cs ++ ' ' :: (sym ++ ' ' :: ds)) (ws ++ w :: vs) where
  scans rest hrest := by
    have hspace : Scans [' '] [] (ds ++ rest) := scans_space (h'.noBlank rest)
    have hright : Scans (sym ++ ' ' :: ds) (w :: vs) rest :=
      (hsym (ds ++ rest)).append (hspace.append (h'.scans rest hrest))
    have hspace' : Scans [' '] [] (sym ++ ' ' :: ds ++ rest) := by
      rw [List.append_assoc]
      exact scans_space (hblank _)
    have hleft : Scans cs ws (' ' :: (sym ++ ' ' :: ds) ++ rest) := h.scans _ (setOff_space _)
    exact hleft.append (hspace'.append hright)
  start := by
    obtain ⟨c, hc, hstart⟩ := h.start
    refine ⟨c, ?_, hstart⟩
    cases cs with
    | nil => cases hc
    | cons d cs => exact hc
  noCast rest hrest := by
    rw [List.append_assoc]
    exact h.noCast _ (setOff_space _)

/-- A sign in front of anything that makes no longer operator of it. -/
theorem Scanner.codeStep_sign {c : Char} {k : TokenKind}
    (hc : (c, k) ∈ [('-', TokenKind.minus), ('+', .plus), ('!', .bang)]) {d : Char}
    (hgreater : d ≠ '>') (hequal : d ≠ '=') (mode : Mode) (cs : List Char) :
    codeStep mode (c :: d :: cs) = .ok ([.lexeme k [c]], mode) := by
  simp only [List.mem_cons, Prod.mk.injEq, List.not_mem_nil, or_false] at hc
  rcases hc with ⟨rfl, rfl⟩ | ⟨rfl, rfl⟩ | ⟨rfl, rfl⟩ <;>
  · rw [codeStep_of_read rfl (by decide)]
    simp [Lexeme.read, Lexeme.startsName, Lexeme.startsDigit, Lexeme.operator, Lexeme.operators,
      List.isPrefixOf, isNameStart, Except.map, Ne.symm hgreater, Ne.symm hequal]

/-- Behind a sign. -/
theorem Spelt.signed {c : Char} {k : TokenKind}
    (hc : (c, k) ∈ [('-', TokenKind.minus), ('+', .plus), ('!', .bang)]) (h : Spelt cs ws) :
    Spelt (c :: cs) ((k, String.ofList [c]) :: ws) := by
  have hsign : ∀ rest, Scans [c] [(k, String.ofList [c])] (cs ++ rest) := by
    intro rest
    obtain ⟨d, hd, -, hgreater, hequal⟩ := h.start
    cases cs with
    | nil => cases hd
    | cons e cs =>
        cases hd
        exact scans_of_codeStep (List.cons_ne_nil _ _) (codeStep_sign hc hgreater hequal _ _)
  have hplain : isTokenBlank c = false ∧ c ≠ '>' ∧ c ≠ '=' ∧ c.isAlpha = false := by
    simp only [List.mem_cons, Prod.mk.injEq, List.not_mem_nil, or_false] at hc
    rcases hc with ⟨rfl, -⟩ | ⟨rfl, -⟩ | ⟨rfl, -⟩ <;> decide
  exact {
    scans := fun rest hrest => (hsign rest).append (h.scans rest hrest)
    start := ⟨c, rfl, hplain.1, hplain.2.1, hplain.2.2.1⟩
    noCast := fun _ _ => castText?_of_head hplain.1 hplain.2.2.2 _ }

/-- Behind a cast. -/
theorem Spelt.casted (type : CastType) (h : Spelt cs ws) :
    Spelt ('(' :: (type.name.toList ++ ')' :: ' ' :: cs))
      ((.cast, String.ofList ('(' :: (type.name.toList ++ [')']))) :: ws) where
  scans rest hrest := by
    have hcast : Scans ('(' :: (type.name.toList ++ [')']))
        [(.cast, String.ofList ('(' :: (type.name.toList ++ [')'])))] (' ' :: (cs ++ rest)) := by
      refine scans_of_codeStep (List.cons_ne_nil _ _) ?_
      rw [List.cons_append, List.append_assoc, codeStep_of_read rfl (by decide)]
      unfold Lexeme.read
      rw [List.singleton_append, castText?_name]
      rfl
    have hspace : Scans (' ' :: cs) ws rest :=
      (scans_space (h.noBlank rest)).append (h.scans rest hrest)
    have hall : '(' :: (type.name.toList ++ ')' :: ' ' :: cs)
        = '(' :: (type.name.toList ++ [')']) ++ ' ' :: cs := by simp
    rw [hall]
    exact hcast.append hspace
  start := ⟨'(', rfl, by decide⟩
  noCast _ _ := castText?_of_head (by decide) (by decide) _

/-- Texts with a comma and a blank between them, in brackets. -/
theorem spelt_bracketed (items : List (List Char × List Word))
    (h : ∀ x ∈ items, Spelt x.1 x.2) :
    Spelt ('[' :: List.intercalate [',', ' '] (items.map Prod.fst) ++ [']'])
      ((.lbracket, "[") :: List.intercalate [(.comma, ",")] (items.map Prod.snd)
        ++ [(.rbracket, "]")]) where
  scans rest _ := by
    have hitems : Scans (List.intercalate [',', ' '] (items.map Prod.fst))
        (List.intercalate [(.comma, ",")] (items.map Prod.snd)) (']' :: rest) := by
      induction items with
      | nil => exact ⟨[], rfl, by cases h : scanFrom .code 0 (']' :: rest) <;> simp [h, Except.map]⟩
      | cons x items ih =>
          have hx := h x List.mem_cons_self
          have hmore := ih fun z hz => h z (List.mem_cons_of_mem x hz)
          cases items with
          | nil =>
              simp only [List.map_cons, List.map_nil, List.intercalate_singleton]
              exact hx.scans _ (setOff_rbracket rest)
          | cons y items =>
              have hy := h y (List.mem_cons_of_mem x List.mem_cons_self)
              simp only [List.map_cons, List.intercalate_cons_cons] at hmore ⊢
              rw [List.append_assoc, List.append_assoc]
              refine (hx.scans _ (setOff_comma _)).append ?_
              have hblank : NoBlank (List.intercalate [',', ' '] (y.1 :: items.map Prod.fst)
                  ++ ']' :: rest) := by
                cases items with
                | nil =>
                    rw [List.map_nil, List.intercalate_singleton]
                    exact hy.noBlank _
                | cons z items =>
                    rw [List.map_cons, List.intercalate_cons_cons, List.append_assoc,
                      List.append_assoc]
                    exact hy.noBlank _
              exact (scans_comma _).append ((scans_space hblank).append hmore)
    have hclose := hitems.append (scans_rbracket rest)
    exact (scans_lbracket _).append hclose
  start := ⟨'[', rfl, by decide⟩
  noCast _ _ := castText?_of_head (by decide) (by decide) _

/-- An offset behind an operand. -/
theorem Spelt.access (h : Spelt cs ws) (h' : Spelt ds vs) :
    Spelt (cs ++ '[' :: ds ++ [']']) (ws ++ (.lbracket, "[") :: vs ++ [(.rbracket, "]")]) where
  scans rest _ := by
    have hoffset : Scans (ds ++ [']']) (vs ++ [(.rbracket, "]")]) rest :=
      (h'.scans _ (setOff_rbracket rest)).append (scans_rbracket rest)
    have hback : Scans ('[' :: (ds ++ [']'])) ((.lbracket, "[") :: (vs ++ [(.rbracket, "]")])) rest :=
      (scans_lbracket _).append hoffset
    have hfront : Scans cs ws ('[' :: (ds ++ [']']) ++ rest) := h.scans _ (setOff_lbracket _)
    rw [List.append_assoc, List.append_assoc]
    exact hfront.append hback
  start := by
    obtain ⟨c, hc, hstart⟩ := h.start
    refine ⟨c, ?_, hstart⟩
    cases cs with
    | nil => cases hc
    | cons d cs => exact hc
  noCast rest _ := by
    rw [List.append_assoc, List.append_assoc]
    exact h.noCast _ (setOff_lbracket _)

end Spelt

/-! ## Texts that read back -/

open Grammar

/-- The text reads back as an operand of which `R` holds. -/
def IsOperand (n : Nat) (cs : List Char) (R : Expr → Prop) : Prop :=
  ∃ ws, Spelt cs ws ∧ (∃ w ∈ ws.head?, w.1 ∈ operandStarts) ∧ ReadsOperand n ws R

/-- The text reads back as an expression of which `R` holds. -/
def IsExpression (n : Nat) (cs : List Char) (R : Expr → Prop) : Prop :=
  ∃ ws, Spelt cs ws ∧ (∃ w ∈ ws.head?, w.1 ≠ .rbracket) ∧ ReadsAs n ws R

/-- The text reads back as an element of an array of which `P` holds. -/
def IsElement (n : Nat) (cs : List Char) (P : Element → Prop) : Prop :=
  ∃ ws, Spelt cs ws ∧ ws ≠ [] ∧ ReadsElement n ws P

section IsOperand

variable {n m : Nat} {cs ds : List Char} {R Q : Expr → Prop}

theorem IsOperand.mono (h : IsOperand n cs R) (hle : n ≤ m) : IsOperand m cs R := by
  obtain ⟨ws, hspelt, hstart, hreads⟩ := h
  exact ⟨ws, hspelt, hstart, hreads.mono hle⟩

theorem IsExpression.mono (h : IsExpression n cs R) (hle : n ≤ m) : IsExpression m cs R := by
  obtain ⟨ws, hspelt, hstart, hreads⟩ := h
  exact ⟨ws, hspelt, hstart, hreads.mono hle⟩

theorem IsOperand.imp (h : IsOperand n cs R) (hR : ∀ e, R e → Q e) : IsOperand n cs Q := by
  obtain ⟨ws, hspelt, hstart, hreads⟩ := h
  refine ⟨ws, hspelt, hstart, ?_⟩
  intro limit depth ts rest hts hdepth hrest
  obtain ⟨e, d, he, htakes⟩ := hreads limit depth ts rest hts hdepth hrest
  exact ⟨e, d, hR e he, htakes⟩

theorem IsExpression.imp (h : IsExpression n cs R) (hR : ∀ e, R e → Q e) :
    IsExpression n cs Q := by
  obtain ⟨ws, hspelt, hstart, hreads⟩ := h
  refine ⟨ws, hspelt, hstart, ?_⟩
  intro limit depth ts rest hts hdepth hrest
  obtain ⟨e, he, htakes⟩ := hreads limit depth ts rest hts hdepth hrest
  exact ⟨e, hR e he, htakes⟩

/-- A literal of one token. -/
theorem isOperand_literal {k : TokenKind} {text : List Char}
    (h : Spelt text [(k, String.ofList text)])
    (hk : k ∈ [TokenKind.integer, .float, .string, .bool, .null]) :
    IsOperand 0 text fun e => ∃ t, t.word = (k, String.ofList text) ∧ e = .literal t := by
  refine ⟨_, h, ⟨_, rfl, ?_⟩, readsOperand_literal hk⟩
  have hstarts : ∀ k ∈ [TokenKind.integer, .float, .string, .bool, .null], k ∈ operandStarts := by
    decide
  exact hstarts k hk

theorem isOperand_variable {text : List Char}
    (h : Spelt text [(.variable, String.ofList text)]) :
    IsOperand 0 text fun e => ∃ t, t.word = (.variable, String.ofList text) ∧ e = .variable t :=
  ⟨_, h, ⟨_, rfl, by simp [operandStarts]⟩, readsOperand_variable⟩

theorem IsOperand.expression (h : IsOperand n cs R) : IsExpression (n + 1) cs R := by
  obtain ⟨ws, hspelt, ⟨w, hw, hkind⟩, hreads⟩ := h
  refine ⟨ws, hspelt, ⟨w, hw, ?_⟩, hreads.expression ⟨w, hw, hkind⟩⟩
  intro hclose
  rw [hclose] at hkind
  revert hkind
  decide

theorem IsExpression.parenthesised (h : IsExpression n cs R) :
    IsOperand n ('(' :: cs ++ [')']) R := by
  obtain ⟨ws, hspelt, -, hreads⟩ := h
  exact ⟨_, hspelt.parenthesised, ⟨_, rfl, by simp [operandStarts]⟩, hreads.parenthesised⟩

theorem IsOperand.access (h : IsOperand n cs R) (ho : IsExpression m ds Q) :
    IsOperand (n + m + 1) (cs ++ '[' :: ds ++ [']']) fun e =>
      ∃ target bracket offset, R target ∧ Q offset ∧ bracket.word = (.lbracket, "[") ∧
        e = .access target bracket offset := by
  obtain ⟨ws, hspelt, ⟨w, hw, hkind⟩, hreads⟩ := h
  obtain ⟨vs, hspelt', -, hreads'⟩ := ho
  refine ⟨_, hspelt.access hspelt', ⟨w, ?_, hkind⟩, hreads.access hreads'⟩
  cases ws with
  | nil => cases hw
  | cons v ws => exact hw

/-- A sign in front of an operand. -/
theorem IsOperand.signed {c : Char} {k : TokenKind} (h : IsOperand n cs R)
    (hc : (c, k) ∈ [('-', TokenKind.minus), ('+', .plus), ('!', .bang)]) :
    IsExpression (n + 2) (c :: cs) fun e =>
      ∃ op x, op.word = (k, String.ofList [c]) ∧ R x ∧ e = .unary op x := by
  obtain ⟨ws, hspelt, hstart, hreads⟩ := h
  have hk : k ∈ [TokenKind.minus, .plus, .bang] ∧ k ≠ .rbracket := by
    simp only [List.mem_cons, Prod.mk.injEq, List.not_mem_nil, or_false] at hc
    rcases hc with ⟨-, rfl⟩ | ⟨-, rfl⟩ | ⟨-, rfl⟩ <;> decide
  exact ⟨_, hspelt.signed hc, ⟨_, rfl, hk.2⟩, hreads.signed hstart hk.1⟩

/-- A cast in front of an operand. -/
theorem IsOperand.casted (h : IsOperand n cs R) (type : CastType) :
    IsExpression (n + 2) ('(' :: (type.name.toList ++ ')' :: ' ' :: cs)) fun e =>
      ∃ op x, op.kind = .cast ∧ R x ∧ e = .cast op type x := by
  obtain ⟨ws, hspelt, hstart, hreads⟩ := h
  have htype : CastType.ofText? (String.ofList ('(' :: (type.name.toList ++ [')']))) = some type := by
    cases type <;> decide
  refine IsExpression.imp (R := fun e => ∃ op x, op.word = (.cast, _) ∧ R x ∧ e = .cast op type x)
    ⟨_, hspelt.casted type, ⟨_, rfl, by simp⟩, hreads.casted hstart htype⟩ ?_
  rintro e ⟨op, x, hop, hx, rfl⟩
  exact ⟨op, x, congrArg Prod.fst hop, hx, rfl⟩

/-- An operator between blanks. -/
structure IsSymbol (sym : List Char) (w : Word) : Prop where
  noBlank : ∀ rest, NoBlank (sym ++ rest)
  scans : ∀ rest, Scanner.Scans sym [w] (' ' :: rest)

theorem exists_head_append {ws vs : List Word} (h : ∃ w ∈ ws.head?, w.1 ∈ operandStarts) :
    ∃ w ∈ (ws ++ vs).head?, w.1 ≠ .rbracket := by
  obtain ⟨w, hw, hkind⟩ := h
  refine ⟨w, ?_, ?_⟩
  · cases ws with
    | nil => cases hw
    | cons v ws => exact hw
  · intro hclose
    rw [hclose] at hkind
    revert hkind
    decide

/-- A binary operator between two operands. -/
theorem IsOperand.binary {sym : List Char} {w : Word} (h : IsOperand n cs R)
    (hw : 0 < w.1.tightness) (hsym : IsSymbol sym w) (h' : IsOperand n ds Q) :
    IsExpression (n + 2) (cs ++ ' ' :: (sym ++ ' ' :: ds)) fun e =>
      ∃ l op r, op.word = w ∧ R l ∧ Q r ∧ e = .binary l op r := by
  obtain ⟨ws, hspelt, hstart, hreads⟩ := h
  obtain ⟨vs, hspelt', hstart', hreads'⟩ := h'
  exact ⟨_, hspelt.operator hsym.noBlank hsym.scans hspelt', exists_head_append hstart,
    hreads.binary hstart hreads' hstart' hw⟩

theorem isSymbol_assign : IsSymbol ['='] (.assign, "=") where
  noBlank _ := by
    rintro c ⟨⟩
    rfl
  scans _ := Scanner.scans_of_codeStep (List.cons_ne_nil _ _) rfl

theorem isSymbol_question : IsSymbol ['?'] (.question, "?") where
  noBlank _ := by
    rintro c ⟨⟩
    rfl
  scans _ := Scanner.scans_of_codeStep (List.cons_ne_nil _ _) rfl

theorem isSymbol_colon : IsSymbol [':'] (.colon, ":") where
  noBlank _ := by
    rintro c ⟨⟩
    rfl
  scans _ := Scanner.scans_of_codeStep (List.cons_ne_nil _ _) rfl

theorem isSymbol_doubleArrow : IsSymbol ['=', '>'] (.doubleArrow, "=>") where
  noBlank _ := by
    rintro c ⟨⟩
    rfl
  scans _ := Scanner.scans_of_codeStep (List.cons_ne_nil _ _) rfl

theorem IsOperand.assigned (h : IsOperand n cs R) (h' : IsOperand n ds Q) :
    IsExpression (n + 2) (cs ++ ' ' :: (['='] ++ ' ' :: ds)) fun e =>
      ∃ target op value, op.word = (.assign, "=") ∧ R target ∧ Q value ∧
        e = .assign target op value := by
  obtain ⟨ws, hspelt, hstart, hreads⟩ := h
  obtain ⟨vs, hspelt', hstart', hreads'⟩ := h'
  exact ⟨_, hspelt.operator isSymbol_assign.noBlank isSymbol_assign.scans hspelt',
    exists_head_append hstart, hreads.assigned hstart hreads' hstart'⟩

theorem IsOperand.conditional {es : List Char} {P : Expr → Prop} (h : IsOperand n cs R)
    (h' : IsOperand n ds Q) (h'' : IsOperand n es P) :
    IsExpression (n + 2) (cs ++ ' ' :: (['?'] ++ ' ' :: (ds ++ ' ' :: ([':'] ++ ' ' :: es))))
      fun e => ∃ c question yes no, question.word = (.question, "?") ∧ R c ∧ Q yes ∧ P no ∧
        e = .ternary c question yes no := by
  obtain ⟨ws, hspelt, hstart, hreads⟩ := h
  obtain ⟨vs, hspelt', hstart', hreads'⟩ := h'
  obtain ⟨zs, hspelt'', hstart'', hreads''⟩ := h''
  have hbranches := hspelt'.operator isSymbol_colon.noBlank isSymbol_colon.scans hspelt''
  have hall := hspelt.operator isSymbol_question.noBlank isSymbol_question.scans hbranches
  refine ⟨_, hall, exists_head_append hstart, ?_⟩
  have hread := hreads.conditional hstart hreads' hstart' hreads'' hstart''
  rwa [List.append_assoc, List.cons_append] at hread

/-! ### Arrays -/

theorem IsExpression.item (h : IsExpression n cs R) :
    IsElement n cs fun element => ∃ e, R e ∧ element = .item e := by
  obtain ⟨ws, hspelt, ⟨w, hw, hkind⟩, hreads⟩ := h
  refine ⟨ws, hspelt, ?_, hreads.item ⟨w, hw, hkind⟩⟩
  rintro rfl
  cases hw

theorem IsExpression.pair (h : IsExpression n cs R) (h' : IsExpression n ds Q) :
    IsElement n (cs ++ ' ' :: (['=', '>'] ++ ' ' :: ds)) fun element =>
      ∃ key value, R key ∧ Q value ∧ element = .pair key value := by
  obtain ⟨ws, hspelt, hstart, hreads⟩ := h
  obtain ⟨vs, hspelt', -, hreads'⟩ := h'
  have hall := hspelt.operator isSymbol_doubleArrow.noBlank isSymbol_doubleArrow.scans hspelt'
  exact ⟨_, hall, by simp, hreads.pair hstart hreads'⟩

theorem IsElement.mono {P : Element → Prop} (h : IsElement n cs P) (hle : n ≤ m) :
    IsElement m cs P := by
  obtain ⟨ws, hspelt, hne, hreads⟩ := h
  exact ⟨ws, hspelt, hne, fun limit depth most ts rest hts hdepth =>
    hreads limit depth most ts rest hts (hle.trans hdepth)⟩

theorem IsElement.imp {P P' : Element → Prop} (h : IsElement n cs P) (hP : ∀ e, P e → P' e) :
    IsElement n cs P' := by
  obtain ⟨ws, hspelt, hne, hreads⟩ := h
  refine ⟨ws, hspelt, hne, ?_⟩
  intro limit depth most ts rest hts hdepth hrest
  obtain ⟨element, helement, htakes⟩ := hreads limit depth most ts rest hts hdepth hrest
  exact ⟨element, hP element helement, htakes⟩

/-- An array in brackets. -/
theorem isOperand_array {items : List (List Char × (Element → Prop))}
    (h : ∀ x ∈ items, IsElement n x.1 x.2) :
    IsOperand n ('[' :: List.intercalate [',', ' '] (items.map Prod.fst) ++ [']']) fun e =>
      ∃ opening es, opening.word = (.lbracket, "[") ∧
        List.Forall₂ (fun x element => x.2 element) items es ∧ e = .array opening es := by
  have hwords : ∀ x, ∃ ws, x ∈ items → Spelt x.1 ws ∧ ws ≠ [] ∧ ReadsElement n ws x.2 := by
    intro x
    by_cases hx : x ∈ items
    · obtain ⟨ws, hws⟩ := h x hx
      exact ⟨ws, fun _ => hws⟩
    · exact ⟨[], fun hx' => absurd hx' hx⟩
  obtain ⟨words, hwords⟩ := Classical.axiomOfChoice hwords
  have hspelt := spelt_bracketed (items.map fun x => (x.1, words x)) <| by
    intro y hy
    obtain ⟨x, hx, rfl⟩ := List.mem_map.mp hy
    exact (hwords x hx).1
  have hreads := readsOperand_array (n := n) (items.map fun x => (words x, x.2))
    (by
      intro y hy
      obtain ⟨x, hx, rfl⟩ := List.mem_map.mp hy
      exact (hwords x hx).2.2)
    (by
      intro y hy
      obtain ⟨x, hx, rfl⟩ := List.mem_map.mp hy
      exact (hwords x hx).2.1)
  simp only [List.map_map, Function.comp_def] at hspelt hreads
  refine IsOperand.imp ⟨_, hspelt, ⟨_, rfl, by simp [operandStarts]⟩, hreads⟩ ?_
  rintro e ⟨opening, es, hopening, hes, rfl⟩
  rw [List.forall₂_map_left_iff] at hes
  exact ⟨opening, es, hopening, hes, rfl⟩

end IsOperand

/-! ## Sources that are read -/

/-- The source is parsed to an expression of which `R` holds. -/
theorem IsExpression.exists_parse {n : Nat} {cs : List Char} {R : Expr → Prop}
    (h : IsExpression n cs R) (limit : Nat) (hlimit : n ≤ limit) :
    ∃ e, Expr.parse limit (String.ofList cs) = .ok e ∧ R e := by
  obtain ⟨ws, hspelt, ⟨w, hw, -⟩, hreads⟩ := h
  obtain ⟨ps, hps, hscan⟩ := hspelt.scans [] setOff_nil
  have htokens : tokenize (String.ofList cs) = .ok (Piece.place .start ps) := by
    rw [List.append_nil] at hscan
    unfold tokenize Scanner.scan
    rw [String.toList_ofList, hscan]
    simp [Scanner.scanFrom, Scanner.Mode.openString?, Except.map]
  have hwords := Piece.map_word_place ps .start
  rw [hps] at hwords
  obtain ⟨ts, eofs, hplace, hts, heofs⟩ := List.map_eq_append_iff.mp hwords
  obtain ⟨eof, rfl, heof, -⟩ := exists_token heofs
  have heof : eof.kind = .eof := heof
  have hstop : Stops ends [eof] := stops_ends (by rw [heof]; decide) []
  obtain ⟨e, he, htakes⟩ := hreads limit limit ts [eof] hts hlimit hstop
  refine ⟨e, ?_, he⟩
  have hne : ts ≠ [] := by
    rintro rfl
    subst hts
    cases hw
  unfold Expr.parse
  rw [htokens, hplace]
  exact Expr.ofTokens_of_takes htakes hne heof

end GuardedExpr
