/-
# Lexed tokens — what the scanner makes of a source

In code a token is an operand that was read as one, a string that embeds nothing, an
operator of the table, a cast, a brace or a quote.  Between quotes stand runs of text,
holes, and variables with one offset or property at most, which have rules of their
own: digits with a leading zero, say, are an integer there and nowhere else.

`Lexed fs ts` tells the two apart by the frames that are open, and the tokens of a
source are lexed in this sense (`lexed_of_tokenize`).
-/
import GuardedExpr.Proofs.Lines
import GuardedExpr.Proofs.Rescanning

namespace GuardedExpr

open Text Lexeme

/-! ## Tokens -/

namespace Token

/-- A word, variable, number or string in single quotes, read in code. -/
def IsOperand (t : Token) : Prop := ∃ cs, ReadAs cs (.lexeme t.kind t.text.toList)

/-- A string in double quotes that embeds nothing. -/
def IsClosedString (t : Token) : Prop :=
  t.kind = .string ∧ ∃ run, Scanner.IsRun run ∧ t.text.toList = '"' :: (run ++ ['"'])

/-- The tokens of code, quotes and braces aside. -/
inductive InCode (t : Token) : Prop
  | operand : t.IsOperand → InCode t
  | string : t.IsClosedString → InCode t
  | operator : (t.text, t.kind) ∈ operators → InCode t
  | cast : t.kind = .cast → InCode t

def IsVariable (t : Token) : Prop := t.kind = .variable ∧ t.IsOperand

/-- The quote at either end of a string with embedded expressions. -/
def IsQuote (t : Token) : Prop := t.kind = .quote ∧ t.text = "\""

/-- Text between quotes and holes. -/
def IsRun (t : Token) : Prop :=
  t.kind = .fragment ∧ t.text.toList ≠ [] ∧ Scanner.IsRun t.text.toList

/-- Digits alone, as they may stand between the brackets behind an embedded variable. -/
def IsDigits (t : Token) : Prop :=
  t.kind = .integer ∧ t.text.toList ≠ [] ∧ ∀ c ∈ t.text.toList, c.isDigit = true

/-- A name without a backslash. -/
def IsName (t : Token) : Prop :=
  startsName t.text.toList = true ∧ ∀ c ∈ t.text.toList, isNameChar c = true

/-- A hole starts at this token. -/
def StartsHole (t : Token) : Prop := t.kind = .lbrace ∨ t.kind = .variable

end Token

/-- A hole starts here or behind runs. -/
inductive HoleAhead : List Token → Prop
  | here {t : Token} {ts : List Token} : t.StartsHole → HoleAhead (t :: ts)
  | behind {t : Token} {ts : List Token} : t.kind = .fragment → HoleAhead ts → HoleAhead (t :: ts)

/-- The single token between the brackets behind an embedded variable. -/
inductive Token.IsOffset (t : Token) : Prop
  | digits : t.IsDigits → IsOffset t
  | sigil : t.IsVariable → IsOffset t
  | word : t.kind = .fragment → t.IsName → IsOffset t

/-- A variable embedded without braces. -/
inductive Embedded : List Token → Prop
  | alone {v : Token} : v.IsVariable → Embedded [v]
  | offset {v bracket o close : Token} : v.IsVariable → bracket.kind = .lbracket →
      bracket.text = "[" → o.IsOffset → close.kind = .rbracket → Embedded [v, bracket, o, close]
  | negative {v bracket minus ds close : Token} : v.IsVariable → bracket.kind = .lbracket →
      bracket.text = "[" → minus.kind = .minus → minus.text = "-" → ds.IsDigits →
      close.kind = .rbracket → Embedded [v, bracket, minus, ds, close]
  | property {v arrow name : Token} : v.IsVariable → arrow.kind = .arrow → arrow.text = "->" →
      name.kind = .identifier → name.IsName → Embedded [v, arrow, name]

/-- Tokens up to the end of the input, in the given frames. -/
inductive Lexed : List Frame → List Token → Prop
  | eof {fs : List Frame} {t : Token} : fs.head? ≠ some .text → t.kind = .eof → Lexed fs [t]
  | code {fs : List Frame} {t : Token} {ts : List Token} : fs.head? ≠ some .text → t.InCode →
      Lexed fs ts → Lexed fs (t :: ts)
  | brace {fs : List Frame} {t : Token} {ts : List Token} : fs.head? ≠ some .text →
      t.kind ∈ [TokenKind.lbrace, .rbrace] → Lexed (t.kind.framesAfter fs) ts → Lexed fs (t :: ts)
  | opening {fs : List Frame} {t : Token} {ts : List Token} : fs.head? ≠ some .text → t.IsQuote →
      HoleAhead ts → Lexed (.text :: fs) ts → Lexed fs (t :: ts)
  | closing {fs : List Frame} {t : Token} {ts : List Token} : t.IsQuote → Lexed fs ts →
      Lexed (.text :: fs) (t :: ts)
  | run {fs : List Frame} {t : Token} {ts : List Token} : t.IsRun →
      (∀ u ∈ ts.head?, u.kind ≠ .fragment) → Lexed (.text :: fs) ts → Lexed (.text :: fs) (t :: ts)
  | hole {fs : List Frame} {t v : Token} {ts : List Token} : t.kind = .lbrace →
      v.kind = .variable → Lexed (.hole 0 :: .text :: fs) (v :: ts) →
      Lexed (.text :: fs) (t :: v :: ts)
  | embedded {fs : List Frame} {v : Token} {us ts : List Token} : Embedded (v :: us) →
      Lexed (.text :: fs) ts → Lexed (.text :: fs) (v :: (us ++ ts))

/-! ## Single pieces -/

section Pieces

variable {cs : List Char} {p : Piece}

theorem inCode_of_read (h : read cs = .ok p) :
    ∃ k text, p = .lexeme k text ∧ ∀ l, Token.InCode ⟨k, String.ofList text, l⟩ := by
  rcases read_cases h with hoperand | ⟨-, text, -, rfl⟩ | hoperator
  · obtain ⟨k, text, rfl⟩ : ∃ k text, p = .lexeme k text := by
      cases hoperand with
      | sigil => exact ⟨_, _, rfl⟩
      | numeral hc hnumber =>
          cases number_front hc hnumber
          exact ⟨_, _, rfl⟩
      | quoted hsingle =>
          cases singleQuotedString_front hsingle
          exact ⟨_, _, rfl⟩
      | named => exact ⟨_, _, rfl⟩
    refine ⟨k, text, rfl, fun l => .operand ⟨cs, ?_⟩⟩
    rwa [String.toList_ofList]
  · exact ⟨_, _, rfl, fun l => .cast rfl⟩
  · obtain ⟨spelling, k, hmem, rfl⟩ := exists_of_operator hoperator
    refine ⟨k, _, rfl, fun l => .operator ?_⟩
    rwa [String.ofList_toList]

theorem isVariable_of_startsName (h : startsName cs = true) (l : Location) :
    Token.IsVariable ⟨.variable, String.ofList (variableText ('$' :: cs)), l⟩ := by
  refine ⟨rfl, '$' :: cs, ?_⟩
  rw [String.toList_ofList]
  exact .sigil h

theorem isDigits_digitsPiece (h : startsDigit cs = true) (l : Location) :
    Token.IsDigits ⟨.integer, String.ofList (cs.takeWhile Char.isDigit), l⟩ := by
  refine ⟨rfl, ?_, ?_⟩
  · rw [String.toList_ofList]
    cases cs with
    | nil => cases h
    | cons c cs =>
        have hc : c.isDigit = true := by simpa [startsDigit] using h
        simp [hc]
  · rw [String.toList_ofList]
    exact List.all_eq_true.mp List.all_takeWhile

theorem isName_takeWhile (h : startsName cs = true) (k : TokenKind) (l : Location) :
    Token.IsName ⟨k, String.ofList (cs.takeWhile isNameChar), l⟩ := by
  refine ⟨?_, ?_⟩
  · rw [String.toList_ofList]
    cases cs with
    | nil => cases h
    | cons c cs =>
        have hc : isNameStart c = true := by simpa [startsName] using h
        simp [startsName, isNameChar, hc]
  · rw [String.toList_ofList]
    exact List.all_eq_true.mp List.all_takeWhile

end Pieces

namespace Scanner

open Piece

/-! ## Variables in strings -/

section Steps

variable {mode next : Mode} {cs : List Char} {ps : List Piece} {us : List Token} {p : Position}

/-- The offset behind an embedded variable is a negative integer or one token. -/
theorem embeddedOffset_cases (h : embeddedOffset cs = .ok ps) :
    (∃ ds, startsDigit ds = true ∧ ps = [.lexeme .minus ['-'], digitsPiece ds]) ∨
    (∃ k text, ps = [.lexeme k text] ∧ ∀ l, Token.IsOffset ⟨k, String.ofList text, l⟩) := by
  unfold embeddedOffset at h
  split at h
  · cases h
  · next c rest =>
      split at h
      · next hc =>
          simp only [Bool.and_eq_true, beq_iff_eq] at hc
          obtain ⟨rfl, hdigit⟩ := hc
          exact .inl ⟨rest, hdigit, (Except.ok.inj h).symm⟩
      · refine .inr ?_
        split at h
        · next hc =>
            have hdigit : startsDigit (c :: rest) = true := hc
            exact ⟨_, _, (Except.ok.inj h).symm, fun l => .digits (isDigits_digitsPiece hdigit l)⟩
        · split at h
          · next hc =>
              simp only [Bool.and_eq_true, beq_iff_eq] at hc
              obtain ⟨rfl, hname⟩ := hc
              exact ⟨_, _, (Except.ok.inj h).symm,
                fun l => .sigil (isVariable_of_startsName hname l)⟩
          · split at h
            · next hc =>
                have hname : startsName (c :: rest) = true := hc
                exact ⟨_, _, (Except.ok.inj h).symm,
                  fun l => .word rfl (isName_takeWhile hname .fragment l)⟩
            · cases h

theorem embedded_of_step (hname : startsName cs = true)
    (h : embeddedVariable ('$' :: cs) = .ok ps) (p : Position) :
    ∃ v us, (place p ps).dropLast = v :: us ∧ Embedded (v :: us) := by
  unfold embeddedVariable at h
  dsimp only at h
  split at h
  · split at h
    · cases h
    · next offset hoffset =>
        split at h
        · cases h
          rcases embeddedOffset_cases hoffset with ⟨ds, hdigit, rfl⟩ | ⟨k, text, rfl, ho⟩
          · exact ⟨_, _, rfl, .negative (isVariable_of_startsName hname _) rfl rfl rfl rfl
              (isDigits_digitsPiece hdigit _) rfl⟩
          · exact ⟨_, _, rfl, .offset (isVariable_of_startsName hname _) rfl rfl (ho _) rfl⟩
        · cases h
  · split at h
    · next hname' =>
        cases h
        exact ⟨_, _, rfl, .property (isVariable_of_startsName hname _) rfl rfl rfl
          (isName_takeWhile hname' .identifier _)⟩
    · cases h
      exact ⟨_, _, rfl, .alone (isVariable_of_startsName hname _)⟩
  · cases h
    exact ⟨_, _, rfl, .alone (isVariable_of_startsName hname _)⟩

/-! ## Steps -/

theorem exists_step (hne : cs ≠ []) (h : tokensFrom mode p cs = .ok us) :
    ∃ ps next, step mode cs = .ok (ps, next) := by
  cases hstep : step mode cs with
  | error f =>
      rw [tokensFrom_of_fault hne hstep] at h
      cases h
  | ok s => exact ⟨s.1, s.2, rfl⟩

theorem startsHole_cases (h : startsHole cs = true) :
    (∃ ds, cs = '$' :: ds ∧ startsName ds = true) ∨ ∃ ds, cs = '\x7b' :: '$' :: ds := by
  unfold startsHole at h
  split at h
  · exact .inl ⟨_, rfl, h⟩
  · obtain ⟨ds, rfl⟩ := List.head?_eq_some_iff.mp (beq_iff_eq.mp h)
    exact .inr ⟨ds, rfl⟩
  · cases h

theorem textStep_variable {ds : List Char} (hname : startsName ds = true) (opening : List Char)
    (outer : Mode) : textStep opening outer ('$' :: ds)
      = (embeddedVariable ('$' :: ds)).map fun ps => (ps, .text opening outer) :=
  if_pos hname

/-- The first token behind a place where a hole starts. -/
theorem startsHole_of_tokensFrom {opening : List Char} {outer : Mode}
    (hhole : startsHole cs = true) (h : tokensFrom (.text opening outer) p cs = .ok us) :
    ∃ t ts, us = t :: ts ∧ t.StartsHole := by
  have hne : cs ≠ [] := by
    rintro rfl
    cases hhole
  obtain ⟨ps, next, hstep⟩ := exists_step hne h
  obtain ⟨rest, vs, -, -, rfl⟩ := exists_tokensFrom_of_step hne hstep h
  have hstep : textStep opening outer cs = .ok (ps, next) := hstep
  rcases startsHole_cases hhole with ⟨ds, rfl, hname⟩ | ⟨ds, rfl⟩
  · rw [textStep_variable hname] at hstep
    obtain ⟨qs, hvar, heq⟩ := exists_of_map_eq_ok hstep
    cases heq
    obtain ⟨v, us, hplace, hvs⟩ := embedded_of_step hname hvar p
    refine ⟨v, us ++ vs, by rw [hplace]; rfl, .inr ?_⟩
    cases hvs with
    | alone hv => exact hv.1
    | offset hv => exact hv.1
    | negative hv => exact hv.1
    | property hv => exact hv.1
  · cases hstep
    exact ⟨_, _, rfl, .inl rfl⟩

/-- A string does not end with the source. -/
theorem ne_nil_of_text {opening : List Char} {outer : Mode}
    (h : tokensFrom (.text opening outer) p cs = .ok us) : cs ≠ [] := by
  rintro rfl
  cases h

/-- A run and what the scanner reads behind it. -/
theorem run_of_tokensFrom {opening : List Char} {outer : Mode} (hrun : literalRun cs ≠ [])
    (h : tokensFrom (.text opening outer) p cs = .ok us) :
    ∃ t ts p', us = t :: ts ∧ t.IsRun ∧
      tokensFrom (.text opening outer) p' (cs.drop (literalRun cs).length) = .ok ts ∧
      ∃ u vs, ts = u :: vs ∧ (u.kind = .quote ∨ u.StartsHole) := by
  have hne : cs ≠ [] := by
    rintro rfl
    exact hrun rfl
  have hstep : step (.text opening outer) cs = _ := textStep_of_literalRun opening outer hrun
  obtain ⟨rest, ts, hcs, hts, rfl⟩ := exists_tokensFrom_of_step hne hstep h
  have htexts : texts [.lexeme .fragment (literalRun cs)] = literalRun cs := List.append_nil _
  rw [htexts] at hcs hts
  have hdrop : cs.drop (literalRun cs).length = rest := by
    have hdrop := congrArg (List.drop (literalRun cs).length) hcs.symm
    rwa [List.drop_left] at hdrop
  obtain ⟨c, r, rfl⟩ := List.exists_cons_of_ne_nil (ne_nil_of_text hts)
  refine ⟨_, ts, _, rfl, ⟨rfl, ?_, ?_⟩, hdrop ▸ hts, ?_⟩
  · rwa [String.toList_ofList]
  · rw [String.toList_ofList]
    exact ⟨cs, hdrop ▸ List.cons_ne_nil c r, rfl⟩
  · rcases literalRun_stops hdrop with rfl | hhole
    · obtain ⟨more, vs, -, -, rfl⟩ := exists_tokensFrom_of_step (List.cons_ne_nil _ _)
        (show step (.text opening outer) ('"' :: r) = .ok ([.lexeme .quote ['"']], outer) from rfl) hts
      exact ⟨_, _, rfl, .inl rfl⟩
    · obtain ⟨u, vs, rfl, hu⟩ := startsHole_of_tokensFrom hhole hts
      exact ⟨u, vs, rfl, .inr hu⟩

/-- Behind the opening quote of a string that embeds something. -/
theorem holeAhead_of_tokensFrom {opening : List Char} {outer : Mode}
    (hstop : (cs.drop (literalRun cs).length).head? ≠ some '"')
    (h : tokensFrom (.text opening outer) p cs = .ok us) : HoleAhead us := by
  have hhole : ∀ {ds : List Char}, ds = cs.drop (literalRun cs).length → ds ≠ [] →
      startsHole ds = true := by
    rintro ds hds hne
    obtain ⟨c, r, rfl⟩ := List.exists_cons_of_ne_nil hne
    refine (literalRun_stops hds.symm).resolve_left ?_
    rintro rfl
    rw [← hds] at hstop
    exact hstop rfl
  by_cases hrun : literalRun cs = []
  · have hcs : cs = cs.drop (literalRun cs).length := by rw [hrun]; rfl
    obtain ⟨t, ts, rfl, ht⟩ := startsHole_of_tokensFrom (hhole hcs (ne_nil_of_text h)) h
    exact .here ht
  · obtain ⟨t, ts, p', rfl, ht, hts, -⟩ := run_of_tokensFrom hrun h
    obtain ⟨u, vs, rfl, hu⟩ := startsHole_of_tokensFrom (hhole rfl (ne_nil_of_text hts)) hts
    exact .behind ht.1 (.here hu)

/-! ## Runs of the scanner -/

/-- A hole starts with a variable. -/
theorem variable_of_tokensFrom {ds : List Char} (hcode : mode.frames.head? ≠ some .text)
    (h : tokensFrom mode p ('$' :: ds) = .ok us) :
    ∃ v vs, us = v :: vs ∧ v.kind = .variable := by
  obtain ⟨ps, next, hstep⟩ := exists_step (List.cons_ne_nil _ _) h
  obtain ⟨rest, vs, -, -, rfl⟩ := exists_tokensFrom_of_step (List.cons_ne_nil _ _) hstep h
  rw [step_of_code hcode, codeStep_of_read rfl (by decide)] at hstep
  obtain ⟨q, hread, heq⟩ := exists_of_map_eq_ok hstep
  cases heq
  by_cases hname : startsName ds = true
  · rw [read_variable hname] at hread
    cases hread
    exact ⟨_, _, rfl, rfl⟩
  · have hfault : Lexeme.read ('$' :: ds) = .error (.unexpected ('$' :: ds)) := by
      simp only [Lexeme.read, hname]
      rfl
    rw [hfault] at hread
    cases hread

/-- What is read behind a step is lexed. -/
def LexedBehind (cs : List Char) : Prop :=
  ∀ (mode : Mode) (p : Position) (rest : List Char) (us : List Token), rest.length < cs.length →
    tokensFrom mode p rest = .ok us → Lexed mode.frames us

theorem lexed_of_text (ih : LexedBehind cs) {opening : List Char} {outer : Mode}
    (h : tokensFrom (.text opening outer) p cs = .ok us) :
    Lexed (.text :: outer.frames) us := by
  have hne := ne_nil_of_text h
  by_cases hrun : literalRun cs = []
  · obtain ⟨ps, next, hstep⟩ := exists_step hne h
    have htaken := step_takes hne hstep
    obtain ⟨rest, vs, hcs, hvs, rfl⟩ := exists_tokensFrom_of_step hne hstep h
    have hlater : Lexed next.frames vs := by
      refine ih next _ rest vs ?_ hvs
      have := List.length_pos_iff.mpr htaken.texts_ne_nil
      rw [← hcs, List.length_append]
      omega
    obtain ⟨c, ds, rfl⟩ := List.exists_cons_of_ne_nil hne
    have hstart : c = '"' ∨ startsHole (c :: ds) = true := by
      have hdrop : (c :: ds).drop (literalRun (c :: ds)).length = c :: ds := by
        rw [hrun]
        rfl
      exact literalRun_stops hdrop
    have hstep : textStep opening outer (c :: ds) = .ok (ps, next) := hstep
    rcases hstart with rfl | hhole
    · cases hstep
      exact .closing ⟨rfl, rfl⟩ hlater
    · rcases startsHole_cases hhole with ⟨ds, heq, hname⟩ | ⟨ds, heq⟩
      · obtain ⟨rfl, rfl⟩ := List.cons.inj heq
        rw [textStep_variable hname] at hstep
        obtain ⟨qs, hvar, heq⟩ := exists_of_map_eq_ok hstep
        cases heq
        obtain ⟨v, us, hplace, hembedded⟩ := embedded_of_step hname hvar p
        rw [hplace]
        exact .embedded hembedded hlater
      · obtain ⟨rfl, rfl⟩ := List.cons.inj heq
        cases hstep
        obtain ⟨v, vs, rfl, hv⟩ : ∃ v us, vs = v :: us ∧ v.kind = .variable := by
          obtain rfl : rest = '$' :: ds := (List.cons.inj hcs).2
          exact variable_of_tokensFrom (by simp [Mode.frames]) hvs
        exact .hole rfl hv hlater
  · obtain ⟨t, ts, p', rfl, ht, hts, u, vs, rfl, hu⟩ := run_of_tokensFrom hrun h
    refine .run ht ?_ (ih _ p' _ _ ?_ hts)
    · rintro _ ⟨⟩
      rcases hu with hu | hu | hu <;> simp [hu]
    · have := List.length_pos_iff.mpr hrun
      have := (literalRun_isPrefix cs).length_le
      rw [List.length_drop]
      omega

theorem lexed_of_code (hcode : mode.frames.head? ≠ some .text) (ih : LexedBehind cs)
    (hne : cs ≠ []) (h : tokensFrom mode p cs = .ok us) : Lexed mode.frames us := by
  obtain ⟨ps, next, hstep⟩ := exists_step hne h
  have htaken := step_takes hne hstep
  obtain ⟨rest, vs, hcs, hvs, rfl⟩ := exists_tokensFrom_of_step hne hstep h
  have hlater : Lexed next.frames vs := by
    refine ih next _ rest vs ?_ hvs
    have := List.length_pos_iff.mpr htaken.texts_ne_nil
    rw [← hcs, List.length_append]
    omega
  have hframes : ∀ kind text, ps = [.lexeme kind text] →
      next.frames = kind.framesAfter mode.frames := by
    rintro kind text rfl
    have hquoted := htaken.quoted
    generalize next.frames = fs at hquoted
    generalize hfs : (Piece.lexeme kind text).framesAfter mode.frames = fs' at *
    cases hquoted with
    | cons _ hnil =>
        rw [hfs] at hnil
        cases hnil
        exact hfs.symm
  rw [step_of_code hcode] at hstep
  unfold codeStep at hstep
  dsimp only at hstep
  split at hstep
  · cases hstep
    exact hlater
  · split at hstep
    · cases hstep
      rw [hframes _ _ rfl] at hlater
      exact .brace hcode (by simp) hlater
    · cases hstep
      rw [hframes _ _ rfl] at hlater
      exact .brace hcode (by simp) hlater
    · next ds _ =>
        rcases doubleQuoted_cases hstep with ⟨run, hrun, rfl, rfl⟩ | ⟨rfl, rfl, hstop⟩
        · refine .code hcode (.string ⟨rfl, run, hrun, ?_⟩) hlater
          rw [String.toList_ofList]
        · obtain rfl : rest = ds := (List.cons.inj hcs).2
          exact .opening hcode ⟨rfl, rfl⟩ (holeAhead_of_tokensFrom hstop hvs) hlater
    · obtain ⟨q, hread, heq⟩ := exists_of_map_eq_ok hstep
      cases heq
      obtain ⟨k, text, rfl, hcodes⟩ := inCode_of_read hread
      exact .code hcode (hcodes _) hlater

/-- **The tokens of a run of the scanner are lexed** in the frames of its mode. -/
theorem lexed_of_tokensFrom (h : tokensFrom mode p cs = .ok us) : Lexed mode.frames us := by
  induction hn : cs.length using Nat.strongRecOn generalizing mode p cs us with
  | ind n ih =>
      subst hn
      have hbehind : LexedBehind cs := fun mode p rest us hlt hus => ih rest.length hlt hus rfl
      by_cases hcode : mode.frames.head? = some .text
      · cases mode with
        | code => cases hcode
        | hole braces outer => cases hcode
        | text opening outer => exact lexed_of_text hbehind h
      · by_cases hne : cs = []
        · subst hne
          cases mode with
          | code =>
              cases h
              exact .eof (by simp [Mode.frames]) rfl
          | hole braces outer =>
              unfold tokensFrom scanFrom at h
              obtain ⟨ps, hps, rfl⟩ := exists_of_map_eq_ok h
              split at hps
              · cases hps
              · cases hps
                exact .eof hcode rfl
          | text opening outer => exact absurd rfl hcode
        · exact lexed_of_code hcode hbehind hne h

end Steps

end Scanner

/-- **The tokens of a source are lexed.** -/
theorem lexed_of_tokenize {source : String} {ts : List Token} (h : tokenize source = .ok ts) :
    Lexed [] ts := by
  unfold tokenize at h
  split at h
  · cases h
  · next ps hscan =>
      cases h
      have htokens : Scanner.tokensFrom .code .start source.toList = .ok (Piece.place .start ps) := by
        unfold Scanner.tokensFrom
        rw [show Scanner.scanFrom .code 0 source.toList = .ok ps from hscan]
        rfl
      exact Scanner.lexed_of_tokensFrom htokens

end GuardedExpr
