/-
# Braced tokens — the tokens of a source with braces

If a source and the same with braces around its embedded variables are both tokenized,
their tokens are `Respelt`: one by one they have the same words, but for a variable
without braces there is the hole (`respelt_of_tokenize`).

Both sources are scanned side by side.  A step in code takes the same piece from either
(`codeStep_bracedFrom`), and so does a step in a string, unless it takes a variable.
-/
import GuardedExpr.Proofs.Braces

namespace GuardedExpr

open Text Lexeme

/-! ## Respelt tokens -/

/-- The second list of tokens has the same words as the first, but for every variable that is
embedded without braces it has a hole. -/
inductive Respelt : List Frame → List Token → List Token → Prop
  | eof {fs : List Frame} {t t' : Token} : t.kind = .eof → t'.word = t.word → Respelt fs [t] [t']
  | same {fs : List Frame} {t t' : Token} {ts ts' : List Token} : t.kind ≠ .eof →
      t'.word = t.word → (fs.head? = some .text → t.kind ≠ .variable) →
      Respelt (t.kind.framesAfter fs) ts ts' → Respelt fs (t :: ts) (t' :: ts')
  | braced {fs : List Frame} {us vs ts ts' : List Token} {l r : Token} : Embedded us →
      l.kind = .lbrace → vs.map Token.word = (us.map Token.word).map Word.inCode →
      r.kind = .rbrace → Lexed (.text :: fs) ts → Respelt (.text :: fs) ts ts' →
      Respelt (.text :: fs) (us ++ ts) (l :: (vs ++ r :: ts'))

theorem Piece.Quoted.unique {fs fs₁ fs₂ : List Frame} {ps : List Piece} (h : Quoted fs ps fs₁)
    (h' : Quoted fs ps fs₂) : fs₁ = fs₂ := by
  induction h with
  | nil =>
      cases h'
      rfl
  | cons _ _ ih =>
      cases h' with
      | cons _ h' => exact ih h'

/-- Behind a piece that is the same in both sources. -/
theorem Respelt.behind {fs fs' : List Frame} {q : Piece} {ts ts' : List Token}
    (hq : Piece.Quoted fs [q] fs')
    (hplain : fs.head? = some .text → ∀ text, q ≠ .lexeme .variable text)
    (h : Respelt fs' ts ts') (p p' : Position) :
    Respelt fs ((Piece.place p [q]).dropLast ++ ts) ((Piece.place p' [q]).dropLast ++ ts') := by
  cases hq with
  | cons hfits hnil =>
      cases hnil
      cases q with
      | blank text => exact h
      | lexeme kind text =>
          refine .same hfits.2 rfl ?_ h
          rintro htext rfl
          exact hplain htext text rfl

/-! ## Both sources side by side -/

namespace Scanner

open Piece

section Tokens

variable {mode mode' next next' : Mode} {cs front rest : List Char} {q : Piece}
  {p p' : Position} {ts ts' : List Token}

/-- What is read behind a step is respelt. -/
def RespeltBehind (cs : List Char) : Prop :=
  ∀ (mode mode' : Mode) (p p' : Position) (rest : List Char) (ts ts' : List Token),
    rest.length < cs.length → mode'.frames = mode.frames → tokensFrom mode p rest = .ok ts →
    tokensFrom mode' p' (bracedFrom mode 0 rest) = .ok ts' → Respelt mode.frames ts ts'

/-- A step that takes the same piece in both sources. -/
theorem respelt_of_same (ih : RespeltBehind (front ++ rest)) (hframes : mode'.frames = mode.frames)
    (hplain : mode.frames.head? = some .text → ∀ text, q ≠ .lexeme .variable text)
    (hfront : texts [q] = front) (hne : front ≠ [])
    (hstep : step mode (front ++ rest) = .ok ([q], next))
    (hstep' : step mode' (front ++ bracedFrom next 0 rest) = .ok ([q], next'))
    (h : tokensFrom mode p (front ++ rest) = .ok ts)
    (h' : tokensFrom mode' p' (front ++ bracedFrom next 0 rest) = .ok ts') :
    Respelt mode.frames ts ts' := by
  have hquoted := (step_takes (List.append_ne_nil_of_left_ne_nil hne _) hstep).quoted
  have hquoted' := (step_takes (List.append_ne_nil_of_left_ne_nil hne _) hstep').quoted
  rw [hframes] at hquoted'
  rw [tokensFrom_of_step hstep hfront hne] at h
  obtain ⟨us, hus, rfl⟩ := exists_of_map_eq_ok h
  rw [tokensFrom_of_step hstep' hfront hne] at h'
  obtain ⟨us', hus', rfl⟩ := exists_of_map_eq_ok h'
  have hlater : rest.length < (front ++ rest).length := by
    have := List.length_pos_iff.mpr hne
    rw [List.length_append]
    omega
  exact .behind hquoted hplain
    (ih next next' _ _ rest us us' hlater (hquoted'.unique hquoted) hus hus') p p'

/-! ### Code -/

theorem exists_of_codeStep {ps : List Piece} (h : codeStep mode cs = .ok (ps, next)) :
    ∃ q, ps = [q] := by
  unfold codeStep at h
  dsimp only at h
  split at h
  · cases h
    exact ⟨_, rfl⟩
  · split at h
    · cases h
      exact ⟨_, rfl⟩
    · cases h
      exact ⟨_, rfl⟩
    · rcases doubleQuoted_cases h with ⟨run, -, rfl, -⟩ | ⟨rfl, -⟩
      · exact ⟨_, rfl⟩
      · exact ⟨_, rfl⟩
    · obtain ⟨p, -, heq⟩ := exists_of_map_eq_ok h
      cases heq
      exact ⟨p, rfl⟩

/-- A string with embedded expressions is opened where they have braces. -/
theorem codeStep_opening (h : codeStep mode ('"' :: rest) = .ok ([.lexeme .quote ['"']], next))
    (hts : tokensFrom next p rest = .ok ts) (mode' : Mode) :
    codeStep mode' ('"' :: bracedFrom next 0 rest)
      = .ok ([.lexeme .quote ['"']], .text ('"' :: bracedFrom next 0 rest) mode') := by
  rcases doubleQuoted_cases h with ⟨run, -, heq, -⟩ | ⟨-, rfl, hstop⟩
  · cases heq
  · obtain ⟨d, more, hbraced, -, hquote, hagain⟩ := bracedFrom_run hts
    have hdrop : (bracedFrom (.text ('"' :: rest) mode) 0 rest).drop
        (literalRun (bracedFrom (.text ('"' :: rest) mode) 0 rest)).length = d :: more := by
      rw [hbraced, hagain, List.drop_left]
    exact doubleQuoted_opens hdrop (fun hd => hstop (hquote.mp hd)) mode'

/-- A step in code takes the same piece in both sources. -/
theorem codeStep_bracedFrom (hcode : mode.frames.head? ≠ some .text)
    (hstep : codeStep mode (front ++ rest) = .ok ([q], next)) (hfront : texts [q] = front)
    (hne : front ≠ []) (hts : tokensFrom next p rest = .ok ts) (mode' : Mode) :
    ∃ next', codeStep mode' (front ++ bracedFrom next 0 rest) = .ok ([q], next') := by
  by_cases hopen : q = .lexeme .quote ['"']
  · subst hopen
    obtain rfl : ['"'] = front := hfront
    exact ⟨_, codeStep_opening hstep hts mode'⟩
  · obtain ⟨c, front, rfl⟩ := List.exists_cons_of_ne_nil hne
    by_cases hbrace : c = '\x7d'
    · subst hbrace
      cases hstep
      exact ⟨_, rfl⟩
    · have hopen : [q] ≠ [.lexeme .quote ['"']] := by simpa using hopen
      have hnext := code_of_codeStep hcode hopen hbrace hstep
      exact codeStep_sameAhead hstep hfront hne hopen (sameAhead_bracedFrom hnext rest) mode'

theorem respelt_of_codeStep (hcode : mode.frames.head? ≠ some .text) (ih : RespeltBehind cs)
    (hne : cs ≠ []) (hframes : mode'.frames = mode.frames) (h : tokensFrom mode p cs = .ok ts)
    (h' : tokensFrom mode' p' (bracedFrom mode 0 cs) = .ok ts') : Respelt mode.frames ts ts' := by
  obtain ⟨ps, next, hstep⟩ := exists_step hne h
  have htaken := step_takes hne hstep
  have htexts := htaken.texts_ne_nil
  obtain ⟨rest, rfl⟩ := htaken.covers
  rw [bracedFrom_of_step hstep rfl htexts, Scanner.respelt_of_code hcode] at h'
  have hcode' : mode'.frames.head? ≠ some .text := by rwa [hframes]
  have hread := hstep
  rw [step_of_code hcode] at hread
  obtain ⟨q, rfl⟩ := exists_of_codeStep hread
  have hlater := h
  rw [tokensFrom_of_step hstep rfl htexts] at hlater
  obtain ⟨us, hus, -⟩ := exists_of_map_eq_ok hlater
  obtain ⟨next', hread'⟩ := codeStep_bracedFrom hcode hread rfl htexts hus mode'
  rw [← step_of_code hcode'] at hread'
  exact respelt_of_same ih hframes (fun htext => absurd htext hcode) rfl htexts hstep hread' h h'

/-! ### Texts of strings -/

section Texts

variable {opening opening' ds : List Char} {outer outer' : Mode}

/-- The tokens of a hole: its brace, the words of the variable, and the brace that closes it. -/
theorem tokens_of_hole {ps : List Piece} {stop : List Char} (hname : startsName ds = true)
    (hps : embeddedVariable ('$' :: ds) = .ok ps)
    (h : tokensFrom (.text opening outer) p ('\x7b' :: (ps.flatMap inHole ++ '\x7d' :: stop))
      = .ok ts) :
    ∃ l ws r us p₁, ts = l :: (ws ++ r :: us) ∧ l.kind = .lbrace ∧
      ws.map Token.word = (words ps).map Word.inCode ∧ r.kind = .rbrace ∧
      tokensFrom (.text opening outer) p₁ stop = .ok us := by
  obtain ⟨name, more, hhead⟩ := exists_of_embeddedVariable hps
  have hopen : step (.text opening outer) (['\x7b'] ++ (ps.flatMap inHole ++ '\x7d' :: stop))
      = .ok ([.lexeme .lbrace ['\x7b']], .hole 0 (.text opening outer)) := by
    rw [hhead]
    rfl
  have hclose : step (.hole 0 (.text opening outer)) (['\x7d'] ++ stop)
      = .ok ([.lexeme .rbrace ['\x7d']], .text opening outer) := rfl
  have hcode : (Mode.hole 0 (.text opening outer)).frames.head? ≠ some .text := by
    simp [Mode.frames]
  rw [← List.singleton_append,
    tokensFrom_of_step hopen (List.append_nil _) (List.cons_ne_nil _ _)] at h
  obtain ⟨vs, hvs, rfl⟩ := exists_of_map_eq_ok h
  obtain ⟨ws, zs, p₁, rfl, hws, hzs⟩ := gives_embedded hcode hname hps stop _ vs hvs
  rw [← List.singleton_append,
    tokensFrom_of_step hclose (List.append_nil _) (List.cons_ne_nil _ _)] at hzs
  obtain ⟨us, hus, rfl⟩ := exists_of_map_eq_ok hzs
  exact ⟨_, ws, _, us, _, rfl, rfl, hws, rfl, hus⟩

variable (ih : RespeltBehind cs)
  (hframes : (Mode.text opening' outer').frames = (Mode.text opening outer).frames)
  (h : tokensFrom (.text opening outer) p cs = .ok ts)
  (h' : tokensFrom (.text opening' outer') p' (bracedFrom (.text opening outer) 0 cs) = .ok ts')

include ih hframes h h'

/-- A variable without braces, and the hole in its place. -/
theorem respelt_of_embedded (hcs : cs = '$' :: ds) (hname : startsName ds = true) :
    Respelt (.text :: outer.frames) ts ts' := by
  subst hcs
  obtain ⟨ps, next, hstep⟩ := exists_step (List.cons_ne_nil _ _) h
  have htaken := step_takes (List.cons_ne_nil _ _) hstep
  have htexts := htaken.texts_ne_nil
  have hvariable : textStep opening outer ('$' :: ds) = .ok (ps, next) := hstep
  rw [textStep_variable hname] at hvariable
  obtain ⟨qs, hqs, heq⟩ := exists_of_map_eq_ok hvariable
  cases heq
  obtain ⟨rest, hrest⟩ := htaken.covers
  have hlength : rest.length < ('$' :: ds).length := by
    have := List.length_pos_iff.mpr htexts
    rw [← hrest, List.length_append]
    omega
  have hrespelt : respelt (.text opening outer) ps = '\x7b' :: (ps.flatMap inHole ++ ['\x7d']) := by
    obtain ⟨name, more, rfl⟩ := exists_of_embeddedVariable hqs
    rfl
  rw [← hrest] at h h' hstep
  rw [bracedFrom_of_step hstep rfl htexts, hrespelt, List.cons_append, List.append_assoc,
    List.singleton_append] at h'
  rw [tokensFrom_of_step hstep rfl htexts] at h
  obtain ⟨us, hus, rfl⟩ := exists_of_map_eq_ok h
  obtain ⟨l, ws, r, us', p₁, rfl, hl, hws, hr, hus'⟩ := tokens_of_hole hname hqs h'
  have hlater : Respelt (Mode.text opening outer).frames us us' :=
    ih _ _ _ _ rest us us' hlength hframes hus hus'
  obtain ⟨v, group, hplace, hgroup⟩ := embedded_of_step hname hqs p
  have hwords : (v :: group).map Token.word = words ps := by
    rw [← hplace, List.map_dropLast, map_word_place, List.dropLast_concat]
  rw [hplace]
  exact .braced hgroup hl (hws.trans (congrArg _ hwords.symm)) hr (lexed_of_tokensFrom hus) hlater

/-- The quote at the end of a string. -/
theorem respelt_of_quote (hcs : cs = '"' :: ds) : Respelt (.text :: outer.frames) ts ts' := by
  subst hcs
  have hstep : step (.text opening outer) (['"'] ++ ds) = .ok ([.lexeme .quote ['"']], outer) := rfl
  have hbraced := bracedFrom_of_step hstep rfl (List.cons_ne_nil _ _)
  have hfront : texts [.lexeme .quote ['"']] = ['"'] := rfl
  rw [show '"' :: ds = ['"'] ++ ds from rfl, hbraced] at h'
  exact respelt_of_same ih hframes (by simp) hfront (List.cons_ne_nil _ _) hstep rfl h h'

/-- A hole with braces of its own. -/
theorem respelt_of_hole (hcs : cs = '\x7b' :: '$' :: ds) :
    Respelt (.text :: outer.frames) ts ts' := by
  subst hcs
  have hstep : step (.text opening outer) (['\x7b'] ++ '$' :: ds)
      = .ok ([.lexeme .lbrace ['\x7b']], .hole 0 (.text opening outer)) := rfl
  have hbraced := bracedFrom_of_step hstep rfl (List.cons_ne_nil _ _)
  have hcode : (Mode.hole 0 (.text opening outer)).frames.head? ≠ some .text := by
    simp [Mode.frames]
  have hhead := (sameAhead_bracedFrom hcode ('$' :: ds)).head_eq
  obtain ⟨more, hmore⟩ := List.head?_eq_some_iff.mp hhead.symm
  have hstep' : step (.text opening' outer')
      (['\x7b'] ++ bracedFrom (.hole 0 (.text opening outer)) 0 ('$' :: ds))
      = .ok ([.lexeme .lbrace ['\x7b']], .hole 0 (.text opening' outer')) := by
    rw [hmore]
    rfl
  have hfront : texts [.lexeme .lbrace ['\x7b']] = ['\x7b'] := rfl
  rw [show '\x7b' :: '$' :: ds = ['\x7b'] ++ '$' :: ds from rfl, hbraced] at h'
  exact respelt_of_same ih hframes (by simp) hfront (List.cons_ne_nil _ _) hstep hstep' h h'

/-- Text up to a hole or the quote. -/
theorem respelt_of_run (hrun : literalRun cs ≠ []) : Respelt (.text :: outer.frames) ts ts' := by
  obtain ⟨d, more, hbraced, hmore, -, hagain⟩ := bracedFrom_run h
  have hcs : literalRun cs ++ cs.drop (literalRun cs).length = cs :=
    List.prefix_iff_eq_append.mp (literalRun_isPrefix cs)
  have hstep : step (.text opening outer) (literalRun cs ++ cs.drop (literalRun cs).length)
      = .ok ([.lexeme .fragment (literalRun cs)], .text opening outer) := by
    rw [hcs]
    exact textStep_of_literalRun opening outer hrun
  have hstep' : step (.text opening' outer') (literalRun cs ++
        bracedFrom (.text opening outer) 0 (cs.drop (literalRun cs).length))
      = .ok ([.lexeme .fragment (literalRun cs)], .text opening' outer') := by
    rw [hmore]
    have hstep' := textStep_of_literalRun opening' outer' (hagain.symm ▸ hrun)
    rw [hagain] at hstep'
    exact hstep'
  rw [hbraced, ← hmore] at h'
  rw [← hcs] at h ih
  exact respelt_of_same ih hframes (by simp) (List.append_nil _) hrun hstep hstep' h h'

theorem respelt_of_textStep : Respelt (.text :: outer.frames) ts ts' := by
  by_cases hrun : literalRun cs = []
  · obtain ⟨c, ds, rfl⟩ := List.exists_cons_of_ne_nil (ne_nil_of_text h)
    have hdrop : (c :: ds).drop (literalRun (c :: ds)).length = c :: ds := by
      rw [hrun]
      rfl
    rcases literalRun_stops hdrop with rfl | hhole
    · exact respelt_of_quote ih hframes h h' rfl
    · rcases startsHole_cases hhole with ⟨ds, hcs, hname⟩ | ⟨ds, hcs⟩
      · exact respelt_of_embedded ih hframes h h' hcs hname
      · exact respelt_of_hole ih hframes h h' hcs
  · exact respelt_of_run ih hframes h h' hrun

end Texts

/-! ### All of it -/

theorem eof_of_tokensFrom (h : tokensFrom mode p [] = .ok ts) :
    ∃ t, ts = [t] ∧ t.word = (.eof, "") := by
  obtain ⟨ps, hps, rfl⟩ := exists_of_map_eq_ok h
  unfold scanFrom at hps
  split at hps
  · cases hps
  · cases hps
    exact ⟨_, rfl, rfl⟩

/-- **The tokens of a source with braces are those of the source, respelt.** -/
theorem respelt_of_tokensFrom (hframes : mode'.frames = mode.frames)
    (h : tokensFrom mode p cs = .ok ts)
    (h' : tokensFrom mode' p' (bracedFrom mode 0 cs) = .ok ts') : Respelt mode.frames ts ts' := by
  induction hn : cs.length using Nat.strongRecOn generalizing mode mode' p p' cs ts ts' with
  | ind n ih =>
      subst hn
      have hbehind : RespeltBehind cs := fun mode mode' p p' rest ts ts' hlt hframes hts hts' =>
        ih rest.length hlt hframes hts hts' rfl
      by_cases hcode : mode.frames.head? = some .text
      · cases mode with
        | code => cases hcode
        | hole braces outer => cases hcode
        | text opening outer =>
            cases mode' with
            | code => cases hframes
            | hole braces' outer' => cases hframes
            | text opening' outer' =>
                exact respelt_of_textStep hbehind hframes h h'
      · by_cases hne : cs = []
        · subst hne
          obtain ⟨t, rfl, ht⟩ := eof_of_tokensFrom h
          obtain ⟨t', rfl, ht'⟩ := eof_of_tokensFrom h'
          exact .eof (congrArg Prod.fst ht) (ht'.trans ht.symm)
        · exact respelt_of_codeStep hcode hbehind hne hframes h h'

end Tokens

end Scanner

/-- The tokens of a source, and those of the source with braces. -/
theorem respelt_of_tokenize {source : String} {ts ts' : List Token}
    (h : tokenize source = .ok ts) (h' : tokenize (inBraces source) = .ok ts') :
    Respelt [] ts ts' := by
  rw [tokenize_eq_ok_iff] at h h'
  rw [inBraces, String.toList_ofList] at h'
  exact Scanner.respelt_of_tokensFrom rfl h h'

example : inBraces "\"a$n[b] $n[-1]\" . $n->p"
    = "\"a\x7b$n['b']\x7d \x7b$n[-1]\x7d\" . $n->p" := rfl

end GuardedExpr
