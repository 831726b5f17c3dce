/-
# Error places — every error points into the source

A scanning fault keeps what is left of the source, and the text that it quotes is in
front there.  An error of the parser stands at a token and quotes it (`Keeping`).  The
tree keeps tokens of the source only, so that an error of its evaluation, which stands
at a node, has the place of a token, whatever the context and the host answer.
-/
import GuardedExpr.Proofs.Keeping
import GuardedExpr.Proofs.LineByLine
import GuardedExpr.Proofs.Nesting

namespace GuardedExpr

open Text

/-! ## Scanning faults -/

/-- The fault quotes what is in front of what it leaves, and demands nothing else there. -/
structure ScanFault.Quotes (f : ScanFault) : Prop where
  found : f.fault.found.toList <+: f.rest
  expected : f.fault.expected? = none

theorem ScanFault.quotes_unexpected (cs : List Char) : (unexpected cs).Quotes := by
  refine ⟨?_, rfl⟩
  show (String.ofList (cs.take 1)).toList <+: cs
  rw [String.toList_ofList]
  exact List.take_prefix 1 cs

theorem ScanFault.quotes_unterminated (cs : List Char) : (unterminated cs).Quotes :=
  ⟨(quotes_unexpected cs).found, rfl⟩

namespace Scanner

open Lexeme

section Quotes

variable {cs : List Char} {f : ScanFault}

theorem radixNumber_quotes {base : Nat} (h : radixNumber base cs = .error f) : f.Quotes := by
  unfold radixNumber at h
  dsimp only at h
  split at h
  · cases h
  · cases h
    refine ⟨?_, rfl⟩
    show (String.ofList _).toList <+: cs
    rw [String.toList_ofList]
    exact take_isPrefix_append 2 (List.takeWhile_prefix _)

theorem decimalNumber_quotes (h : decimalNumber cs = .error f) : f.Quotes := by
  unfold decimalNumber at h
  dsimp only at h
  split at h
  · cases h
  · cases h
    refine ⟨?_, rfl⟩
    show (String.ofList _).toList <+: cs
    rw [String.toList_ofList]
    refine isPrefix_append (isPrefix_append (isPrefix_append (List.takeWhile_prefix _) ?_) ?_) ?_
    · exact fractionText_isPrefix _
    · exact exponentText_isPrefix _
    · exact List.takeWhile_prefix _

theorem operator_quotes (h : operator cs = .error f) : f.Quotes := by
  unfold operator at h
  split at h
  · cases h
  · cases h
    exact ScanFault.quotes_unexpected cs

theorem read_quotes (h : read cs = .error f) : f.Quotes := by
  unfold Lexeme.read number singleQuotedString at h
  split at h
  · cases h
    exact ScanFault.quotes_unexpected []
  · split at h
    · cases h
    · split at h
      · split at h
        · exact radixNumber_quotes h
        · exact decimalNumber_quotes h
      · split at h
        · split at h
          · cases h
          · cases h
            exact ScanFault.quotes_unterminated _
        · split at h
          · cases h
          · split at h
            · split at h
              · cases h
              · exact operator_quotes h
            · exact operator_quotes h

theorem embeddedOffset_quotes (h : embeddedOffset cs = .error f) : f.Quotes := by
  unfold embeddedOffset at h
  repeat' split at h
  all_goals cases h
  · exact ScanFault.quotes_unexpected []
  · exact ScanFault.quotes_unexpected _

theorem embeddedVariable_quotes (h : embeddedVariable cs = .error f) : f.Quotes := by
  unfold embeddedVariable at h
  dsimp only at h
  split at h
  · split at h
    · next f' hoffset =>
        cases h
        exact embeddedOffset_quotes hoffset
    · split at h
      · cases h
      · cases h
        exact ScanFault.quotes_unexpected _
  · split at h <;> cases h
  · cases h

theorem step_quotes {mode : Mode} (h : step mode cs = .error f) : f.Quotes := by
  have hcode : ∀ mode, codeStep mode cs = .error f → f.Quotes := by
    intro mode h
    unfold codeStep doubleQuoted at h
    dsimp only at h
    split at h
    · cases h
    · split at h
      · cases h
      · cases h
      · split at h <;> cases h
        exact ScanFault.quotes_unterminated _
      · exact read_quotes (eq_error_of_map_eq_error h)
  cases mode with
  | text opening outer =>
      change textStep opening outer cs = .error f at h
      unfold textStep at h
      split at h
      · cases h
      · cases h
      · split at h
        · exact embeddedVariable_quotes (eq_error_of_map_eq_error h)
        · cases h
  | _ => exact hcode _ h

theorem scanFrom_quotes {mode : Mode} {skip : Nat} (h : scanFrom mode skip cs = .error f) :
    f.Quotes := by
  induction cs generalizing mode skip with
  | nil =>
      unfold scanFrom at h
      split at h
      · next opening _ =>
          cases h
          exact ScanFault.quotes_unterminated opening
      · cases h
  | cons c cs ih =>
      cases skip with
      | succ skip => exact ih h
      | zero =>
          unfold scanFrom at h
          dsimp only at h
          split at h
          · next f' hstep =>
              cases h
              exact step_quotes hstep
          · split at h
            · next f' hrun =>
                cases h
                exact ih hrun
            · cases h

end Quotes

end Scanner

/-- The text that a fault quotes stands in the source where the error says. -/
theorem ScanFault.standsIn {f : ScanFault} {cs : List Char} (hrest : f.rest <:+ cs)
    (hquotes : f.Quotes) (kind : TokenKind) :
    Token.StandsIn cs ⟨kind, f.fault.found, (f.toParseError cs).location⟩ := by
  obtain ⟨before, rfl⟩ := hrest
  obtain ⟨behind, hbehind⟩ := hquotes.found
  have hbefore : (before ++ f.rest).take ((before ++ f.rest).length - f.rest.length) = before := by
    rw [List.length_append, Nat.add_sub_cancel, List.take_left]
  refine ⟨before, behind, ?_, ?_⟩
  · rw [List.append_assoc, hbehind]
  · show Location.ofPosition (Position.start.after _) _ = _
    rw [hbefore, byteLength_toList]

/-! ## Evaluation -/

namespace Contract

variable {env : Environment} {k : Contract}

/-- An evaluation fails at the nodes of its expression only, for want of a value only at its
literals and for want of an operator only where it has a stray one. -/
theorem holds_evaluateWithin_at_nodes (h : k.AdmitsNodes env) {limit : Nat}
    (hlimit : k.fault (.stackOverflow limit)) (depth : Nat) {e : Expr}
    (hplace : ∀ x : Expr, x.Within e → k.place x.location)
    (hoperator : ∀ x : Expr, x.Within e → k.AdmitsOperator x)
    (hliteral : ∀ t, (Expr.literal t).Within e → k.AdmitsLiteral t) :
    k.Holds (e.evaluateWithin env limit depth) := by
  induction depth generalizing e with
  | zero => exact holds_fail (hplace e (.refl e)) hlimit
  | succ depth ih =>
      refine holds_node h (hplace e (.refl e)) (fun x hx => hplace x (.operand hx (.refl x)))
        (hoperator e (.refl e)) ?_ ?_
      · rintro x hx t rfl
        rcases List.mem_cons.mp hx with hx | hx
        · exact hliteral t (hx ▸ .refl e)
        · exact hliteral t (.operand hx (.refl _))
      · intro x hx
        have hmem := Expr.visited_subset_operands e hx
        exact ih (fun y hy => hplace y (.operand hmem hy))
          (fun y hy => hoperator y (.operand hmem hy)) fun t ht => hliteral t (.operand hmem ht)

/-- Every error stands at a token with the property. -/
def atTokens (P : Token → Prop) : Contract where
  call _ := True
  place l := ∃ t, P t ∧ l = t.location
  fault _ := True

theorem atTokens_admits (P : Token → Prop) (env : Environment) : (atTokens P).Admits env where
  call _ _ := trivial
  fault _ _ := trivial

end Contract

theorem Expr.Everywhere.location_of_error {P : Token → Prop} {e : Expr} (h : e.Everywhere P)
    {env : Environment} {limit : Nat} {past calls : List Call} {err : EvalError}
    (hrun : (e.evaluate env limit).runOn past = (.error err, calls)) :
    ∃ t, P t ∧ err.location = t.location := by
  have hadmits := Contract.atTokens_admits P env
  have hholds : (Contract.atTokens P).Holds (e.evaluate env limit) :=
    Contract.holds_evaluateWithin_at_nodes hadmits.nodes trivial limit
      (fun x hx => ⟨x.token, h x hx, rfl⟩) (fun x _ => hadmits.operator x)
      fun t _ => hadmits.literal t
  obtain ⟨-, -, -, herror⟩ := hholds past
  exact (herror err (congrArg Prod.fst hrun)).1

/-! ## Sources -/

/-- Every token stands in the source, and the end of the input has no text. -/
theorem standsIn_of_tokenize {source : String} {ts : List Token} (h : tokenize source = .ok ts) :
    ∀ t ∈ ts, t.StandsIn source.toList ∧ (t.kind = .eof → t.text = "") := by
  unfold tokenize at h
  split at h
  · cases h
  · next ps hscan =>
      cases h
      obtain ⟨htexts, fs, hquoted, -⟩ := Scanner.scan_covers hscan
      intro t ht
      refine ⟨?_, fun heof => ?_⟩
      · have hstands : t.StandsIn ([] ++ Piece.texts ps) := Piece.standsIn_of_mem_place ht
        rwa [List.nil_append, htexts] at hstands
      · obtain ⟨body, hbody, hall⟩ := Piece.place_eq_append hquoted Position.start
        rw [hbody] at ht
        rcases List.mem_append.mp ht with ht | ht
        · exact absurd heof (hall t ht).1
        · rw [List.mem_singleton.mp ht]

/-- An error without tokens is a fault of the scanner. -/
theorem exists_fault_of_tokenize {source : String} {e : ParseError}
    (h : tokenize source = .error e) :
    ∃ f, Scanner.scanFrom .code 0 source.toList = .error f ∧ e = f.toParseError source.toList := by
  unfold tokenize at h
  split at h
  · next f hscan =>
      cases h
      exact ⟨f, hscan, rfl⟩
  · cases h

/-- The error stands at a token with the property and quotes its text. -/
def ParseError.IsAt (P : Token → Prop) (e : ParseError) : Prop :=
  ∃ t, P t ∧ e.location = t.location ∧ e.fault.found = t.text

/-- An unexpected end quotes nothing, and the token that ends the input has no text. -/
theorem ParseError.isAt_faults {P : Token → Prop} (hend : ∀ t, P t → t.kind = .eof → t.text = "")
    (limit : Nat) : Grammar.Faults limit P (IsAt P) where
  tooDeep t ht := ⟨t, ht, rfl, rfl⟩
  unexpected t _ ht _ := ⟨t, ht, rfl, rfl⟩
  ended t _ ht heof _ := ⟨t, ht, rfl, (hend t ht heof).symm⟩
  castType t ht _ _ := ⟨t, ht, rfl, rfl⟩

/-- What is parsed from a source keeps to the tokens of it. -/
theorem Expr.ofTokens_keeps_source {source : String} {ts : List Token}
    (h : tokenize source = .ok ts) (limit : Nat) :
    (∀ e, Expr.ofTokens limit ts = .error e → e.IsAt (· ∈ ts)) ∧
      ∀ tree, Expr.ofTokens limit ts = .ok tree → tree.Everywhere (· ∈ ts) := by
  have hE := ParseError.isAt_faults (fun t ht => (standsIn_of_tokenize h t ht).2) limit
  have hne : ts ≠ [] := Scanner.tokensFrom_ne_nil (tokenize_eq_ok_iff.mp h)
  have hts : (TokenStream.ofList ts).Consists (· ∈ ts) := TokenStream.consists_ofList (fun _ ht => ht) hne
  obtain ⟨herror, hok⟩ := Expr.ofTokens_keeps hE hts
  exact ⟨herror, fun tree htree => (hok tree htree).everywhere⟩

/-- A parse error quotes the part of the source where it stands. -/
theorem Expr.standsIn_of_parse_error {source : String} {limit : Nat} {e : ParseError}
    (h : Expr.parse limit source = .error e) :
    ∃ t : Token, t.StandsIn source.toList ∧ e.location = t.location ∧ e.fault.found = t.text := by
  unfold Expr.parse at h
  split at h
  · next e' htokenize =>
      cases h
      obtain ⟨f, hscan, rfl⟩ := exists_fault_of_tokenize htokenize
      have hmode : Scanner.Mode.code.StandsIn source.toList := trivial
      have hrest : f.rest <:+ source.toList :=
        Scanner.scanFrom_rest hmode (List.suffix_refl _) hscan
      exact ⟨⟨.eof, f.fault.found, _⟩, f.standsIn hrest (Scanner.scanFrom_quotes hscan) .eof,
        rfl, rfl⟩
  · next ts hts =>
      obtain ⟨t, ht, hloc, htext⟩ := (Expr.ofTokens_keeps_source hts limit).1 e h
      exact ⟨t, (standsIn_of_tokenize hts t ht).1, hloc, htext⟩

/-- **Every error points into the source.**  A parse error spans characters of the source, and what
it quotes is the text that it spans; its line and column are those of its offset.  An error of the
evaluation of the tree has the place of a token of the source, whatever the context, the host, the
deny-list and the limit. -/
theorem errors_point_into_source (source : String) (limit : Nat) :
    (∀ e, Expr.parse limit source = .error e →
      e.location.offset ≤ e.location.stop ∧ e.location.stop ≤ source.utf8ByteSize ∧
      IsBoundary source e.location.offset ∧ IsBoundary source e.location.stop ∧
      sliceText source e.location.offset e.location.stop = e.fault.found ∧
      e.location = locate source e.location.offset e.location.length) ∧
    ∀ tree, Expr.parse limit source = .ok tree → ∃ ts, tokenize source = .ok ts ∧
      ∀ env limit' past err calls,
        (tree.evaluate env limit').runOn past = (.error err, calls) →
        ∃ t ∈ ts, err.location = t.location := by
  refine ⟨fun e h => ?_, fun tree h => ?_⟩
  · obtain ⟨t, hstands, hloc, htext⟩ := Expr.standsIn_of_parse_error h
    obtain ⟨hfirst, hstop, hslice, hlocate⟩ := hstands.spec
    rw [hloc, htext]
    refine ⟨Nat.le_add_right _ _, ?_, hfirst, hstop, hslice, hlocate⟩
    obtain ⟨before, behind, hsource, hlength⟩ := hstop
    rw [← hlength, ← byteLength_toList, hsource, byteLength_append]
    exact Nat.le_add_right _ _
  · unfold Expr.parse at h
    split at h
    · cases h
    · next ts hts =>
        have htree := (Expr.ofTokens_keeps_source hts limit).2 tree h
        exact ⟨ts, hts, fun env limit' past err calls hrun => htree.location_of_error hrun⟩

/-- In `"é{$a $b}"` the parser stops at `$b`, behind a character of two bytes; the evaluation of
`!$b` stops there too where the variable is not bound. -/
theorem faulty_variable_is_pointed_at :
    (∃ e, Expr.parse 3 "\"é\x7b$a $b\x7d\"" = .error e ∧ e.location = ⟨7, 2, 1, 7⟩ ∧
      sliceText "\"é\x7b$a $b\x7d\"" 7 9 = e.fault.found ∧
      locate "\"é\x7b$a $b\x7d\"" 7 2 = ⟨7, 2, 1, 7⟩) ∧
    ∃ tree ts, Expr.parse 3 "!$b" = .ok tree ∧ tokenize "!$b" = .ok ts ∧
      ∀ host denied, ∃ err, ((tree.evaluate ⟨.ofList [], host, denied⟩ 3).runOn []).1 = .error err ∧
        ∃ t ∈ ts, err.location = t.location := by
  refine ⟨?_, ?_⟩
  · have htokens : tokenize "\"é\x7b$a $b\x7d\"" = .ok
        [⟨.quote, "\"", ⟨0, 1, 1, 1⟩⟩, ⟨.fragment, "é", ⟨1, 2, 1, 2⟩⟩,
         ⟨.lbrace, "\x7b", ⟨3, 1, 1, 3⟩⟩, ⟨.variable, "$a", ⟨4, 2, 1, 4⟩⟩,
         ⟨.variable, "$b", ⟨7, 2, 1, 7⟩⟩, ⟨.rbrace, "\x7d", ⟨9, 1, 1, 9⟩⟩,
         ⟨.quote, "\"", ⟨10, 1, 1, 10⟩⟩, ⟨.eof, "", ⟨11, 0, 1, 11⟩⟩] := rfl
    have hparse : Expr.parse 3 "\"é\x7b$a $b\x7d\""
        = .error ⟨.unexpectedToken "$b" "'\x7d'", ⟨7, 2, 1, 7⟩⟩ := by
      unfold Expr.parse
      rw [htokens]
      rfl
    obtain ⟨-, -, -, -, hslice, hlocate⟩ := (errors_point_into_source _ 3).1 _ hparse
    exact ⟨_, hparse, rfl, hslice, hlocate.symm⟩
  · have htokens : tokenize "!$b" = .ok
        [⟨.bang, "!", ⟨0, 1, 1, 1⟩⟩, ⟨.variable, "$b", ⟨1, 2, 1, 2⟩⟩, ⟨.eof, "", ⟨3, 0, 1, 4⟩⟩] := rfl
    have hparse : Expr.parse 3 "!$b" = .ok (.unary ⟨.bang, "!", ⟨0, 1, 1, 1⟩⟩
        (.variable ⟨.variable, "$b", ⟨1, 2, 1, 2⟩⟩)) := by
      unfold Expr.parse
      rw [htokens]
      rfl
    have hrun : ∀ host denied, ((Expr.unary ⟨.bang, "!", ⟨0, 1, 1, 1⟩⟩
        (.variable ⟨.variable, "$b", ⟨1, 2, 1, 2⟩⟩)).evaluate ⟨.ofList [], host, denied⟩ 3).runOn
          [] = (.error ⟨.undefinedVariable "$b", ⟨1, 2, 1, 2⟩⟩, []) := fun _ _ => rfl
    obtain ⟨ts, hts, hplace⟩ := (errors_point_into_source _ 3).2 _ hparse
    refine ⟨_, ts, hparse, hts, fun host denied => ?_⟩
    exact ⟨_, congrArg Prod.fst (hrun host denied), hplace _ 3 [] _ _ (hrun host denied)⟩

end GuardedExpr
