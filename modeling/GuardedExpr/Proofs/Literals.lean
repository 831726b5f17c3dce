/-
# Literals — texts of one token, and the values they denote

A source denotes a value when every engine whose limits leave enough levels compiles
it and every run of the code gives this value, in whatever context, with whatever
host, and without a call (`Denotes`).  It is a literal when it is also scanned to one
token (`IsLiteral`).

Strings have two ways to be quoted.  The scanner decides where a literal ends, by
passing over each backslash together with the character behind it; what it means is
decided afterwards, by reading escapes.  Both readers are followed along the list of
characters that was quoted: each of its characters is one step of either.

    'it\'s'      a backslash in front of each quote and each backslash
    "\$5 \"x\""  one in front of each quote, each backslash and each dollar sign
-/
import GuardedExpr.Proofs.Placement
import GuardedExpr.Proofs.PrintedValues

namespace GuardedExpr

open Text

/-! ## What a source denotes -/

/-- With at least `levels` levels to read and to evaluate in, the source compiles, and every run
gives the value without a call. -/
def Denotes (levels : Nat) (source : String) (v : Value) : Prop :=
  ∀ engine : Engine, levels ≤ engine.limits.parsing → levels ≤ engine.limits.evaluation →
    ∃ code, engine.compile source = .ok code ∧
      ∀ context host past, (engine.run code context host).run past = (.ok v, past)

/-- The source is one token of the kind, with the end of the input behind it, and denotes the
value. -/
structure IsLiteral (kind : TokenKind) (source : String) (v : Value) : Prop where
  token : tokenize source = .ok
    [⟨kind, source, .ofPosition .start source.utf8ByteSize⟩,
      ⟨.eof, "", .ofPosition (Position.start.after source.toList) 0⟩]
  value : Denotes 1 source v

/-- What parses to an expression of a value denotes it. -/
theorem IsExpression.denotes {levels : Nat} {cs : List Char} {v : Value}
    (h : IsExpression levels cs (Expr.Gives levels v)) : Denotes levels (String.ofList cs) v := by
  intro engine hparsing hevaluation
  obtain ⟨e, hparse, he⟩ := h.exists_parse engine.limits.parsing hparsing
  refine ⟨⟨String.ofList cs, e⟩, ?_, ?_⟩
  · rw [Engine.compile, hparse]
  · intro context host past
    have hrun := he ⟨context, host, engine.denied⟩ engine.limits.evaluation
      engine.limits.evaluation hevaluation
    unfold Engine.run Engine.evaluate Expr.evaluate
    rw [hrun]
    rfl

/-- A single token, scanned on its own. -/
theorem Scanner.IsLexeme.tokenize_eq {k : TokenKind} {text : List Char} (h : IsLexeme k text) :
    tokenize (String.ofList text) = .ok
      [⟨k, String.ofList text, .ofPosition .start (String.ofList text).utf8ByteSize⟩,
        ⟨.eof, "", .ofPosition (Position.start.after text) 0⟩] := by
  have hstep : step .code (text ++ []) = .ok ([.lexeme k text], .code) := h.2 .code [] setOff_nil
  have hscan := scanFrom_of_step hstep (List.append_nil _) h.1
  rw [List.append_nil] at hscan
  unfold tokenize Scanner.scan
  rw [String.toList_ofList, hscan, byteLength_ofList]
  rfl

/-- A token with a value of its own. -/
theorem isLiteral_of_spelt {k : TokenKind} {text : List Char} {v : Value}
    (h : Scanner.IsLexeme k text) (hspelt : Spelt text [(k, String.ofList text)])
    (hk : k ∈ [TokenKind.integer, .float, .string, .bool, .null])
    (hv : ∀ t : Token, t.kind = k → t.text = String.ofList text → Constant.ofToken t = .ok v) :
    IsLiteral k (String.ofList text) v where
  token := by
    rw [h.tokenize_eq, String.toList_ofList]
  value := (isExpression_literal hspelt hk hv).denotes

/-! ## Strings between double quotes -/

namespace Literal

/-- The character with the backslash it needs between double quotes. -/
def escapeChar (c : Char) : List Char :=
  if c = '\\' ∨ c = '"' ∨ c = '$' then ['\\', c] else [c]

/-- The text as a literal between double quotes. -/
def quoteDouble (s : String) : String :=
  String.ofList ('"' :: (s.toList.flatMap escapeChar ++ ['"']))

/-- Either the character is escaped, and then means itself, or it is an ordinary one. -/
theorem escapeChar_cases (c : Char) :
    (escapeChar c = ['\\', c] ∧ ∀ cs, readEscape (c :: cs) = .ok (some (c, 1))) ∨
      (escapeChar c = [c] ∧ c ≠ '\\' ∧ c ≠ '"' ∧ c ≠ '$') := by
  by_cases hc : c = '\\' ∨ c = '"' ∨ c = '$'
  · refine .inl ⟨if_pos hc, fun cs => ?_⟩
    rcases hc with rfl | rfl | rfl <;> rfl
  · refine .inr ⟨if_neg hc, ?_⟩
    rwa [not_or, not_or] at hc

/-- No escaped text starts with a dollar sign, so that a brace in front of it opens nothing. -/
theorem head?_escaped (cs rest : List Char) :
    (cs.flatMap escapeChar ++ '"' :: rest).head? ≠ some '$' := by
  cases cs with
  | nil => simp
  | cons c cs =>
      rw [List.flatMap_cons]
      rcases escapeChar_cases c with ⟨hc, -⟩ | ⟨hc, -, -, hdollar⟩
      · rw [hc]
        simp
      · rw [hc]
        simpa using hdollar

/-- Reading the escapes gives the text that was escaped, at whatever offset it stands. -/
theorem unquoteDouble_escaped (cs : List Char) (offset : Nat) :
    unquoteDouble offset 0 (cs.flatMap escapeChar) = .ok cs := by
  induction cs generalizing offset with
  | nil => rfl
  | cons c cs ih =>
      rw [List.flatMap_cons]
      rcases escapeChar_cases c with ⟨hc, hescape⟩ | ⟨hc, hslash, -, -⟩
      · rw [hc, List.cons_append, List.singleton_append, unquoteDouble, if_pos rfl, hescape]
        dsimp only
        rw [unquoteDouble, ih]
        rfl
      · rw [hc, List.singleton_append, unquoteDouble, if_neg hslash, ih]
        rfl

end Literal

namespace Scanner

/-- The scanner takes an escaped text whole, up to the quote behind it. -/
theorem literalRun_escaped (cs rest : List Char) :
    literalRun (cs.flatMap Literal.escapeChar ++ '"' :: rest)
      = cs.flatMap Literal.escapeChar := by
  induction cs with
  | nil => rfl
  | cons c cs ih =>
      rw [List.flatMap_cons]
      rcases Literal.escapeChar_cases c with ⟨hc, -⟩ | ⟨hc, hslash, hquote, hdollar⟩
      · rw [hc]
        exact congrArg ('\\' :: c :: ·) ih
      · rw [hc, List.singleton_append, List.cons_append]
        have hhole : startsHole (c :: (cs.flatMap Literal.escapeChar ++ '"' :: rest)) = false := by
          unfold startsHole
          split
          · next heq => exact absurd (List.cons.inj heq).1 hdollar
          · next heq =>
              obtain ⟨-, rfl⟩ := List.cons.inj heq
              exact beq_eq_false_iff_ne.mpr (Literal.head?_escaped cs rest)
          · rfl
        rw [literalRun_cons _ hslash, hhole, ih]
        simp [hquote]

theorem isLexeme_quoteDouble (s : String) : IsLexeme .string (Literal.quoteDouble s).toList := by
  rw [Literal.quoteDouble, String.toList_ofList]
  refine isLexeme_doubleQuoted ⟨s.toList.flatMap Literal.escapeChar ++ ['"'], ?_, ?_⟩
  · simp
  · exact literalRun_escaped s.toList []

end Scanner

section BetweenQuotes

variable {quote : Char} {body : List Char}

theorem betweenQuotes?_of_getLast (h : body.getLast? = some quote) :
    Constant.betweenQuotes? quote (quote :: body) = some (String.ofList body.dropLast) :=
  if_pos ⟨rfl, h⟩

theorem betweenQuotes?_of_ne {c : Char} (h : c ≠ quote) :
    Constant.betweenQuotes? quote (c :: body) = none :=
  if_neg fun hquotes => h hquotes.1

end BetweenQuotes

/-- An escaped text read as a literal gives the text. -/
theorem ofQuoted_quoteDouble (s : String) :
    Constant.ofQuoted (Literal.quoteDouble s) = .ok (.str s) := by
  have hinner : (s.toList.flatMap Literal.escapeChar ++ ['"']).getLast? = some '"' := by simp
  unfold Constant.ofQuoted
  rw [Literal.quoteDouble, String.toList_ofList, betweenQuotes?_of_ne (by decide),
    betweenQuotes?_of_getLast hinner, List.dropLast_concat]
  dsimp only
  unfold Constant.ofEscaped Literal.unescapeDouble
  rw [String.toList_ofList, Literal.unquoteDouble_escaped]
  simp [Except.map]

theorem isLiteral_quoteSingle (s : String) : IsLiteral .string (Literal.quoteSingle s) (.str s) := by
  have h := isLiteral_of_spelt (Scanner.isLexeme_of_readAs (readAs_quoteSingle s))
    (spelt_quoteSingle s) (v := .str s) (by simp) ?_
  · rwa [String.ofList_toList] at h
  · intro t hkind htext
    rw [String.ofList_toList] at htext
    rw [Constant.ofToken, hkind, htext]
    exact ofQuoted_quoteSingle s

theorem isLiteral_quoteDouble (s : String) : IsLiteral .string (Literal.quoteDouble s) (.str s) := by
  have hlexeme := Scanner.isLexeme_quoteDouble s
  have hspelt : Spelt (Literal.quoteDouble s).toList
      [(.string, String.ofList (Literal.quoteDouble s).toList)] := by
    rw [Literal.quoteDouble, String.toList_ofList] at hlexeme ⊢
    exact hlexeme.spelt (by decide) (by decide)
  have h := isLiteral_of_spelt hlexeme hspelt (v := .str s) (by simp) ?_
  · rwa [String.ofList_toList] at h
  · intro t hkind htext
    rw [String.ofList_toList] at htext
    rw [Constant.ofToken, hkind, htext]
    exact ofQuoted_quoteDouble s

/-- **Every string has a literal in either quoting.**  Both texts are one token, with the end of the
input behind it, and denote the string they were made from. -/
theorem every_string_has_both_literals (s : String) :
    IsLiteral .string (Literal.quoteSingle s) (.str s) ∧
      IsLiteral .string (Literal.quoteDouble s) (.str s) :=
  ⟨isLiteral_quoteSingle s, isLiteral_quoteDouble s⟩

/-- A brace in front of a dollar sign, and a backslash at the end. -/
example : Literal.quoteDouble "\x7b$a\x7d\\" = "\"\x7b\\$a\x7d\\\\\"" := by decide

end GuardedExpr
