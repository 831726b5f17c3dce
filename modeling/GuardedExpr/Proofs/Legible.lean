/-
# Legible expressions — trees of lexed tokens

Every token that the parser leaves in a tree has been lexed, and it stands where the
grammar wants its kind; so its text is known up to the case of words.  `Legible` says
this of all nodes of an expression.  In a string with embedded expressions it also
says that runs of text do not touch, and that every hole starts with a variable.
-/
import GuardedExpr.Proofs.Lexed
import GuardedExpr.Proofs.ReadingBack

namespace GuardedExpr

open Text Lexeme

/-! ## The words of tokens -/

theorem Lexeme.number_kind {cs text : List Char} {k : TokenKind}
    (h : number cs = .ok (.lexeme k text)) : k = .integer ∨ k = .float := by
  unfold number at h
  split at h
  · unfold radixNumber at h
    dsimp only at h
    split at h
    · cases h
      exact .inl rfl
    · cases h
  · unfold decimalNumber at h
    dsimp only at h
    split at h
    · obtain ⟨hkind, -⟩ := Piece.lexeme.inj (Except.ok.inj h)
      rw [← hkind]
      split
      · exact .inr rfl
      · exact .inl rfl
    · cases h

theorem Lexeme.wordText_of_isNameChar {cs : List Char} (h : ∀ c ∈ cs, isNameChar c = true) :
    wordText cs = cs := by
  induction cs with
  | nil => rfl
  | cons c cs ih =>
      rw [List.forall_mem_cons] at h
      rw [wordText, h.1, Bool.true_or, if_pos rfl, ih h.2]

/-- The kind of an operand is told by its text where it is a word. -/
theorem Lexeme.ReadAs.kind_cases {cs text : List Char} {k : TokenKind}
    (h : ReadAs cs (.lexeme k text)) : k ∈ [TokenKind.variable, .integer, .float, .string] ∨
      k = (keyword? (String.ofList text)).getD .identifier := by
  generalize hp : Piece.lexeme k text = p at h
  cases h with
  | sigil =>
      obtain ⟨rfl, -⟩ := Piece.lexeme.inj hp
      exact .inl (by simp)
  | numeral _ hnumber =>
      rw [← hp] at hnumber
      rcases number_kind hnumber with rfl | rfl
      · exact .inl (by simp)
      · exact .inl (by simp)
  | quoted hsingle =>
      unfold singleQuotedString at hsingle
      split at hsingle
      · obtain ⟨rfl, -⟩ := Piece.lexeme.inj (hp.trans (Except.ok.inj hsingle).symm)
        exact .inl (by simp)
      · cases hsingle
  | named =>
      rw [word, Piece.lexeme.injEq] at hp
      rw [hp.1, hp.2]
      exact .inr rfl

namespace Token

variable {t : Token}

theorem IsOperand.kind_cases (h : t.IsOperand) :
    t.kind ∈ [TokenKind.variable, .integer, .float, .string] ∨
      t.kind = (keyword? t.text).getD .identifier := by
  obtain ⟨cs, hread⟩ := h
  have hkind := hread.kind_cases
  rwa [String.ofList_toList] at hkind

/-- A name is read as a word of code. -/
theorem IsName.isOperand (h : t.IsName) :
    IsOperand ⟨(keyword? t.text).getD .identifier, t.text, t.location⟩ := by
  have hpiece : Lexeme.word t.text.toList
      = .lexeme ((keyword? t.text).getD .identifier) t.text.toList := by
    unfold Lexeme.word
    rw [wordText_of_isNameChar h.2]
    dsimp only
    rw [String.ofList_toList]
  refine ⟨t.text.toList, ?_⟩
  show ReadAs t.text.toList (.lexeme ((keyword? t.text).getD .identifier) t.text.toList)
  rw [← hpiece]
  have hstart := h.1
  cases hcs : t.text.toList with
  | nil =>
      rw [hcs] at hstart
      cases hstart
  | cons c cs =>
      rw [hcs] at hstart
      have hc : isNameStart c = true := by simpa [startsName] using hstart
      exact .named (by rw [hc, Bool.true_or])

/-- A variable is a sigil and a name. -/
theorem IsVariable.exists_cons (h : t.IsVariable) :
    ∃ cs, t.text.toList = '$' :: cs ∧ startsName cs = true := by
  obtain ⟨hkind, cs, hread⟩ := h
  rw [hkind] at hread
  generalize hp : Piece.lexeme .variable t.text.toList = p at hread
  cases hread with
  | @sigil cs hname =>
      obtain ⟨-, htext⟩ := Piece.lexeme.inj hp
      refine ⟨cs.takeWhile isNameChar, htext, ?_⟩
      cases cs with
      | nil => cases hname
      | cons c cs =>
          have hc : isNameStart c = true := by simpa [startsName] using hname
          simp [startsName, isNameChar, hc]
  | numeral _ hnumber =>
      rw [← hp] at hnumber
      rcases number_kind hnumber with hk | hk <;> cases hk
  | quoted hsingle =>
      rw [← hp] at hsingle
      unfold singleQuotedString at hsingle
      split at hsingle <;> cases hsingle
  | @named c cs =>
      obtain ⟨hk, -⟩ := Piece.lexeme.inj hp
      have hisWord := isWord_word (String.ofList (wordText (c :: cs)))
      rw [← hk] at hisWord
      cases hisWord

theorem IsOperand.isWord (h : t.IsOperand)
    (hk : t.kind ∉ [TokenKind.variable, .integer, .float, .string]) : t.kind.isWord = true := by
  rcases h.kind_cases with hmem | heq
  · exact absurd hmem hk
  · rw [heq, isWord_word]

/-- A token of code that is no operand, string or cast is an operator. -/
theorem InCode.mem_operators (h : t.InCode) (hword : t.kind.isWord = false)
    (hk : t.kind ∉ [TokenKind.variable, .integer, .float, .string, .cast]) :
    (t.text, t.kind) ∈ operators := by
  cases h with
  | operand h =>
      have hnot : t.kind ∉ [TokenKind.variable, .integer, .float, .string] := fun hmem =>
        hk (by simp_all)
      exact absurd (h.isWord hnot) (by simp [hword])
  | string h => exact absurd (by simp [h.1]) hk
  | operator h => exact h
  | cast h => exact absurd (by simp [h]) hk

/-- The word of a token whose kind has one spelling. -/
theorem InCode.word_eq (h : t.InCode) {k : TokenKind} {s : String} (ht : t.kind = k)
    (hk : k.isWord = false ∧ k ∉ [TokenKind.variable, .integer, .float, .string, .cast] ∧
      ∀ o ∈ operators, o.2 = k → o.1 = s) : t.word = (k, s) := by
  subst ht
  have hmem := h.mem_operators hk.1 hk.2.1
  exact Prod.ext rfl (hk.2.2 _ hmem rfl)

theorem InCode.operand_or_string (h : t.InCode)
    (hk : (t.kind.isWord || [TokenKind.variable, .integer, .float, .string].contains t.kind) = true) :
    t.IsOperand ∨ t.IsClosedString := by
  cases h with
  | operand h => exact .inl h
  | string h => exact .inr h
  | operator h =>
      have hnone : ∀ o ∈ operators, (o.2.isWord ||
        [TokenKind.variable, .integer, .float, .string].contains o.2) = false := by decide
      exact absurd hk (Bool.eq_false_iff.mp (hnone _ h))
  | cast h =>
      rw [h] at hk
      exact absurd hk (by decide)

theorem InCode.isOperand (h : t.InCode)
    (hk : (t.kind.isWord || [TokenKind.variable, .integer, .float].contains t.kind) = true) :
    t.IsOperand := by
  refine (h.operand_or_string ?_).resolve_right fun hstring => ?_
  · rw [Bool.or_eq_true] at hk ⊢
    refine hk.imp_right fun hmem => ?_
    simp only [List.contains_iff_mem] at hmem ⊢
    exact List.mem_append_left [TokenKind.string] hmem
  · rw [hstring.1] at hk
    exact absurd hk (by decide)

theorem InCode.isPlain (h : t.InCode) : t.kind.isPlain = true := by
  cases h with
  | operand h =>
      obtain ⟨cs, hread⟩ := h
      obtain ⟨c, cs, rfl⟩ : ∃ c ds, cs = c :: ds := by
        generalize hp : Piece.lexeme t.kind t.text.toList = p at hread
        cases hread <;> exact ⟨_, _, rfl⟩
      cases hread.front with
      | lexeme hplain => exact hplain
  | string h =>
      rw [h.1]
      rfl
  | operator h => exact (operators_isPlain _ h).2
  | cast h =>
      rw [h]
      rfl

/-- The kind of a token and its text in lower case. -/
def folded (t : Token) : Word := (t.kind, lower t.text)

end Token

/-- The binary operators as they are written, words in lower case. -/
def binaryWords : List Word :=
  [(.starStar, "**"), (.star, "*"), (.slash, "/"), (.percent, "%"), (.plus, "+"), (.minus, "-"),
   (.dot, "."), (.less, "<"), (.lessEqual, "<="), (.greater, ">"), (.greaterEqual, ">="),
   (.equal, "=="), (.notEqual, "!="), (.notEqual, "<>"), (.identical, "==="),
   (.notIdentical, "!=="), (.spaceship, "<=>"), (.andAnd, "&&"), (.orOr, "||"),
   (.coalesce, "??"), (.and, "and"), (.xor, "xor"), (.or, "or")]

theorem Lexeme.lower_of_keyword {text : String} {k : TokenKind} {s : String}
    (h : keyword? text = some k) (hk : (k, s) ∈ [(TokenKind.and, "and"), (.xor, "xor"),
      (.or, "or"), (.instanceOf, "instanceof")]) : lower text = s := by
  unfold keyword? at h
  split at h <;> cases h <;> simp_all

/-- The operators that are words. -/
theorem Token.InCode.lower_eq {t : Token} (h : t.InCode) {s : String}
    (hk : (t.kind, s) ∈ [(TokenKind.and, "and"), (.xor, "xor"), (.or, "or"),
      (.instanceOf, "instanceof")]) : lower t.text = s := by
  have hword : ∀ w ∈ [(TokenKind.and, "and"), (.xor, "xor"), (.or, "or"),
      (.instanceOf, "instanceof")], w.1.isWord = true ∧ w.1 ≠ .identifier ∧
      w.1 ∉ [TokenKind.variable, .integer, .float, .string] := by decide
  obtain ⟨hisWord, hname, hplain⟩ := hword _ hk
  have hoperand := h.isOperand (by simp [show t.kind.isWord = true from hisWord])
  rcases hoperand.kind_cases with hmem | heq
  · exact absurd hmem hplain
  · cases hkey : keyword? t.text with
    | none =>
        rw [hkey] at heq
        exact absurd heq hname
    | some k =>
        rw [hkey] at heq
        obtain rfl : t.kind = k := heq
        exact lower_of_keyword hkey hk

theorem Token.InCode.folded_mem {t : Token} (h : t.InCode) (hk : 0 < t.kind.tightness) :
    t.folded ∈ binaryWords := by
  have hsplit : ∀ k ∈ TokenKind.all, 0 < k.tightness →
      k ∈ [TokenKind.and, .xor, .or] ∨ (k.isWord = false ∧
        k ∉ [TokenKind.variable, .integer, .float, .string, .cast]) := by decide
  have hwords : ∀ o ∈ operators, 0 < o.2.tightness → (o.2, lower o.1) ∈ binaryWords := by decide
  rcases hsplit _ t.kind.mem_all hk with hword | ⟨hword, hplain⟩
  · simp only [List.mem_cons, List.not_mem_nil, or_false] at hword
    unfold folded
    rcases hword with hkind | hkind | hkind
    · rw [h.lower_eq (s := "and") (by simp [hkind]), hkind]
      decide
    · rw [h.lower_eq (s := "xor") (by simp [hkind]), hkind]
      decide
    · rw [h.lower_eq (s := "or") (by simp [hkind]), hkind]
      decide
  · exact hwords _ (h.mem_operators hword hplain) hk

/-! ## Expressions -/

namespace Element

/-- The expressions of an element. -/
def exprs : Element → List Expr
  | item value => [value]
  | pair key value => [key, value]

end Element

namespace Expr

/-- The leftmost operand is a variable. -/
def isLed : Expr → Bool
  | .variable _ => true
  | .binary left _ _ => left.isLed
  | .ternary condition _ _ _ => condition.isLed
  | .assign target _ _ | .access target _ _ | .property target _ _ _
  | .methodCall target _ _ _ _ => target.isLed
  | .instanceOf value _ _ => value.isLed
  | .call callee _ _ => callee.isLed
  | _ => false

/-- The offset of an embedded variable. -/
inductive IsEmbeddedOffset : Expr → Prop
  | digits {t : Token} : t.IsDigits → IsEmbeddedOffset (.literal t)
  | negative {minus t : Token} : minus.word = (.minus, "-") → t.IsDigits →
      IsEmbeddedOffset (.unary minus (.literal t))
  | sigil {t : Token} : t.IsVariable → IsEmbeddedOffset (.variable t)
  | word {t : Token} : t.kind = .fragment → t.IsName → IsEmbeddedOffset (.literal t)

/-- A variable that is embedded without braces. -/
inductive IsEmbedded : Expr → Prop
  | alone {v : Token} : v.IsVariable → IsEmbedded (.variable v)
  | access {v bracket : Token} {o : Expr} : v.IsVariable → bracket.word = (.lbracket, "[") →
      IsEmbeddedOffset o → IsEmbedded (.access (.variable v) bracket o)
  | property {v arrow name : Token} : v.IsVariable → arrow.word = (.arrow, "->") →
      name.kind = .identifier → name.IsName →
      IsEmbedded (.property (.variable v) arrow false (.literal name))

/-- The part of a string is an expression, and not a run of text. -/
def IsHole (e : Expr) : Prop := e.fragment? = none

/-- The operator in front of a member name. -/
def memberWord (isStatic : Bool) : Word :=
  if isStatic then (.doubleColon, "::") else (.arrow, "->")

/-- An expression as the parser builds it. -/
inductive Legible : Expr → Prop
  | literal {t : Token} : t.kind ≠ .variable → t.IsOperand ∨ t.IsClosedString →
      Legible (.literal t)
  | variable {t : Token} : t.IsVariable → Legible (.variable t)
  | unary {op : Token} {e : Expr} : op.word ∈ [(.minus, "-"), (.plus, "+"), (.bang, "!")] →
      Legible e → Legible (.unary op e)
  | cast {op : Token} {e : Expr} (type : CastType) : op.kind = .cast → Legible e →
      Legible (.cast op type e)
  | binary {op : Token} {l r : Expr} : op.folded ∈ binaryWords → Legible l → Legible r →
      Legible (.binary l op r)
  | ternary {question : Token} {c yes no : Expr} : question.word = (.question, "?") →
      Legible c → Legible yes → Legible no → Legible (.ternary c question yes no)
  | assign {op : Token} {target value : Expr} : op.word = (.assign, "=") → Legible target →
      Legible value → Legible (.assign target op value)
  | instanceOf {op : Token} {value cls : Expr} : op.folded = (.instanceOf, "instanceof") →
      Legible value → Legible cls → Legible (.instanceOf value op cls)
  | access {bracket : Token} {target offset : Expr} : bracket.word = (.lbracket, "[") →
      Legible target → Legible offset → Legible (.access target bracket offset)
  | array {elements : List Element} (opening : Token) :
      (∀ x ∈ elements, ∀ e ∈ x.exprs, Legible e) → Legible (.array opening elements)
  | property {op : Token} {target name : Expr} {isStatic : Bool} :
      op.word = memberWord isStatic → Legible target → Legible name →
      Legible (.property target op isStatic name)
  | methodCall {op : Token} {target name : Expr} {isStatic : Bool} {args : List Argument} :
      op.word = memberWord isStatic → Legible target → Legible name →
      (∀ a ∈ args, Legible a.value) → Legible (.methodCall target op isStatic name args)
  | call {paren : Token} {callee : Expr} {args : List Argument} : paren.word = (.lparen, "(") →
      Legible callee → (∀ a ∈ args, Legible a.value) → Legible (.call callee paren args)
  | interpolation {opening : Token} {parts : List Expr} : opening.IsQuote →
      (∀ part ∈ parts, ∀ t ∈ part.fragment?, t.IsRun) →
      (∀ part ∈ parts, part.IsHole → part.isLed = true) →
      (∀ part ∈ parts, part.IsHole → ¬ part.IsEmbedded → Legible part) →
      parts.IsChain (fun a b => a.IsHole ∨ b.IsHole) → (∃ part ∈ parts, part.IsHole) →
      Legible (.interpolation opening parts)

/-- What an expression parser gives: something legible that is led by a variable if `lead` is. -/
structure Good (lead : Prop) (e : Expr) : Prop where
  legible : e.Legible
  led : lead → e.isLed = true

theorem Good.of_false {lead : Prop} {e : Expr} (h : e.Legible) (hlead : ¬ lead) : Good lead e :=
  ⟨h, fun hl => absurd hl hlead⟩

theorem IsHole.of_isLed {e : Expr} (h : e.isLed = true) : e.IsHole := by
  cases e with
  | literal t => cases h
  | _ => rfl

theorem IsEmbedded.isLed {e : Expr} (h : e.IsEmbedded) : e.isLed = true := by
  cases h <;> rfl

end Expr

/-! ## Lexed tokens in code -/

section Lexed

variable {fs : List Frame} {t : Token} {ts : List Token}

theorem Lexed.ne_nil (h : Lexed fs ts) : ts ≠ [] := by
  cases h <;> exact List.cons_ne_nil _ _

theorem Lexed.inCode (hcode : fs.head? ≠ some .text) (h : Lexed fs (t :: ts))
    (ht : t.kind.isPlain = true) : t.InCode := by
  cases h with
  | eof _ heof =>
      rw [heof] at ht
      cases ht
  | code _ h => exact h
  | brace _ hbrace =>
      simp only [List.mem_cons, List.not_mem_nil, or_false] at hbrace
      rcases hbrace with hkind | hkind <;>
      · rw [hkind] at ht
        cases ht
  | opening _ hquote =>
      rw [hquote.1] at ht
      cases ht
  | closing | run | hole | embedded => exact absurd rfl hcode

theorem Lexed.behind (hcode : fs.head? ≠ some .text) (h : Lexed fs (t :: ts))
    (ht : t.kind ≠ .eof) : Lexed (t.kind.framesAfter fs) ts := by
  cases h with
  | eof _ heof => exact absurd heof ht
  | code _ h hts => rwa [TokenKind.framesAfter_of_isPlain h.isPlain]
  | brace _ _ hts => exact hts
  | opening _ hquote _ hts =>
      rwa [hquote.1, TokenKind.framesAfter_quote hcode]
  | closing | run | hole | embedded => exact absurd rfl hcode

theorem Lexed.behind_opening (hcode : fs.head? ≠ some .text) (h : Lexed fs (t :: ts))
    (ht : t.kind = .quote) : t.IsQuote ∧ HoleAhead ts ∧ Lexed (.text :: fs) ts := by
  cases h with
  | opening _ hquote hahead hts => exact ⟨hquote, hahead, hts⟩
  | eof _ heof =>
      rw [heof] at ht
      cases ht
  | code _ h =>
      have hplain := h.isPlain
      rw [ht] at hplain
      cases hplain
  | brace _ hbrace =>
      rw [ht] at hbrace
      simp at hbrace
  | closing | run | hole | embedded => exact absurd rfl hcode

theorem Embedded.variable {us : List Token} (h : Embedded (t :: us)) : t.kind = .variable := by
  cases h with
  | alone hv | offset hv | negative hv | property hv => exact hv.1

theorem Lexed.behind_closing (h : Lexed (.text :: fs) (t :: ts)) (ht : t.kind = .quote) :
    Lexed fs ts := by
  cases h with
  | closing _ hts => exact hts
  | eof htext | code htext | brace htext | opening htext => exact absurd rfl htext
  | run hrun =>
      rw [hrun.1] at ht
      cases ht
  | hole hbrace =>
      rw [hbrace] at ht
      cases ht
  | embedded hus =>
      rw [hus.variable] at ht
      cases ht

end Lexed

end GuardedExpr
