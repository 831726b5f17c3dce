/-
# Rendering — operator trees read back

`Expr.shape` keeps of a tree what the rendering is meant to show: all of it but the
places of tokens, the case of word operators, the spelling of casts and the form of
arrays.  A tree of operators over plain operands is rendered to a text that parses to
the same shape, once nesting is limited generously (`operator_tree_reads_back`).

Every operator is put between parentheses and blanks, so the text of a tree is put
together as in `Spelling`; an operand is spelt as it was when the tree was read, which
is why only trees that the parser has built are considered (`Legible`).
-/
import Mathlib
import GuardedExpr.Proofs.Building
import GuardedExpr.Proofs.Spelling

namespace GuardedExpr

open Text Lexeme

/-! ## Shapes -/

namespace Token

/-- The token with no place. -/
def unplaced (t : Token) : Token := ⟨t.kind, t.text, default⟩

/-- The token of a word operator, its case and its place left out. -/
def lowered (t : Token) : Token := ⟨t.kind, lower t.text, default⟩

/-- The token of a cast, its spelling and its place left out. -/
def unspelt (t : Token) : Token := ⟨t.kind, "", default⟩

theorem unplaced_eq_of_word {t u : Token} (h : t.word = u.word) : t.unplaced = u.unplaced := by
  obtain ⟨hkind, htext⟩ := Prod.mk.inj h
  unfold unplaced
  rw [hkind, htext]

end Token

mutual

/-- The tree without the places of its tokens, the case of word operators, the spelling of casts
and the form of arrays. -/
def Expr.shape : Expr → Expr
  | .literal t => .literal t.unplaced
  | .variable t => .variable t.unplaced
  | .unary op operand => .unary op.unplaced operand.shape
  | .cast op type operand => .cast op.unspelt type operand.shape
  | .binary left op right => .binary left.shape op.lowered right.shape
  | .ternary condition question yes no =>
    .ternary condition.shape question.unplaced yes.shape no.shape
  | .assign target op value => .assign target.shape op.unplaced value.shape
  | .instanceOf value op cls => .instanceOf value.shape op.lowered cls.shape
  | .access target bracket offset => .access target.shape bracket.unplaced offset.shape
  | .array _ elements => .array ⟨.lbracket, "[", default⟩ (shapeElements elements)
  | .property target op isStatic name => .property target.shape op.unplaced isStatic name.shape
  | .methodCall target op isStatic name args =>
    .methodCall target.shape op.unplaced isStatic name.shape (shapeArguments args)
  | .call callee paren args => .call callee.shape paren.unplaced (shapeArguments args)
  | .interpolation opening parts => .interpolation opening.unplaced (shapeParts parts)

def Element.shape : Element → Element
  | .item value => .item value.shape
  | .pair key value => .pair key.shape value.shape

def shapeElements : List Element → List Element
  | [] => []
  | element :: rest => element.shape :: shapeElements rest

def shapeArguments : List Argument → List Argument
  | [] => []
  | .mk byRef value :: rest => .mk byRef value.shape :: shapeArguments rest

def shapeParts : List Expr → List Expr
  | [] => []
  | part :: rest => part.shape :: shapeParts rest

end

/-- The text of an element. -/
def Element.render : Element → String
  | item value => value.render
  | pair key value => key.render ++ " => " ++ value.render

-- The text and the shape of a node are put together from those of its parts.
attribute [local simp] Expr.render Element.render Expr.shape Element.shape

theorem shapeElements_eq (elements : List Element) :
    shapeElements elements = elements.map Element.shape := by
  induction elements with
  | nil => rfl
  | cons element rest ih => rw [shapeElements, ih, List.map_cons]

theorem Expr.renderElements_eq (elements : List Element) :
    Expr.renderElements elements = elements.map Element.render := by
  induction elements with
  | nil => rfl
  | cons element rest ih => cases element <;> simp [Expr.renderElements, ih]

/-- A tree of operators over numbers, strings that embed nothing, booleans, null and variables. -/
inductive Expr.IsOperatorTree : Expr → Prop
  | literal {t : Token} : t.kind ∈ [TokenKind.integer, .float, .string, .bool, .null] →
      IsOperatorTree (.literal t)
  | variable (t : Token) : IsOperatorTree (.variable t)
  | unary {e : Expr} (op : Token) : IsOperatorTree e → IsOperatorTree (.unary op e)
  | cast {e : Expr} (op : Token) (type : CastType) : IsOperatorTree e →
      IsOperatorTree (.cast op type e)
  | binary {l r : Expr} (op : Token) : IsOperatorTree l → IsOperatorTree r →
      IsOperatorTree (.binary l op r)
  | ternary {c yes no : Expr} (question : Token) : IsOperatorTree c → IsOperatorTree yes →
      IsOperatorTree no → IsOperatorTree (.ternary c question yes no)
  | assign {target value : Expr} (op : Token) : IsOperatorTree target → IsOperatorTree value →
      IsOperatorTree (.assign target op value)
  | access {target offset : Expr} (bracket : Token) : IsOperatorTree target →
      IsOperatorTree offset → IsOperatorTree (.access target bracket offset)
  | array {elements : List Element} (opening : Token) :
      (∀ x ∈ elements, ∀ e ∈ x.exprs, IsOperatorTree e) → IsOperatorTree (.array opening elements)

/-! ## Operands -/

section Operands

variable {t : Token}

theorem Token.IsClosedString.spelt (h : t.IsClosedString) :
    Spelt t.text.toList [(t.kind, t.text)] := by
  obtain ⟨hkind, run, hrun, htext⟩ := h
  have hspelt := (Scanner.isLexeme_doubleQuoted hrun).spelt (by decide) (by decide)
  rwa [← htext, String.ofList_toList, ← hkind] at hspelt

theorem Token.IsOperand.spelt (h : t.IsOperand) (hk : t.kind.isWord = false) :
    Spelt t.text.toList [(t.kind, t.text)] := by
  obtain ⟨cs, hread⟩ := h
  have hspelt := hread.spelt hk
  rwa [String.ofList_toList] at hspelt

/-- Only a letter has a letter for its lower case. -/
theorem isAlpha_of_toLower {c : Char} (h : c.toLower.isAlpha = true) : c.isAlpha = true := by
  unfold Char.toLower at h
  split at h
  · next hupper =>
      have hupper : c.isUpper = true := by simpa [Char.isUpper] using hupper
      rw [Char.isAlpha, hupper, Bool.true_or]
  · exact h

theorem Lexeme.lower_of_constant {text : String} {k : TokenKind} (h : keyword? text = some k)
    (hk : k ∈ [TokenKind.bool, .null]) : lower text ∈ ["true", "false", "null"] := by
  unfold keyword? at h
  split at h <;> cases h <;> simp_all

/-- Booleans and null are words of letters, and none of them is a type. -/
theorem Token.IsOperand.spelt_constant (h : t.IsOperand) (hk : t.kind ∈ [TokenKind.bool, .null]) :
    Spelt t.text.toList [(t.kind, t.text)] := by
  have hkeyword : keyword? t.text = some t.kind := by
    rcases h.kind_cases with hmem | heq
    · simp only [List.mem_cons, List.not_mem_nil, or_false] at hk hmem
      rcases hk with hk | hk <;> simp [hk] at hmem
    · cases hword : keyword? t.text with
      | some k => rw [heq, hword]; rfl
      | none =>
          rw [heq, hword] at hk
          exact absurd hk (by decide)
  have hlower := lower_of_constant hkeyword hk
  have htype : CastType.ofWord? (String.ofList t.text.toList) = none := by
    rw [String.ofList_toList]
    unfold CastType.ofWord?
    simp only [List.mem_cons, List.not_mem_nil, or_false] at hlower
    rcases hlower with hlower | hlower | hlower <;>
    · rw [hlower]
      rfl
  have hletters : ∀ c ∈ t.text.toList, c.isAlpha = true := by
    intro c hc
    have hmem : c.toLower ∈ (lower t.text).toList := by
      rw [lower, String.toList_ofList]
      exact List.mem_map_of_mem hc
    have hall : ∀ s ∈ ["true", "false", "null"], s.toList.all Char.isAlpha = true := by decide
    exact isAlpha_of_toLower (List.all_eq_true.mp (hall _ hlower) _ hmem)
  obtain ⟨cs, hread⟩ := h
  have hspelt := (Scanner.isLexeme_of_readAs hread).spelt_word hletters htype
  rwa [String.ofList_toList] at hspelt

end Operands

/-! ## Texts of trees -/

/-- Characters that no operand starts with and no cast either. -/
theorem Lexeme.read_operator {c : Char} {cs : List Char}
    (hc : (isNameStart c || c.isDigit || ['$', '\'', '\\', '('].contains c) = false)
    (hdigit : startsDigit cs = false) : Lexeme.read (c :: cs) = operator (c :: cs) := by
  simp only [List.contains_cons, List.contains_nil, Bool.or_false, Bool.or_eq_false_iff] at hc
  obtain ⟨⟨hname, hnum⟩, hsigil, hquote, hslash, hparen⟩ := hc
  simp [Lexeme.read, hname, hnum, hsigil, hquote, hslash, hparen, hdigit]

/-- An operator of the table in front of a blank. -/
theorem isSymbol_operator : ∀ o ∈ operators, 0 < o.2.tightness →
    IsSymbol o.1.toList (o.2, o.1) := by
  intro o ho hk
  have hfront : ∀ o ∈ operators, 0 < o.2.tightness → o.1.toList.head?.any (fun c =>
      !(isNameStart c || c.isDigit || ['$', '\'', '\\', '('].contains c || isTokenBlank c ||
        ['\x7b', '\x7d', '"'].contains c)) = true ∧ startsDigit o.1.toList.tail = false := by decide
  have hfound : ∀ o ∈ operators, (operators.find? fun p => p.1.toList.isPrefixOf o.1.toList)
      = some o := by decide
  obtain ⟨spelling, k⟩ := o
  obtain ⟨hhead, hdigit⟩ := hfront _ ho hk
  have hfind := find?_operators_append spelling.toList (z := ' ')
  obtain ⟨c, cs, hcs⟩ : ∃ c cs, spelling.toList = c :: cs := by
    cases hs : spelling.toList with
    | nil => simp [hs] at hhead
    | cons c cs => exact ⟨c, cs, rfl⟩
  simp only [hcs, List.head?_cons, Option.any_some, Bool.not_eq_true', Bool.or_eq_false_iff,
    List.tail_cons] at hhead hdigit
  obtain ⟨⟨hplain, hblank⟩, hbrace⟩ := hhead
  constructor
  · intro rest d hd
    rw [hcs] at hd
    cases hd
    exact hblank
  · intro rest
    have hread : Lexeme.read (c :: (cs ++ ' ' :: rest)) = .ok (.lexeme k spelling.toList) := by
      rw [read_operator (by simpa using hplain) (by cases cs <;> simp_all [startsDigit]),
        ← List.cons_append, ← hcs]
      unfold operator
      rw [hfind rest (by decide), hfound _ ho]
    have hstep : Scanner.codeStep .code (spelling.toList ++ ' ' :: rest)
        = .ok ([.lexeme k spelling.toList], .code) := by
      rw [hcs, List.cons_append, Scanner.codeStep_of_read hblank (by simpa using hbrace), hread, hcs]
      rfl
    have hscans := Scanner.scans_of_codeStep (by simp [hcs]) hstep
    rwa [String.ofList_toList] at hscans

theorem isSymbol_word : ∀ w ∈ [(TokenKind.and, "and"), (.xor, "xor"), (.or, "or")],
    IsSymbol w.2.toList w := by
  have hword : ∀ {k : TokenKind} {s : String}, ReadAs s.toList (.lexeme k s.toList) →
      s.toList.head?.any (!isTokenBlank ·) = true → IsSymbol s.toList (k, s) := by
    intro k s hread hblank
    refine ⟨fun rest c hc => ?_, fun rest => ?_⟩
    · cases hs : s.toList with
      | nil => simp [hs] at hblank
      | cons d ds =>
          rw [hs] at hc hblank
          cases hc
          simpa using hblank
    · have hscans := (Scanner.isLexeme_of_readAs hread).scans (setOff_space rest)
      rwa [String.ofList_toList] at hscans
  simp only [List.forall_mem_cons]
  exact ⟨hword (.named rfl) rfl, hword (.named rfl) rfl, hword (.named rfl) rfl, by simp⟩

/-- The binary operators are scanned as they are written, between blanks. -/
theorem isSymbol_binary {w : Word} (hw : w ∈ binaryWords) : IsSymbol w.2.toList w := by
  have hsplit : ∀ w ∈ binaryWords, (w.2, w.1) ∈ operators ∧ 0 < w.1.tightness ∨
      w ∈ [(TokenKind.and, "and"), (.xor, "xor"), (.or, "or")] := by decide
  rcases hsplit w hw with ⟨hmem, hk⟩ | hword
  · exact isSymbol_operator _ hmem hk
  · exact isSymbol_word w hword

/-! ## Texts of nodes -/

/-- A sign is one character. -/
theorem Token.exists_sign {op : Token}
    (h : op.word ∈ [(TokenKind.minus, "-"), (.plus, "+"), (.bang, "!")]) :
    ∃ c, (c, op.kind) ∈ [('-', TokenKind.minus), ('+', .plus), ('!', .bang)] ∧
      op.text = String.ofList [c] := by
  simp only [Token.word, List.mem_cons, Prod.mk.injEq, List.not_mem_nil, or_false] at h
  rcases h with ⟨hk, ht⟩ | ⟨hk, ht⟩ | ⟨hk, ht⟩
  · exact ⟨'-', by simp [hk], ht⟩
  · exact ⟨'+', by simp [hk], ht⟩
  · exact ⟨'!', by simp [hk], ht⟩

namespace Expr

variable {op : Token} {e c yes no : Expr}

theorem toList_render_unary {sign : Char} (h : op.text = String.ofList [sign]) :
    (Expr.unary op e).render.toList = '(' :: (sign :: e.render.toList) ++ [')'] := by
  simp [h]

theorem toList_render_cast (type : CastType) : (Expr.cast op type e).render.toList
    = '(' :: ('(' :: (type.name.toList ++ ')' :: ' ' :: e.render.toList)) ++ [')'] := by
  simp

theorem toList_render_ternary : (Expr.ternary c op yes no).render.toList
    = '(' :: (c.render.toList ++ ' ' :: '?' :: ' ' ::
      (yes.render.toList ++ ' ' :: ':' :: ' ' :: no.render.toList)) ++ [')'] := by
  simp

theorem toList_render_array (opening : Token) (elements : List Element) :
    (Expr.array opening elements).render.toList = '[' :: List.intercalate [',', ' ']
      (elements.map fun x => x.render.toList) ++ [']'] := by
  simp [renderElements_eq, String.toList_intercalate, Function.comp_def]

end Expr

theorem Element.toList_render_pair (key value : Expr) : (Element.pair key value).render.toList
    = key.render.toList ++ ' ' :: '=' :: '>' :: ' ' :: value.render.toList := by
  simp

/-! ## Operator trees -/

/-- A bound for every member of a list is a bound for all of them. -/
theorem exists_bound {α : Type} {P : Nat → α → Prop} (hmono : ∀ {n m x}, P n x → n ≤ m → P m x)
    {xs : List α} (h : ∀ x ∈ xs, ∃ n, P n x) : ∃ n, ∀ x ∈ xs, P n x := by
  induction xs with
  | nil => exact ⟨0, by simp⟩
  | cons x xs ih =>
      obtain ⟨n, hn⟩ := h x List.mem_cons_self
      obtain ⟨m, hm⟩ := ih fun y hy => h y (List.mem_cons_of_mem x hy)
      refine ⟨max n m, List.forall_mem_cons.mpr ⟨hmono hn (Nat.le_max_left n m), ?_⟩⟩
      exact fun y hy => hmono (hm y hy) (Nat.le_max_right n m)

/-- The text reads back as an operand of this shape. -/
def Expr.ReadsBack (e : Expr) : Prop :=
  ∃ n, IsOperand n e.render.toList fun e' => e'.shape = e.shape

section Trees

variable {t op : Token} {e l r c yes no target value offset : Expr}

theorem readsBack_literal (h : t.IsOperand ∨ t.IsClosedString)
    (hk : t.kind ∈ [TokenKind.integer, .float, .string, .bool, .null]) :
    (Expr.literal t).ReadsBack := by
  have hspelt : Spelt t.text.toList [(t.kind, String.ofList t.text.toList)] := by
    rw [String.ofList_toList]
    rcases h with h | h
    · by_cases hconstant : t.kind ∈ [TokenKind.bool, .null]
      · exact h.spelt_constant hconstant
      · refine h.spelt ?_
        have hplain : ∀ k ∈ [TokenKind.integer, .float, .string, .bool, .null],
            k ∉ [TokenKind.bool, .null] → k.isWord = false := by decide
        exact hplain _ hk hconstant
    · exact h.spelt
  refine ⟨0, (isOperand_literal hspelt hk).imp ?_⟩
  rintro e ⟨u, hu, rfl⟩
  rw [String.ofList_toList] at hu
  exact congrArg Expr.literal (Token.unplaced_eq_of_word hu)

theorem readsBack_variable (h : t.IsVariable) : (Expr.variable t).ReadsBack := by
  have hspelt : Spelt t.text.toList [(.variable, String.ofList t.text.toList)] := by
    have hspelt := h.2.spelt (by rw [h.1]; rfl)
    rw [h.1] at hspelt
    rwa [String.ofList_toList]
  refine ⟨0, (isOperand_variable hspelt).imp ?_⟩
  rintro e ⟨u, hu, rfl⟩
  rw [String.ofList_toList, ← h.1] at hu
  exact congrArg Expr.variable (Token.unplaced_eq_of_word hu)

namespace Expr

theorem ReadsBack.unary (hop : op.word ∈ [(.minus, "-"), (.plus, "+"), (.bang, "!")])
    (h : e.ReadsBack) : (Expr.unary op e).ReadsBack := by
  obtain ⟨n, h⟩ := h
  obtain ⟨c, hc, htext⟩ := op.exists_sign hop
  have hunary := (h.signed hc).parenthesised
  rw [ReadsBack, toList_render_unary htext]
  refine ⟨n + 2, hunary.imp ?_⟩
  rintro e' ⟨op', x, hop', hx, rfl⟩
  rw [← htext] at hop'
  rw [shape, shape, hx, Token.unplaced_eq_of_word hop']

theorem ReadsBack.cast (hop : op.kind = .cast) (type : CastType) (h : e.ReadsBack) :
    (Expr.cast op type e).ReadsBack := by
  obtain ⟨n, h⟩ := h
  have hcast := (h.casted type).parenthesised
  rw [ReadsBack, toList_render_cast]
  refine ⟨n + 2, hcast.imp ?_⟩
  rintro e' ⟨op', x, hop', hx, rfl⟩
  rw [shape, shape, hx, Token.unspelt, Token.unspelt, hop', hop]

theorem ReadsBack.binary (hop : op.folded ∈ binaryWords) (hl : l.ReadsBack) (hr : r.ReadsBack) :
    (Expr.binary l op r).ReadsBack := by
  obtain ⟨n, hl⟩ := hl
  obtain ⟨m, hr⟩ := hr
  have hwords : ∀ w ∈ binaryWords, 0 < w.1.tightness ∧ lower w.2 = w.2 := by decide
  obtain ⟨htight, hlower⟩ : 0 < op.kind.tightness ∧ lower (lower op.text) = lower op.text :=
    hwords _ hop
  have hbinary := ((hl.mono (Nat.le_max_left n m)).binary htight (isSymbol_binary hop)
    (hr.mono (Nat.le_max_right n m))).parenthesised
  have hrender : (Expr.binary l op r).render.toList = '(' :: (l.render.toList ++ ' ' ::
      (op.folded.2.toList ++ ' ' :: r.render.toList)) ++ [')'] := by
    simp [Token.folded]
  rw [ReadsBack, hrender]
  refine ⟨max n m + 2, hbinary.imp ?_⟩
  rintro e' ⟨l', op', r', hop', hl', hr', rfl⟩
  obtain ⟨hkind, htext⟩ := Prod.mk.inj hop'
  have hlowered : op'.lowered = op.lowered := by
    rw [Token.lowered, Token.lowered, hkind, htext, hlower]
  rw [shape, shape, hl', hr', hlowered]

theorem ReadsBack.ternary (hop : op.word = (.question, "?")) (hc : c.ReadsBack)
    (hyes : yes.ReadsBack) (hno : no.ReadsBack) : (Expr.ternary c op yes no).ReadsBack := by
  obtain ⟨n, hc⟩ := hc
  obtain ⟨m, hyes⟩ := hyes
  obtain ⟨k, hno⟩ := hno
  have hternary := ((hc.mono (by omega : n ≤ n + m + k)).conditional
    (hyes.mono (by omega : m ≤ n + m + k)) (hno.mono (by omega : k ≤ n + m + k))).parenthesised
  rw [ReadsBack, toList_render_ternary]
  refine ⟨n + m + k + 2, hternary.imp ?_⟩
  rintro e' ⟨c', op', yes', no', hop', hc', hyes', hno', rfl⟩
  rw [shape, shape, hc', hyes', hno', Token.unplaced_eq_of_word (hop'.trans hop.symm)]

theorem ReadsBack.assign (hop : op.word = (.assign, "=")) (ht : target.ReadsBack)
    (hv : value.ReadsBack) : (Expr.assign target op value).ReadsBack := by
  obtain ⟨n, ht⟩ := ht
  obtain ⟨m, hv⟩ := hv
  have hassign := ((ht.mono (Nat.le_max_left n m)).assigned
    (hv.mono (Nat.le_max_right n m))).parenthesised
  have hrender : (Expr.assign target op value).render.toList = '(' :: (target.render.toList ++
      ' ' :: (['='] ++ ' ' :: value.render.toList)) ++ [')'] := by
    simp
  rw [ReadsBack, hrender]
  refine ⟨max n m + 2, hassign.imp ?_⟩
  rintro e' ⟨target', op', value', hop', ht', hv', rfl⟩
  rw [shape, shape, ht', hv', Token.unplaced_eq_of_word (hop'.trans hop.symm)]

theorem ReadsBack.access (hop : op.word = (.lbracket, "[")) (ht : target.ReadsBack)
    (ho : offset.ReadsBack) : (Expr.access target op offset).ReadsBack := by
  obtain ⟨n, ht⟩ := ht
  obtain ⟨m, ho⟩ := ho
  have haccess := ht.access ho.expression
  have hrender : (Expr.access target op offset).render.toList
      = target.render.toList ++ '[' :: offset.render.toList ++ [']'] := by
    simp
  rw [ReadsBack, hrender]
  refine ⟨n + (m + 1) + 1, haccess.imp ?_⟩
  rintro e' ⟨target', op', offset', ht', ho', hop', rfl⟩
  rw [shape, shape, ht', ho', Token.unplaced_eq_of_word (hop'.trans hop.symm)]

/-- The text of an element reads back. -/
theorem exists_isElement {element : Element} (h : ∀ e ∈ element.exprs, e.ReadsBack) :
    ∃ n, IsElement n element.render.toList fun element' => element'.shape = element.shape := by
  cases element with
  | item value =>
      obtain ⟨n, hvalue⟩ := h value List.mem_cons_self
      refine ⟨n + 1, hvalue.expression.item.imp ?_⟩
      rintro _ ⟨e, he, rfl⟩
      rw [Element.shape, Element.shape, he]
  | pair key value =>
      obtain ⟨n, hkey⟩ := h key List.mem_cons_self
      obtain ⟨m, hvalue⟩ := h value (List.mem_cons_of_mem key List.mem_cons_self)
      have hpair := (hkey.mono (Nat.le_max_left n m)).expression.pair
        (hvalue.mono (Nat.le_max_right n m)).expression
      rw [Element.toList_render_pair]
      refine ⟨max n m + 1, hpair.imp ?_⟩
      rintro _ ⟨k, v, hk, hv, rfl⟩
      rw [Element.shape, Element.shape, hk, hv]

theorem map_shape_of_forall₂ {xs ys : List Element}
    (h : List.Forall₂ (fun x y => y.shape = x.shape) xs ys) :
    ys.map Element.shape = xs.map Element.shape := by
  induction h with
  | nil => rfl
  | cons hx _ ih => rw [List.map_cons, List.map_cons, hx, ih]

theorem ReadsBack.array {elements : List Element} (opening : Token)
    (h : ∀ x ∈ elements, ∀ e ∈ x.exprs, e.ReadsBack) :
    (Expr.array opening elements).ReadsBack := by
  obtain ⟨n, hn⟩ := exists_bound (P := fun n (x : Element) =>
      IsElement n x.render.toList fun x' => x'.shape = x.shape) IsElement.mono
    fun x hx => exists_isElement (h x hx)
  have hitems : ∀ y ∈ elements.map fun x => (x.render.toList, fun x' : Element =>
      x'.shape = x.shape), IsElement n y.1 y.2 := by
    intro y hy
    obtain ⟨x, hx, rfl⟩ := List.mem_map.mp hy
    exact hn x hx
  have harray := isOperand_array hitems
  simp only [List.map_map, Function.comp_def] at harray
  rw [ReadsBack, toList_render_array]
  refine ⟨n, harray.imp ?_⟩
  rintro e' ⟨opening', es, -, hes, rfl⟩
  rw [List.forall₂_map_left_iff] at hes
  rw [shape, shape, shapeElements_eq, shapeElements_eq, map_shape_of_forall₂ hes]

/-- Legible operator trees read back. -/
theorem readsBack_of_legible {e : Expr} (h : e.Legible) (he : e.IsOperatorTree) : e.ReadsBack := by
  induction h with
  | literal _ h =>
      cases he with
      | literal hk => exact readsBack_literal h hk
  | «variable» h => exact readsBack_variable h
  | unary hop _ ih =>
      cases he with
      | unary _ he => exact (ih he).unary hop
  | cast type hop _ ih =>
      cases he with
      | cast _ _ he => exact (ih he).cast hop type
  | binary hop _ _ ihl ihr =>
      cases he with
      | binary _ hl hr => exact (ihl hl).binary hop (ihr hr)
  | ternary hop _ _ _ ihc ihyes ihno =>
      cases he with
      | ternary _ hc hyes hno => exact (ihc hc).ternary hop (ihyes hyes) (ihno hno)
  | assign hop _ _ iht ihv =>
      cases he with
      | assign _ ht hv => exact (iht ht).assign hop (ihv hv)
  | access hop _ _ iht iho =>
      cases he with
      | access _ ht ho => exact (iht ht).access hop (iho ho)
  | array opening _ ih =>
      cases he with
      | array _ helements =>
          exact .array opening fun x hx e he => ih x hx e he (helements x hx e he)
  | instanceOf | property | methodCall | call | interpolation => cases he

end Expr

end Trees

/-- **Rendering an operator tree and parsing it back is the identity** on shapes: with levels of
nesting enough, the text of the tree is parsed, and the tree that it gives differs at most in the
places of tokens, the case of word operators, the spelling of casts and the form of arrays. -/
theorem operator_tree_reads_back {limit : Nat} {source : String} {t : Expr}
    (h : Expr.parse limit source = .ok t) (ht : t.IsOperatorTree) :
    ∃ n, ∀ limit', n ≤ limit' → ∃ t', Expr.parse limit' t.render = .ok t' ∧ t'.shape = t.shape := by
  obtain ⟨n, hn⟩ := Expr.readsBack_of_legible (legible_of_parse h) ht
  refine ⟨n + 1, fun limit' hlimit => ?_⟩
  have hparse := hn.expression.exists_parse limit' hlimit
  rwa [String.ofList_toList] at hparse

/-- A sign in front of a cast in front of an access, a word operator, and an array in words. -/
def sampleOperatorTree : Expr :=
  .binary
    (.unary ⟨.minus, "-", ⟨0, 1, 1, 1⟩⟩
      (.cast ⟨.cast, "(INTEGER)", ⟨1, 9, 1, 2⟩⟩ .int
        (.access (.variable ⟨.variable, "$a", ⟨11, 2, 1, 12⟩⟩) ⟨.lbracket, "[", ⟨13, 1, 1, 14⟩⟩
          (.literal ⟨.integer, "0", ⟨14, 1, 1, 15⟩⟩))))
    ⟨.and, "AND", ⟨17, 3, 1, 18⟩⟩
    (.array ⟨.array, "array", ⟨21, 5, 1, 22⟩⟩
      [.pair (.literal ⟨.string, "'k'", ⟨27, 3, 1, 28⟩⟩) (.literal ⟨.null, "NULL", ⟨34, 4, 1, 35⟩⟩)])

theorem sample_operator_tree_reads_back :
    Expr.parse 20 "-(INTEGER) $a[0] AND array('k' => NULL)" = .ok sampleOperatorTree ∧
    sampleOperatorTree.IsOperatorTree ∧
    sampleOperatorTree.render = "((-((int) $a[0])) and ['k' => NULL])" ∧
    ∃ n, ∀ limit', n ≤ limit' → ∃ t', Expr.parse limit' sampleOperatorTree.render = .ok t' ∧
      t'.shape = sampleOperatorTree.shape := by
  have hparse : Expr.parse 20 "-(INTEGER) $a[0] AND array('k' => NULL)"
      = .ok sampleOperatorTree := by cbv
  have htree : sampleOperatorTree.IsOperatorTree := by
    refine .binary _ (.unary _ (.cast _ _ (.access _ (.variable _) (.literal (by decide)))))
      (.array _ ?_)
    simp only [List.forall_mem_cons, Element.exprs]
    exact ⟨⟨.literal (by decide), .literal (by decide), by simp⟩, by simp⟩
  exact ⟨hparse, htree, by cbv, operator_tree_reads_back hparse htree⟩

end GuardedExpr
