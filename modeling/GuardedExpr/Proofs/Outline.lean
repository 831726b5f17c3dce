/-
# Outline — what the text of a tree tells

Calls, members and embedded expressions are rendered without parentheses, so the text
of a tree does not tell all of its shape:

    a call of a property      a call of a method of this name      `$a->b()`
    a word in a string        the same word in code                `$a[true]`

`Expr.outline` takes the first for the second.  It changes no text
(`Expr.Legible.render_outline`); that it keeps all that the text tells is shown in
`OutlineReading`.
-/
import GuardedExpr.Proofs.Rendering

namespace GuardedExpr

open Text Lexeme

/-! ## Outlines -/

/-- The token with the kind that its word has in code. -/
def Token.asWord (t : Token) : Token :=
  if t.kind.isWord || t.kind == .fragment then
    ⟨(keyword? t.text).getD .identifier, t.text, t.location⟩
  else t

/-- The expression called; a property that is called is a method. -/
def Expr.called (paren : Token) (args : List Argument) : Expr → Expr
  | .property target op isStatic name => .methodCall target op isStatic name args
  | callee => .call callee paren args

mutual

/-- The expression with properties that are called made methods, and words in strings made words
of code. -/
def Expr.outline : Expr → Expr
  | .literal t => .literal t.asWord
  | .variable t => .variable t
  | .unary op operand => .unary op operand.outline
  | .cast op type operand => .cast op type operand.outline
  | .binary left op right => .binary left.outline op right.outline
  | .ternary condition question yes no =>
    .ternary condition.outline question yes.outline no.outline
  | .assign target op value => .assign target.outline op value.outline
  | .instanceOf value op cls => .instanceOf value.outline op cls.outline
  | .access target bracket offset => .access target.outline bracket offset.outline
  | .array opening elements => .array opening (outlineElements elements)
  | .property target op isStatic name => .property target.outline op isStatic name.outline
  | .methodCall target op isStatic name args =>
    .methodCall target.outline op isStatic name.outline (outlineArguments args)
  | .call callee paren args => callee.outline.called paren (outlineArguments args)
  | .interpolation opening parts => .interpolation opening (outlineParts parts)

def Element.outline : Element → Element
  | .item value => .item value.outline
  | .pair key value => .pair key.outline value.outline

def outlineElements : List Element → List Element
  | [] => []
  | element :: rest => element.outline :: outlineElements rest

def outlineArguments : List Argument → List Argument
  | [] => []
  | .mk byRef value :: rest => .mk byRef value.outline :: outlineArguments rest

/-- Runs of text are no words. -/
def outlineParts : List Expr → List Expr
  | [] => []
  | part :: rest =>
    (if part.fragment?.isSome then part else part.outline) :: outlineParts rest

end

/-! ## Lists in trees -/

namespace Argument

/-- The text of an argument. -/
def render : Argument → String
  | mk byRef value => (if byRef then "&" else "") ++ value.render

def outlined : Argument → Argument
  | mk byRef value => mk byRef value.shape.outline

end Argument

namespace Expr

/-- A part of a string in outline. -/
def partOutline (part : Expr) : Expr :=
  if part.fragment?.isSome then part.shape else part.shape.outline

theorem fragment?_shape (e : Expr) : e.shape.fragment? = e.fragment?.map Token.unplaced := by
  cases e with
  | literal t =>
      unfold shape fragment?
      by_cases hk : t.kind = .fragment <;> simp [Token.unplaced, hk]
  | _ => simp [shape, fragment?]

theorem renderArguments_eq (args : List Argument) :
    renderArguments args = args.map Argument.render := by
  induction args with
  | nil => rfl
  | cons arg rest ih =>
      cases arg
      rw [renderArguments, ih]
      rfl

end Expr

theorem outlineElements_eq (elements : List Element) :
    outlineElements (shapeElements elements) = elements.map fun x => x.shape.outline := by
  induction elements with
  | nil => rfl
  | cons element rest ih => rw [shapeElements, outlineElements, ih, List.map_cons]

theorem outlineArguments_eq (args : List Argument) :
    outlineArguments (shapeArguments args) = args.map Argument.outlined := by
  induction args with
  | nil => rfl
  | cons arg rest ih =>
      cases arg
      rw [shapeArguments, outlineArguments, ih]
      rfl

theorem outlineParts_eq (parts : List Expr) :
    outlineParts (shapeParts parts) = parts.map Expr.partOutline := by
  induction parts with
  | nil => rfl
  | cons part rest ih =>
      rw [shapeParts, outlineParts, ih, Expr.fragment?_shape, Option.isSome_map]
      rfl

/-! ## Texts of outlines -/

theorem Token.unplaced_of_word {t : Token} {k : TokenKind} {s : String} (h : t.word = (k, s)) :
    t.unplaced = ⟨k, s, default⟩ := by
  obtain ⟨hkind, htext⟩ := Prod.mk.inj h
  rw [← hkind, ← htext]
  rfl

theorem Token.text_asWord (t : Token) : t.asWord.text = t.text := by
  unfold asWord
  split <;> rfl

theorem Token.asWord_of_kind {t : Token} (h : (t.kind.isWord || t.kind == .fragment) = false) :
    t.asWord = t := by
  unfold asWord
  rw [h, if_neg Bool.false_ne_true]

/-- A token that was read in code is told by its word already. -/
theorem Token.IsOperand.asWord {t : Token} (h : t.IsOperand) : t.asWord = t := by
  rcases h.kind_cases with hmem | hkind
  · have hplain : ∀ k ∈ [TokenKind.variable, .integer, .float, .string],
        (k.isWord || k == .fragment) = false := by decide
    exact asWord_of_kind (hplain _ hmem)
  · unfold Token.asWord
    rw [← hkind, ite_self]

theorem Token.asWord_unplaced (t : Token) : t.unplaced.asWord = t.asWord.unplaced := by
  unfold asWord unplaced
  split <;> rfl

/-- Only the kind of a word may change, and it stays the kind of a word. -/
theorem Token.bareName?_asWord {t : Token} (hk : t.kind ≠ .fragment) :
    (Expr.literal t.asWord).bareName? = (Expr.literal t).bareName? := by
  unfold Expr.bareName? asWord
  have hfragment : (t.kind == TokenKind.fragment) = false := by simpa using hk
  rw [hfragment, Bool.or_false]
  cases hword : t.kind.isWord with
  | true => simp [hword, isWord_word]
  | false => simp [hword]

namespace Expr

theorem render_called (callee : Expr) (paren : Token) (args : List Argument) :
    (callee.called paren args).render = (Expr.call callee paren args).render := by
  cases callee <;> rfl

theorem bareName?_called (callee : Expr) (paren : Token) (args : List Argument) :
    (callee.called paren args).bareName? = none := by
  cases callee <;> rfl

theorem fragment?_called (callee : Expr) (paren : Token) (args : List Argument) :
    (callee.called paren args).fragment? = none := by
  cases callee <;> rfl

/-- An expression led by a variable is no run of text, nor is its outline. -/
theorem fragment?_outline {e : Expr} (h : e.isLed = true) : e.shape.outline.fragment? = none := by
  cases e with
  | call callee paren args => exact fragment?_called _ _ _
  | literal | unary | cast | array | interpolation => cases h
  | _ => rfl

theorem Legible.bareName?_outline {e : Expr} (h : e.Legible) :
    e.shape.outline.bareName? = e.bareName? := by
  cases h with
  | @literal t _ hspelt =>
      have hfragment : t.unplaced.kind ≠ .fragment := by
        rcases hspelt with hoperand | hstring
        · intro hk
          rcases hoperand.kind_cases with hmem | hkind
          · rw [show t.kind = .fragment from hk] at hmem
            exact absurd hmem (by decide)
          · have hword := isWord_word t.text
            rw [← hkind, show t.kind = .fragment from hk] at hword
            cases hword
        · rw [show t.unplaced.kind = .string from hstring.1]
          decide
      exact Token.bareName?_asWord hfragment
  | call => exact bareName?_called _ _ _
  | _ => rfl

theorem render_literal_outline (t : Token) :
    (Expr.literal t).shape.outline.render = (Expr.literal t).render :=
  Token.text_asWord t.unplaced

theorem IsEmbedded.render_outline {e : Expr} (h : e.IsEmbedded) :
    e.shape.outline.render = e.render := by
  cases h with
  | alone => rfl
  | @access v bracket o hv hbracket ho =>
      have hoffset : o.shape.outline.render = o.render := by
        cases ho with
        | digits | word => exact render_literal_outline _
        | negative =>
            simp only [shape, outline, render]
            rw [Token.text_asWord]
            rfl
        | sigil => rfl
      simp only [shape, outline, render]
      rw [hoffset]
      rfl
  | @property v arrow name hv harrow hkind hname =>
      have hbare : name.unplaced.kind ≠ .fragment := by
        rw [show name.unplaced.kind = .identifier from hkind]
        decide
      simp only [shape, outline, render, memberText]
      rw [Token.bareName?_asWord hbare, Token.text_asWord]
      rfl

theorem renderParts_outline {parts : List Expr} (h : ∀ part ∈ parts,
      partText part.partOutline part.partOutline.render = partText part part.render) :
    renderParts (parts.map partOutline) = renderParts parts := by
  induction parts with
  | nil => rfl
  | cons part rest ih =>
      rw [List.map_cons, renderParts, renderParts, h part List.mem_cons_self,
        ih fun p hp => h p (List.mem_cons_of_mem part hp)]

/-- The outline of a part has the text of the part. -/
theorem partText_outline {part : Expr} (hled : part.IsHole → part.isLed = true)
    (h : part.IsHole → part.shape.outline.render = part.render) :
    partText part.partOutline part.partOutline.render = partText part part.render := by
  unfold partOutline
  cases hpart : part.fragment? with
  | none =>
      rw [Option.isSome_none, if_neg Bool.false_ne_true, h hpart]
      unfold partText
      rw [fragment?_outline (hled hpart), hpart]
  | some t =>
      rw [Option.isSome_some, if_pos rfl]
      unfold partText
      rw [fragment?_shape, hpart]
      rfl

theorem memberText_outline {name : Expr} (h : name.Legible)
    (hrender : name.shape.outline.render = name.render) :
    memberText name.shape.outline name.shape.outline.render = memberText name name.render := by
  unfold memberText
  rw [h.bareName?_outline, hrender]

theorem renderArguments_outline {args : List Argument}
    (h : ∀ a ∈ args, a.value.shape.outline.render = a.value.render) :
    renderArguments (outlineArguments (shapeArguments args)) = renderArguments args := by
  rw [outlineArguments_eq, renderArguments_eq, renderArguments_eq, List.map_map]
  refine List.map_congr_left fun a ha => ?_
  cases a with
  | mk byRef value => exact congrArg ((if byRef then "&" else "") ++ ·) (h _ ha)

theorem renderElements_outline {elements : List Element}
    (h : ∀ x ∈ elements, ∀ e ∈ x.exprs, e.shape.outline.render = e.render) :
    renderElements (outlineElements (shapeElements elements)) = renderElements elements := by
  rw [outlineElements_eq, renderElements_eq, renderElements_eq, List.map_map]
  refine List.map_congr_left fun x hx => ?_
  have hrender := h x hx
  cases x with
  | item value => exact hrender value List.mem_cons_self
  | pair key value =>
      simp only [Element.exprs, List.forall_mem_cons] at hrender
      simp only [Function.comp_apply, Element.shape, Element.outline, Element.render]
      rw [hrender.1, hrender.2.1]

/-- **The outline of a legible expression has the text of the expression.** -/
theorem Legible.render_outline {e : Expr} (h : e.Legible) : e.shape.outline.render = e.render := by
  induction h with
  | literal => exact render_literal_outline _
  | «variable» => rfl
  | unary _ _ ih =>
      simp only [shape, outline, render]
      rw [ih]
      rfl
  | cast _ _ _ ih =>
      simp only [shape, outline, render]
      rw [ih]
  | @binary op _ _ hop _ _ ihl ihr =>
      have hwords : ∀ w ∈ binaryWords, lower w.2 = w.2 := by decide
      have hlower : lower (lower op.text) = lower op.text := hwords op.folded hop
      simp only [shape, outline, render, Token.lowered]
      rw [ihl, ihr, hlower]
  | ternary _ _ _ _ ihc ihyes ihno =>
      simp only [shape, outline, render]
      rw [ihc, ihyes, ihno]
  | assign _ _ _ iht ihv | instanceOf _ _ _ iht ihv | access _ _ _ iht ihv =>
      simp only [shape, outline, render]
      rw [iht, ihv]
  | array _ _ ih =>
      simp only [shape, outline, render]
      rw [renderElements_outline ih]
  | property _ _ hname iht ihn =>
      simp only [shape, outline, render]
      rw [iht, memberText_outline hname ihn]
  | methodCall _ _ hname _ iht ihn iha =>
      simp only [shape, outline, render]
      rw [iht, memberText_outline hname ihn, renderArguments_outline iha]
  | call _ _ _ ihc iha =>
      simp only [shape, outline, render_called, render]
      rw [ihc, renderArguments_outline iha]
  | @interpolation _ parts _ _ hled _ _ _ ih =>
      simp only [shape, outline, render]
      rw [outlineParts_eq, renderParts_outline fun part hpart => ?_]
      refine partText_outline (hled part hpart) fun hhole => ?_
      by_cases hembedded : part.IsEmbedded
      · exact hembedded.render_outline
      · exact ih part hpart hhole hembedded

end Expr

end GuardedExpr
