/-
# Outline reading — every tree is read off its text

`Shows text e`: at all depths that are great enough the text is read as `e`, in front of
whatever may follow an operand.  Leaves are shown; brackets, quotes and suffixes keep
it; so the text of a legible expression shows its outline (`Expr.Legible.isShown`).

So two trees have the same text if and only if they have the same outline
(`render_eq_iff`).  Their shapes may differ: `($a->b)(1)` calls what a property holds,
and its text is that of a call of the method `b`.
-/
import Mathlib.Data.Set.Finite.Basic
import Mathlib.Order.Filter.AtTopBot.Basic
import Mathlib.Order.Filter.Finite
import GuardedExpr.Proofs.OutlineReader

namespace GuardedExpr

open Text Lexeme Filter

namespace Outline

/-! ## Reading operands -/

section Operands

variable {text more : List Char} {e e' : Expr}

/-- No operand starts with a sign, a mark of reference or a closing bracket. -/
theorem operand_eq_none {c : Char} (hc : c ∈ ['-', '+', '!', '&', ')', ']']) (n : Nat)
    (cs : List Char) : operand n (c :: cs) = none := by
  cases n with
  | zero => rfl
  | succ n =>
      have hprimary : primary (operand n) n (c :: cs) = none := by
        simp only [List.mem_cons, List.not_mem_nil, or_false] at hc
        unfold primary
        rcases hc with rfl | rfl | rfl | rfl | rfl | rfl <;>
        · rw [leaf_punctuation (by decide)]
          rfl
      unfold operand
      rw [hprimary]
      rfl

section Primary

variable {read : Reader Expr} {n : Nat} (cs : List Char)

theorem primary_paren : primary read n ('(' :: cs) = closed (bracketed read) ')' cs := by
  unfold primary
  rw [leaf_punctuation (by decide)]
  rfl

theorem primary_bracket : primary read n ('[' :: cs)
    = (separated (element read) ']' n cs).map fun (elements, cs) =>
      (.array ⟨.lbracket, "[", default⟩ elements, cs) := by
  unfold primary
  rw [leaf_punctuation (by decide)]
  rfl

theorem primary_quote : primary read n ('"' :: cs)
    = (parts read n cs).map fun (es, cs) => (string es, cs) := by
  unfold primary
  rw [leaf_punctuation (by decide)]
  rfl

end Primary

/-- In front of suffixes the text is read as the expression, at all depths that are great enough;
a number of suffixes is used up. -/
def Shows (text : List Char) (e : Expr) : Prop :=
  ∃ k, ∀ᶠ n in atTop, ∀ m rest, SetOff rest → ∃ front cs,
    primary (operand n) n (text ++ rest) = some (front, cs) ∧
    suffixes (operand n) n (k + m) front cs = suffixes (operand n) n m e rest

theorem Shows.of_primary (h : ∀ᶠ n in atTop, ∀ rest, SetOff rest →
    primary (operand n) n (text ++ rest) = some (e, rest)) : Shows text e := by
  refine ⟨0, ?_⟩
  filter_upwards [h] with n hn
  intro m rest hrest
  exact ⟨e, rest, hn rest hrest, by rw [Nat.zero_add]⟩

theorem suffixes_succ {read : Reader Expr} {cs rest : List Char} {n : Nat}
    (h : suffix read n e cs = some (e', rest)) (m : Nat) :
    suffixes read n (m + 1) e cs = suffixes read n m e' rest := by
  rw [suffixes, h]

theorem Shows.suffixed (h : Shows text e) (hmore : ∀ rest, SetOff (more ++ rest))
    (hsuffix : ∀ᶠ n in atTop, ∀ rest, SetOff rest →
      suffix (operand n) n e (more ++ rest) = some (e', rest)) : Shows (text ++ more) e' := by
  obtain ⟨k, h⟩ := h
  refine ⟨k + 1, ?_⟩
  filter_upwards [h, hsuffix] with n hn hsuffix
  intro m rest hrest
  obtain ⟨front, cs, hprimary, hsuffixes⟩ := hn (1 + m) (more ++ rest) (hmore rest)
  refine ⟨front, cs, ?_, ?_⟩
  · rw [List.append_assoc, hprimary]
  · rw [Nat.add_assoc, hsuffixes, Nat.add_comm 1 m, suffixes_succ (hsuffix rest hrest)]

theorem suffixes_closer {c : Char} (hc : c ∈ closers) (n m : Nat) (rest : List Char) :
    suffixes (operand n) n m e (c :: rest) = some (e, c :: rest) := by
  cases m with
  | zero => rfl
  | succ m =>
      have hsuffix : suffix (operand n) n e (c :: rest) = none := by
        simp only [closers, List.mem_cons, List.not_mem_nil, or_false] at hc
        rcases hc with rfl | rfl | rfl | rfl | rfl <;> rfl
      unfold suffixes
      rw [hsuffix]

/-- What holds of a reader one deeper holds of a reader that is deep enough. -/
theorem eventually_of_succ {P : Nat → Prop} (h : ∀ᶠ n in atTop, P (n + 1)) :
    ∀ᶠ n in atTop, P n := by
  rw [← map_add_atTop_eq_nat 1]
  exact h

theorem Shows.reads (h : Shows text e) : ∀ᶠ n in atTop, Reads (operand n) closers text e := by
  obtain ⟨k, h⟩ := h
  refine eventually_of_succ ?_
  filter_upwards [h, eventually_ge_atTop k] with n hn hk
  intro c hc rest
  obtain ⟨front, cs, hprimary, hsuffixes⟩ := hn (n - k) (c :: rest) (setOff_closer hc rest)
  rw [Nat.add_sub_cancel' hk] at hsuffixes
  unfold operand
  rw [hprimary]
  exact hsuffixes.trans (suffixes_closer hc n _ rest)

theorem shows_bracketed (h : ∀ᶠ n in atTop, Reads (bracketed (operand n)) [')'] text e) :
    Shows ('(' :: text ++ [')']) e := by
  refine .of_primary ?_
  filter_upwards [h] with n hn
  intro rest _
  have htext : '(' :: text ++ [')'] ++ rest = '(' :: (text ++ ')' :: rest) := by simp
  rw [htext, primary_paren, closed_append hn List.mem_cons_self]

theorem shows_closedString (h : Scanner.IsRun text) : Shows ('"' :: (text ++ ['"']))
    (.literal ⟨.string, String.ofList ('"' :: (text ++ ['"'])), default⟩) := by
  refine .of_primary ?_
  filter_upwards [eventually_gt_atTop 1] with n hn
  intro rest _
  obtain ⟨es, hparts, hstring⟩ : ∃ es, parts (operand n) n (text ++ '"' :: rest)
      = some (es, rest) ∧ string es = _ := parts_closedString h hn rest
  have htext : '"' :: (text ++ ['"']) ++ rest = '"' :: (text ++ '"' :: rest) := by simp
  rw [htext, primary_quote, hparts, ← hstring]
  rfl

end Operands

end Outline

namespace Expr

open Outline

/-- The outline of the expression is read off its text. -/
def IsShown (e : Expr) : Prop := Shows e.render.toList e.shape.outline

theorem IsShown.reads {e : Expr} (h : e.IsShown) :
    ∀ᶠ n in atTop, Reads (operand n) closers e.render.toList e.shape.outline :=
  Shows.reads h

section Nodes

variable {t op : Token} {e l r c yes no target value offset name callee : Expr}

/-! ## Leaves -/

/-- The expression is rendered as a leaf. -/
def IsLeaf (e : Expr) : Prop := ∀ rest, SetOff rest →
  leaf (e.render.toList ++ rest) = some (e.shape.outline, rest)

theorem IsLeaf.isShown (h : e.IsLeaf) : e.IsShown := by
  refine .of_primary (.of_forall fun n rest hrest => ?_)
  unfold primary
  rw [h rest hrest]

theorem isLeaf_operand (hk : t.kind ≠ .variable) (h : t.IsOperand) : (Expr.literal t).IsLeaf := by
  intro rest hrest
  have houtline : (Expr.literal t).shape.outline = .literal t.unplaced := by
    show Expr.literal t.unplaced.asWord = _
    rw [Token.asWord_unplaced, h.asWord]
  rw [houtline, ← leafOf_literal (show t.unplaced.kind ≠ _ from hk)]
  exact leaf_isOperand h hrest

theorem isLeaf_variable (h : t.IsVariable) : (Expr.variable t).IsLeaf := by
  intro rest hrest
  show _ = some (Expr.variable t.unplaced, rest)
  rw [← leafOf_variable (show t.unplaced.kind = _ from h.1)]
  exact leaf_isOperand h.2 hrest

theorem isLeaf_digits (h : t.IsDigits) : (Expr.literal t).IsLeaf := by
  intro rest hrest
  have houtline : (Expr.literal t).shape.outline = .literal t.unplaced := by
    show Expr.literal t.unplaced.asWord = _
    rw [Token.asWord_of_kind (by rw [show t.unplaced.kind = _ from h.1]; rfl)]
  rw [houtline]
  exact leaf_isDigits h hrest

/-- A word in a string is read as the word of code. -/
theorem isLeaf_word (hk : t.kind = .fragment ∨ t.kind = .identifier) (h : t.IsName) :
    (Expr.literal t).IsLeaf := by
  intro rest hrest
  have houtline : (Expr.literal t).shape.outline
      = .literal ⟨(keyword? t.text).getD .identifier, t.text, default⟩ := by
    show Expr.literal t.unplaced.asWord = _
    unfold Token.asWord
    rw [if_pos]
    · rfl
    · rcases hk with hk | hk <;>
      · rw [show t.unplaced.kind = _ from hk]
        rfl
  have hword : (keyword? t.text).getD .identifier ≠ .variable := by
    intro hk
    have hisWord := isWord_word t.text
    rw [hk] at hisWord
    cases hisWord
  have hleaf : leaf (t.text.toList ++ rest)
      = some (leafOf ⟨(keyword? t.text).getD .identifier, t.text, default⟩, rest) :=
    leaf_isOperand h.isOperand hrest
  rwa [leafOf_literal hword, ← houtline] at hleaf

theorem isShown_closedString (h : t.IsClosedString) : (Expr.literal t).IsShown := by
  obtain ⟨hkind, run, hrun, htext⟩ := h
  have houtline : (Expr.literal t).shape.outline = .literal ⟨.string, t.text, default⟩ := by
    show Expr.literal t.unplaced.asWord = _
    rw [Token.asWord_of_kind (t := t.unplaced) (by rw [show t.unplaced.kind = _ from hkind]; rfl),
      ← hkind]
    rfl
  have hshown := shows_closedString hrun
  rw [← htext, String.ofList_toList] at hshown
  rwa [IsShown, houtline]

/-! ## Operators -/

/-- **A cast is no operand**: the parentheses of an operand hold more than a word. -/
theorem operand_cast (type : CastType) : ∀ᶠ n in atTop, ∀ cs,
    operand n ('(' :: (type.name.toList ++ ')' :: cs)) = none := by
  have hname : Token.IsName ⟨.identifier, type.name, default⟩ := by
    cases type <;> exact ⟨rfl, List.all_eq_true.mp rfl⟩
  refine eventually_of_succ ?_
  filter_upwards [(isLeaf_word (.inr rfl) hname).isShown.reads] with n hn
  intro cs
  have hbracketed : bracketed (operand n) (type.name.toList ++ ')' :: cs) = none := by
    unfold bracketed
    rw [show operand n (type.name.toList ++ ')' :: cs) = _ from hn ')' (by decide) cs]
    rfl
  have hprimary : primary (operand n) n ('(' :: (type.name.toList ++ ')' :: cs)) = none := by
    rw [primary_paren]
    unfold closed
    rw [hbracketed]
    rfl
  unfold operand
  rw [hprimary]
  rfl

theorem IsShown.unary (hop : op.word ∈ [(.minus, "-"), (.plus, "+"), (.bang, "!")])
    (h : e.IsShown) : (Expr.unary op e).IsShown := by
  obtain ⟨c, hc, htext⟩ := op.exists_sign hop
  have hsign : c ∈ ['-', '+', '!', '&', ')', ']'] := by
    simp only [List.mem_cons, Prod.mk.injEq, List.not_mem_nil, or_false] at hc
    rcases hc with ⟨rfl, -⟩ | ⟨rfl, -⟩ | ⟨rfl, -⟩ <;> simp
  have houtline : (Expr.unary op e).shape.outline
      = .unary ⟨op.kind, String.ofList [c], default⟩ e.shape.outline := by
    rw [← htext]
    rfl
  rw [IsShown, toList_render_unary htext, houtline]
  refine shows_bracketed ?_
  filter_upwards [h.reads] with n hn
  exact reads_signed hc (operand_eq_none hsign n) hn

theorem IsShown.cast (hop : op.kind = .cast) (type : CastType) (h : e.IsShown) :
    (Expr.cast op type e).IsShown := by
  have houtline : (Expr.cast op type e).shape.outline
      = .cast ⟨.cast, "", default⟩ type e.shape.outline := by
    rw [← hop]
    rfl
  rw [IsShown, toList_render_cast, houtline]
  refine shows_bracketed ?_
  filter_upwards [h.reads, operand_cast type] with n hn hcast
  exact reads_casted type hcast hn

/-- Operations with one operator between two operands. -/
theorem isShown_joined (symbol : List Char) (hl : l.IsShown) (hr : r.IsShown)
    (hsymbol : ∀ c ∈ symbol, (c != ' ') = true) (hne : symbol ≠ ['?'])
    (hrender : e.render.toList
      = '(' :: (l.render.toList ++ ' ' :: (symbol ++ ' ' :: r.render.toList)) ++ [')'])
    (hjoined : joined l.shape.outline (String.ofList symbol) r.shape.outline
      = some e.shape.outline) : e.IsShown := by
  rw [IsShown, hrender]
  refine shows_bracketed ?_
  filter_upwards [hl.reads, hr.reads] with n hl hr
  exact reads_joined hl hr hsymbol hne hjoined

theorem IsShown.binary (hop : op.folded ∈ binaryWords) (hl : l.IsShown) (hr : r.IsShown) :
    (Expr.binary l op r).IsShown := by
  have hwords : ∀ w ∈ binaryWords, (w.2.toList.all fun c => c != ' ') = true ∧
      w.2.toList ≠ ['?'] ∧ w.2 ≠ "=" ∧ w.2 ≠ "instanceof" ∧
      (binaryWords.find? fun w' => w'.2 == w.2) = some w := by decide
  obtain ⟨hblank, hquestion, hassign, hinstance, hfind⟩ := hwords _ hop
  refine isShown_joined op.folded.2.toList hl hr (List.all_eq_true.mp hblank)
    hquestion ?_ ?_
  · simp [render, Token.folded]
  · unfold joined
    rw [String.ofList_toList, if_neg hassign, if_neg hinstance, hfind]
    rfl

theorem IsShown.assign (hop : op.word = (.assign, "=")) (ht : target.IsShown)
    (hv : value.IsShown) : (Expr.assign target op value).IsShown := by
  refine isShown_joined ['='] ht hv (by simp) (by simp) ?_ ?_
  · simp [render]
  · simp only [shape, outline]
    rw [Token.unplaced_of_word hop]
    rfl

theorem IsShown.instanceOf (hop : op.folded = (.instanceOf, "instanceof")) (hv : value.IsShown)
    (hr : r.IsShown) : (Expr.instanceOf value op r).IsShown := by
  refine isShown_joined "instanceof".toList hv hr (List.all_eq_true.mp rfl)
    (by simp) ?_ ?_
  · simp [render]
  · obtain ⟨hkind, htext⟩ := Prod.mk.inj hop
    simp only [shape, outline, Token.lowered]
    rw [hkind, htext]
    rfl

theorem IsShown.ternary (hop : op.word = (.question, "?")) (hc : c.IsShown) (hyes : yes.IsShown)
    (hno : no.IsShown) : (Expr.ternary c op yes no).IsShown := by
  have houtline : (Expr.ternary c op yes no).shape.outline = .ternary c.shape.outline
      ⟨.question, "?", default⟩ yes.shape.outline no.shape.outline := by
    rw [← Token.unplaced_of_word hop]
    rfl
  rw [IsShown, toList_render_ternary, houtline]
  refine shows_bracketed ?_
  filter_upwards [hc.reads, hyes.reads, hno.reads] with n hc hyes hno
  exact reads_ternary hc hyes hno

theorem IsShown.access (hop : op.word = (.lbracket, "[")) (ht : target.IsShown)
    (ho : offset.IsShown) : (Expr.access target op offset).IsShown := by
  have hrender : (Expr.access target op offset).render.toList
      = target.render.toList ++ '[' :: (offset.render.toList ++ [']']) := by
    simp [render]
  have houtline : (Expr.access target op offset).shape.outline
      = .access target.shape.outline ⟨.lbracket, "[", default⟩ offset.shape.outline := by
    rw [← Token.unplaced_of_word hop]
    rfl
  rw [IsShown, hrender, houtline]
  refine Shows.suffixed ht (fun rest => setOff_lbracket _) ?_
  filter_upwards [ho.reads] with n hn
  intro rest _
  have htext : '[' :: (offset.render.toList ++ [']']) ++ rest
      = '[' :: (offset.render.toList ++ ']' :: rest) := by simp
  rw [htext, suffix, closed_append hn (by decide)]
  rfl

/-- The expression is read back as the name of a member. -/
def IsMember (name : Expr) : Prop := ∀ᶠ n in atTop, ∀ rest, SetOff rest →
  member (operand n) ((memberText name name.render).toList ++ rest)
    = some (name.shape.outline, rest)

theorem IsLeaf.isMember (h : name.IsLeaf) (hbare : name.bareName? = some name.render) :
    name.IsMember := by
  refine .of_forall fun n rest hrest => ?_
  unfold member memberText
  rw [hbare, Option.getD_some, h rest hrest]

/-- A name that is no bare word stands in braces. -/
theorem IsShown.isMember (h : name.IsShown) (hbare : name.bareName? = none) : name.IsMember := by
  filter_upwards [h.reads] with n hn
  intro rest _
  have htext : (memberText name name.render).toList ++ rest
      = '{' :: (name.render.toList ++ '}' :: rest) := by
    simp [memberText, hbare, braced]
  rw [htext]
  unfold member
  rw [leaf_punctuation (by decide)]
  dsimp only
  rw [expect_singleton, Option.bind_some, closed_append hn (by decide)]

theorem Legible.isMember (h : name.Legible) (hn : name.IsShown) : name.IsMember := by
  cases hbare : name.bareName? with
  | none => exact hn.isMember hbare
  | some s =>
      cases h with
      | @literal t hk hspelt =>
          have hword : t.kind.isWord = true ∧ t.text = s := by
            cases hword : t.kind.isWord with
            | true => exact ⟨rfl, by simpa [bareName?, hword] using hbare⟩
            | false => simp [bareName?, hword] at hbare
          have hoperand : t.IsOperand := by
            refine hspelt.resolve_right fun hstring => ?_
            rw [hstring.1] at hword
            cases hword.1
          exact (isLeaf_operand hk hoperand).isMember (hbare.trans (congrArg some hword.2.symm))
      | _ => cases hbare

theorem setOff_member (isStatic : Bool) (cs : List Char) :
    SetOff ((memberOperator isStatic).toList ++ cs) := by
  cases isStatic
  · exact setOff_cons (by decide) _
  · exact setOff_cons (by decide) _

theorem suffix_member {read : Reader Expr} {n : Nat} {isStatic : Bool} {cs rest : List Char}
    (hop : op.word = memberWord isStatic) (h : member read cs = some (name, rest)) :
    suffix read n target ((memberOperator isStatic).toList ++ cs)
      = some (.property target op.unplaced isStatic name, rest) := by
  cases isStatic
  · have hop : op.unplaced = ⟨.arrow, "->", default⟩ := Token.unplaced_of_word hop
    show (member read cs).map _ = _
    rw [h, hop]
    rfl
  · have hop : op.unplaced = ⟨.doubleColon, "::", default⟩ := Token.unplaced_of_word hop
    show (member read cs).map _ = _
    rw [h, hop]
    rfl

theorem IsShown.property {isStatic : Bool} (hop : op.word = memberWord isStatic)
    (ht : target.IsShown) (hn : name.IsMember) :
    (Expr.property target op isStatic name).IsShown := by
  have hrender : (Expr.property target op isStatic name).render.toList = target.render.toList ++
      ((memberOperator isStatic).toList ++ (memberText name name.render).toList) := by
    simp [render]
  rw [IsShown, hrender]
  refine Shows.suffixed ht (fun rest => ?_) ?_
  · rw [List.append_assoc]
    exact setOff_member isStatic _
  · filter_upwards [hn] with n hn
    intro rest hrest
    rw [List.append_assoc]
    exact suffix_member hop (hn rest hrest)

/-! ## Lists -/

theorem eventually_forall_mem {α : Type} {P : Nat → α → Prop} {xs : List α}
    (h : ∀ x ∈ xs, ∀ᶠ n in atTop, P n x) : ∀ᶠ n in atTop, ∀ x ∈ xs, P n x :=
  (eventually_all_finite (List.finite_toSet xs)).mpr h

theorem reads_element {element : Element} (h : ∀ e ∈ element.exprs, e.IsShown) :
    ∀ᶠ n in atTop, Reads (Outline.element (operand n)) enders element.render.toList
      element.shape.outline := by
  cases element with
  | item value =>
      filter_upwards [(h value List.mem_cons_self).reads] with n hn
      exact reads_item hn
  | pair key value =>
      simp only [Element.exprs, List.forall_mem_cons] at h
      filter_upwards [h.1.reads, h.2.1.reads] with n hkey hvalue
      rw [Element.toList_render_pair]
      exact reads_pair hkey hvalue

theorem reads_argument {a : Argument} (h : a.value.IsShown) :
    ∀ᶠ n in atTop, Reads (argument (operand n)) enders a.render.toList a.outlined := by
  obtain ⟨byRef, value⟩ := a
  filter_upwards [h.reads] with n hn
  cases byRef with
  | false =>
      have hrender : (Argument.mk false value).render.toList = value.render.toList := by
        simp [Argument.render]
      rw [hrender]
      exact reads_value hn
  | true =>
      have hrender : (Argument.mk true value).render.toList = '&' :: value.render.toList := by
        simp [Argument.render]
      rw [hrender]
      exact reads_reference hn (operand_eq_none (by decide) n)

theorem isShown_array {elements : List Element} (opening : Token)
    (h : ∀ x ∈ elements, ∀ e ∈ x.exprs, e.IsShown) : (Expr.array opening elements).IsShown := by
  have houtline : (Expr.array opening elements).shape.outline
      = .array ⟨.lbracket, "[", default⟩ (elements.map fun x => x.shape.outline) := by
    rw [← outlineElements_eq]
    rfl
  rw [IsShown, toList_render_array, houtline]
  refine .of_primary ?_
  filter_upwards [eventually_forall_mem fun x hx => reads_element (h x hx),
    eventually_gt_atTop elements.length] with n hn hlength
  intro rest _
  have hend : ∀ rest, Outline.element (operand n) (']' :: rest) = none := by
    intro rest
    unfold Outline.element
    rw [operand_eq_none (by decide) n rest]
    rfl
  have helements := separated_append hn (by decide) (by decide) hend hlength rest
  have htext : '[' :: List.intercalate [',', ' '] (elements.map fun x => x.render.toList)
      ++ [']'] ++ rest = '[' :: (List.intercalate [',', ' ']
      (elements.map fun x => x.render.toList) ++ ']' :: rest) := by
    simp
  rw [htext, primary_bracket, helements]
  rfl

/-- An expression with arguments behind it; a property is called as a method. -/
theorem shows_called {args : List Argument} (hc : callee.IsShown)
    (ha : ∀ a ∈ args, a.value.IsShown) :
    Shows (callee.render.toList ++ '(' :: (List.intercalate [',', ' ']
      (args.map fun a => a.render.toList) ++ [')']))
      (callee.shape.outline.called ⟨.lparen, "(", default⟩ (args.map Argument.outlined)) := by
  refine Shows.suffixed hc (fun rest => setOff_cons (by decide) _) ?_
  filter_upwards [eventually_forall_mem fun a h => reads_argument (ha a h),
    eventually_gt_atTop args.length] with n hn hlength
  intro rest _
  have hend : ∀ rest, argument (operand n) (')' :: rest) = none := by
    intro rest
    unfold argument
    rw [operand_eq_none (by decide) n rest]
    rfl
  have hargs := separated_append hn (by decide) (by decide) hend hlength rest
  have htext : '(' :: (List.intercalate [',', ' '] (args.map fun a => a.render.toList)
      ++ [')']) ++ rest = '(' :: (List.intercalate [',', ' ']
      (args.map fun a => a.render.toList) ++ ')' :: rest) := by
    simp
  rw [htext, suffix, hargs]
  rfl

theorem toList_arguments (args : List Argument) :
    ("(" ++ ", ".intercalate (renderArguments args) ++ ")").toList
      = '(' :: (List.intercalate [',', ' '] (args.map fun a => a.render.toList) ++ [')']) := by
  simp [renderArguments_eq, String.toList_intercalate, Function.comp_def]

theorem IsShown.call {args : List Argument} (hop : op.word = (.lparen, "("))
    (hc : callee.IsShown) (ha : ∀ a ∈ args, a.value.IsShown) :
    (Expr.call callee op args).IsShown := by
  have hrender : (Expr.call callee op args).render.toList = callee.render.toList ++
      ("(" ++ ", ".intercalate (renderArguments args) ++ ")").toList := by
    simp [render]
  have houtline : (Expr.call callee op args).shape.outline
      = callee.shape.outline.called ⟨.lparen, "(", default⟩ (args.map Argument.outlined) := by
    rw [← outlineArguments_eq, ← Token.unplaced_of_word hop]
    rfl
  rw [IsShown, hrender, houtline, toList_arguments]
  exact shows_called hc ha

theorem IsShown.methodCall {isStatic : Bool} {args : List Argument}
    (h : (Expr.property target op isStatic name).IsShown) (ha : ∀ a ∈ args, a.value.IsShown) :
    (Expr.methodCall target op isStatic name args).IsShown := by
  have hrender : (Expr.methodCall target op isStatic name args).render.toList
      = (Expr.property target op isStatic name).render.toList ++
        ("(" ++ ", ".intercalate (renderArguments args) ++ ")").toList := by
    simp [render]
  have houtline : (Expr.methodCall target op isStatic name args).shape.outline
      = (Expr.property target op isStatic name).shape.outline.called ⟨.lparen, "(", default⟩
        (args.map Argument.outlined) := by
    rw [← outlineArguments_eq]
    rfl
  rw [IsShown, hrender, houtline, toList_arguments]
  exact shows_called h ha

/-! ## Strings -/

theorem opensVariable_token (h : t.IsVariable) (rest : List Char) :
    opensVariable (t.text.toList ++ rest) = true := by
  obtain ⟨cs, htext, hname⟩ := h.exists_cons
  rw [htext, List.cons_append, opensVariable_cons (by decide)]
  cases cs with
  | nil => cases hname
  | cons c cs => exact hname

/-- A hole starts with the variable that leads it, behind the parentheses of operations. -/
theorem Legible.opensVariable_render (h : e.Legible) (hled : e.isLed = true) :
    ∀ rest, opensVariable (e.render.toList ++ rest) = true := by
  induction h with
  | literal | unary | cast | array | interpolation => cases hled
  | «variable» h => exact opensVariable_token h
  | binary _ _ _ ih | ternary _ _ _ _ ih | assign _ _ _ ih | instanceOf _ _ _ ih =>
      intro rest
      simp only [render, String.toList_append, List.append_assoc]
      exact ih hled _
  | access _ _ _ ih | property _ _ _ ih | methodCall _ _ _ _ ih | call _ _ _ ih =>
      intro rest
      simp only [render, String.toList_append, List.append_assoc]
      exact ih hled _

theorem IsEmbedded.opensVariable_render (h : e.IsEmbedded) (rest : List Char) :
    opensVariable (e.render.toList ++ rest) = true := by
  cases h with
  | alone hv => exact opensVariable_token hv rest
  | access hv | property hv =>
      simp only [render, String.toList_append, List.append_assoc]
      exact opensVariable_token hv _

theorem IsEmbedded.isShown (h : e.IsEmbedded) : e.IsShown := by
  cases h with
  | alone hv => exact (isLeaf_variable hv).isShown
  | access hv hbracket ho =>
      refine IsShown.access hbracket (isLeaf_variable hv).isShown ?_
      cases ho with
      | digits hdigits => exact (isLeaf_digits hdigits).isShown
      | negative hminus hdigits =>
          exact IsShown.unary (by simp [hminus]) (isLeaf_digits hdigits).isShown
      | sigil ho => exact (isLeaf_variable ho).isShown
      | word hk hname => exact (isLeaf_word (.inl hk) hname).isShown
  | @property v arrow name hv harrow hk hname =>
      refine IsShown.property harrow (isLeaf_variable hv).isShown ?_
      refine (isLeaf_word (.inr hk) hname).isMember ?_
      simp [bareName?, hk, TokenKind.isWord, render]

theorem isShown_interpolation {opening : Token} {parts : List Expr} (hopening : opening.IsQuote)
    (hruns : ∀ part ∈ parts, ∀ t ∈ part.fragment?, t.IsRun)
    (hled : ∀ part ∈ parts, part.IsHole → part.isLed = true)
    (hopens : ∀ part ∈ parts, part.IsHole → ∀ rest,
      opensVariable (part.render.toList ++ rest) = true)
    (hshown : ∀ part ∈ parts, part.IsHole → part.IsShown)
    (hchain : parts.IsChain fun a b => a.IsHole ∨ b.IsHole) (hhole : ∃ part ∈ parts, part.IsHole) :
    (Expr.interpolation opening parts).IsShown := by
  have hrender : (Expr.interpolation opening parts).render.toList
      = '"' :: ((renderParts parts).toList ++ ['"']) := by
    simp [render]
  have houtline : (Expr.interpolation opening parts).shape.outline
      = string (parts.map partOutline) := by
    obtain ⟨part, hmem, hpart⟩ := hhole
    rw [string_interpolation ⟨part, hmem, hpart, hled part hmem hpart⟩, ← outlineParts_eq,
      ← Token.unplaced_of_word (Prod.ext hopening.1 hopening.2 : opening.word = (.quote, "\""))]
    rfl
  have hholes : ∀ part ∈ parts, ∀ᶠ n in atTop, part.IsHole → IsHoleText (operand n) part := by
    intro part hmem
    by_cases hpart : part.IsHole
    · have hfragment : part.fragment? = none := hpart
      have houtline : part.partOutline = part.shape.outline := by
        rw [partOutline, hfragment, Option.isSome_none, if_neg Bool.false_ne_true]
      filter_upwards [(hshown part hmem hpart).reads] with n hn
      intro _
      exact ⟨hopens part hmem hpart, houtline ▸ hn⟩
    · exact .of_forall fun n h => absurd h hpart
  rw [IsShown, hrender, houtline]
  refine .of_primary ?_
  filter_upwards [eventually_forall_mem hholes, eventually_gt_atTop parts.length] with n hn hlength
  intro rest _
  have htext : '"' :: ((renderParts parts).toList ++ ['"']) ++ rest
      = '"' :: ((renderParts parts).toList ++ '"' :: rest) := by
    simp
  rw [htext, primary_quote, parts_append hruns hn hchain hlength rest]
  rfl

/-- **The outline of a legible expression is read off its text.** -/
theorem Legible.isShown (h : e.Legible) : e.IsShown := by
  induction h with
  | literal hk h =>
      rcases h with hoperand | hstring
      · exact (isLeaf_operand hk hoperand).isShown
      · exact isShown_closedString hstring
  | «variable» h => exact (isLeaf_variable h).isShown
  | unary hop _ ih => exact ih.unary hop
  | cast type hop _ ih => exact ih.cast hop type
  | binary hop _ _ ihl ihr => exact ihl.binary hop ihr
  | ternary hop _ _ _ ihc ihyes ihno => exact ihc.ternary hop ihyes ihno
  | assign hop _ _ iht ihv => exact iht.assign hop ihv
  | instanceOf hop _ _ ihv ihc => exact ihv.instanceOf hop ihc
  | access hop _ _ iht iho => exact iht.access hop iho
  | array opening _ ih => exact isShown_array opening ih
  | property hop _ hname iht ihn => exact iht.property hop (hname.isMember ihn)
  | methodCall hop _ hname _ iht ihn iha => exact (iht.property hop (hname.isMember ihn)).methodCall iha
  | call hop _ _ ihc iha => exact ihc.call hop iha
  | interpolation hopening hruns hled hholes hchain hhole ih =>
      refine isShown_interpolation hopening hruns hled (fun part hmem hpart => ?_)
        (fun part hmem hpart => ?_) hchain hhole
      · by_cases hembedded : part.IsEmbedded
        · exact hembedded.opensVariable_render
        · exact (hholes part hmem hpart hembedded).opensVariable_render (hled part hmem hpart)
      · by_cases hembedded : part.IsEmbedded
        · exact hembedded.isShown
        · exact ih part hmem hpart hembedded

end Nodes

end Expr

/-! ## Texts and outlines -/

/-- Expressions that are shown by one text have one outline. -/
theorem Expr.IsShown.outline_eq {t u : Expr} (ht : t.IsShown) (hu : u.IsShown)
    (h : t.render = u.render) : t.shape.outline = u.shape.outline := by
  obtain ⟨n, ht, hu⟩ := (ht.reads.and hu.reads).exists
  have hread := (ht ' ' (by decide) []).symm.trans (h ▸ hu ' ' (by decide) [])
  exact (Prod.mk.inj (Option.some.inj hread)).1

/-- **The text of a tree tells its outline, and no more**: of two trees that are parsed, the texts
are equal if and only if the trees are equal but for the places of tokens, the case of word
operators, the spelling of casts, the form of arrays, calls of properties against calls of methods,
and words in strings against words in code. -/
theorem render_eq_iff {limit limit' : Nat} {source source' : String} {t u : Expr}
    (ht : Expr.parse limit source = .ok t) (hu : Expr.parse limit' source' = .ok u) :
    t.render = u.render ↔ t.shape.outline = u.shape.outline := by
  have ht := legible_of_parse ht
  have hu := legible_of_parse hu
  constructor
  · intro h
    exact ht.isShown.outline_eq hu.isShown h
  · intro h
    rw [← ht.render_outline, ← hu.render_outline, h]

/-- An access to an offset in a string, with a number of braces in front. -/
def embeddedAccess (braces : Nat) (kind : TokenKind) : Expr :=
  .interpolation ⟨.quote, "\"", ⟨0, 1, 1, 1⟩⟩
    [.access (.variable ⟨.variable, "$a", ⟨1 + braces, 2, 1, 2 + braces⟩⟩)
      ⟨.lbracket, "[", ⟨3 + braces, 1, 1, 4 + braces⟩⟩
      (.literal ⟨kind, "true", ⟨4 + braces, 4, 1, 5 + braces⟩⟩)]

/-- Without braces the offset is a word in a string, within braces it is a boolean. -/
theorem embedded_words_render_alike :
    Expr.parse 12 "\"$a[true]\"" = .ok (embeddedAccess 0 .fragment) ∧
    Expr.parse 12 "\"\x7b$a[true]\x7d\"" = .ok (embeddedAccess 1 .bool) ∧
    ((embeddedAccess 0 .fragment).render = (embeddedAccess 1 .bool).render ↔
      (embeddedAccess 0 .fragment).shape.outline = (embeddedAccess 1 .bool).shape.outline) ∧
    (embeddedAccess 0 .fragment).render = (embeddedAccess 1 .bool).render := by
  have hword : Expr.parse 12 "\"$a[true]\"" = .ok (embeddedAccess 0 .fragment) := by cbv
  have hbool : Expr.parse 12 "\"\x7b$a[true]\x7d\"" = .ok (embeddedAccess 1 .bool) := by cbv
  have hiff := render_eq_iff hword hbool
  refine ⟨hword, hbool, hiff, hiff.mpr ?_⟩
  have hkeyword : keyword? "true" = some .bool := rfl
  simp [embeddedAccess, Expr.shape, Expr.outline, shapeParts, outlineParts, Token.unplaced,
    Token.asWord, TokenKind.isWord, hkeyword, Expr.fragment?]

/-- A call of what the property `b` of `$a` holds. -/
def calledProperty : Expr :=
  .call (.property (.variable ⟨.variable, "$a", ⟨1, 2, 1, 2⟩⟩) ⟨.arrow, "->", ⟨3, 2, 1, 4⟩⟩ false
    (.literal ⟨.identifier, "b", ⟨5, 1, 1, 6⟩⟩)) ⟨.lparen, "(", ⟨7, 1, 1, 8⟩⟩
    [.mk false (.literal ⟨.integer, "1", ⟨8, 1, 1, 9⟩⟩)]

/-- A call of the method `b` of `$a`. -/
def calledMethod : Expr :=
  .methodCall (.variable ⟨.variable, "$a", ⟨0, 2, 1, 1⟩⟩) ⟨.arrow, "->", ⟨2, 2, 1, 3⟩⟩ false
    (.literal ⟨.identifier, "b", ⟨4, 1, 1, 5⟩⟩) [.mk false (.literal ⟨.integer, "1", ⟨6, 1, 1, 7⟩⟩)]

/-- The parentheses around a callee are lost, and with them the shape of the tree. -/
theorem called_property_renders_as_method :
    Expr.parse 12 "($a->b)(1)" = .ok calledProperty ∧
    Expr.parse 12 "$a->b(1)" = .ok calledMethod ∧
    calledProperty.render = calledMethod.render ∧ calledProperty.shape ≠ calledMethod.shape := by
  have hproperty : Expr.parse 12 "($a->b)(1)" = .ok calledProperty := by cbv
  have hmethod : Expr.parse 12 "$a->b(1)" = .ok calledMethod := by cbv
  refine ⟨hproperty, hmethod, rfl, ?_⟩
  intro h
  cases h

end GuardedExpr
