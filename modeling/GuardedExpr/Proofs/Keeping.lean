/-
# Keeping — what holds of everything that the parser builds, and of its errors

`p.Keeps P E Q` says three things of a parser in front of tokens that have the property
`P`: what is left has the property, an error satisfies `E` and a result satisfies `Q`.
It is kept by sequencing, so the rules of the grammar are gone through one by one,
whatever the limit on nesting.

They are gone through once.  A tree keeps tokens of the input, and the operators of its
nodes are among those of the rules that read them (`Expr.IsFormed`).  Which errors there
are is what `Grammar.Faults` lists: each is about one token, and what it demands is
among the demands of the rules.
-/
import GuardedExpr.Proofs.HostProtocol
import GuardedExpr.Proofs.ParserResult
import GuardedExpr.Proofs.Reading

namespace GuardedExpr

/-- The tokens from the cursor on have the property. -/
def TokenStream.Consists (P : Token → Prop) (s : TokenStream) : Prop := ∀ t ∈ s.remaining, P t

theorem TokenStream.Consists.advance {P : Token → Prop} {s : TokenStream} (h : s.Consists P) :
    s.advance.Consists P := by
  obtain ⟨passed, current, ahead⟩ := s
  intro t ht
  refine h t ?_
  unfold TokenStream.advance at ht
  split at ht
  · exact ht
  · cases ahead with
    | nil => exact ht
    | cons u ahead => exact List.mem_cons_of_mem _ ht

theorem TokenStream.consists_ofList {P : Token → Prop} {ts : List Token} (h : ∀ t ∈ ts, P t)
    (hne : ts ≠ []) : (ofList ts).Consists P := by
  obtain ⟨t, ts, rfl⟩ := List.exists_cons_of_ne_nil hne
  exact h

theorem TokenStream.Consists.current {P : Token → Prop} {s : TokenStream} (h : s.Consists P) :
    P s.current := h _ List.mem_cons_self

/-! ## Trees and errors -/

/-- The kinds of token that a rule makes binary operators of. -/
def Grammar.Rule.operators : Grammar.Rule → List TokenKind
  | .left ops => ops
  | .right op => [op]
  | .ternary => []

namespace Expr

/-- All nodes of the expression have tokens with the property. -/
def Everywhere (P : Token → Prop) (e : Expr) : Prop := ∀ x : Expr, x.Within e → P x.token

/-- The operator of the node is one that the grammar has for such a node, and a type is the one
that the token of the cast names. -/
def IsFormed : Expr → Prop
  | .unary op _ => op.kind ∈ [.minus, .plus, .bang]
  | .cast op type _ => CastType.ofText? op.text = some type
  | .binary _ op _ => ∃ r ∈ Grammar.rules, op.kind ∈ r.operators
  | _ => True

/-- All nodes of the expression are formed by the grammar, of tokens with the property. -/
def Formed (P : Token → Prop) (e : Expr) : Prop :=
  ∀ x : Expr, x.Within e → P x.token ∧ x.IsFormed

theorem Formed.everywhere {P : Token → Prop} {e : Expr} (h : e.Formed P) : e.Everywhere P :=
  fun x hx => (h x hx).1

theorem formed_node {P : Token → Prop} {e : Expr} (ht : P e.token) (hformed : e.IsFormed)
    (h : ∀ x ∈ e.operands, x.Formed P) : e.Formed P := by
  intro x hx
  cases hx with
  | refl => exact ⟨ht, hformed⟩
  | operand hy hx => exact h _ hy x hx

end Expr

namespace Grammar

/-- What a rule says to expect where it cannot go on. -/
inductive Demand : String → Prop
  | listed {text : String} : text ∈ ["',' or ')'", "',' or ']'", "integer", "array offset", "']'",
      "property name", "'\x7d'", "closing '\"'", "')'", "'(' after 'array'", "expression", "':'",
      "end of input"] → Demand text
  | behindName (name : String) : Demand ("'(' or '::' after name '" ++ name ++ "'")
  | behindOperator (op : String) : Demand ("identifier after '" ++ op ++ "'")

/-- The errors of the parsers are about tokens with the property: one that is too deep, one where a
rule demands another, and a cast that names no type. -/
structure Faults (limit : Nat) (P : Token → Prop) (E : ParseError → Prop) : Prop where
  tooDeep : ∀ t, P t → E ⟨.tooDeep t.text limit, t.location⟩
  unexpected : ∀ t expected, P t → Demand expected →
    E ⟨.unexpectedToken t.text expected, t.location⟩
  ended : ∀ t expected, P t → t.kind = .eof → Demand expected →
    E ⟨.unexpectedEnd expected, t.location⟩
  castType : ∀ t, P t → t.kind = .cast → CastType.ofText? t.text = none →
    E ⟨.unexpectedToken t.text "cast type", t.location⟩

theorem Faults.at_current {limit : Nat} {P : Token → Prop} {E : ParseError → Prop}
    (h : Faults limit P E) {s : TokenStream} (hs : s.Consists P) {expected : String}
    (hd : Demand expected) : E (s.unexpected expected) := by
  unfold TokenStream.unexpected
  dsimp only
  split
  · next heof => exact h.ended _ _ hs.current heof hd
  · exact h.unexpected _ _ hs.current hd

end Grammar

namespace Parser

open Grammar

variable {α β γ : Type} {P : Token → Prop} {E : ParseError → Prop} {Q : α → Prop} {R : β → Prop}

/-- In front of tokens with the property `P` the parser leaves such tokens, its results satisfy
`Q`, and its errors satisfy `E`. -/
def Keeps (P : Token → Prop) (E : ParseError → Prop) (p : Parser α) (Q : α → Prop) : Prop :=
  ∀ s, s.Consists P → (∀ e, p s = .error e → E e) ∧
    ∀ a s', p s = .ok (a, s') → s'.Consists P ∧ Q a

theorem keeps_pure {a : α} (h : Q a) : Keeps P E (pure a : Parser α) Q := by
  intro s hs
  refine ⟨fun e hr => (by cases hr), fun b s' hr => ?_⟩
  cases hr
  exact ⟨hs, h⟩

theorem keeps_fail {e : ParseError} (h : E e) : Keeps P E (fail e : Parser α) Q := by
  intro s hs
  refine ⟨fun e' hr => ?_, fun a s' hr => (by cases hr)⟩
  cases hr
  exact h

theorem keeps_bind {p : Parser α} {f : α → Parser β} (hp : Keeps P E p Q)
    (hf : ∀ a, Q a → Keeps P E (f a) R) : Keeps P E (p >>= f) R := by
  intro s hs
  obtain ⟨herror, hok⟩ := hp s hs
  simp only [bind, andThen]
  cases hr : p s with
  | error e =>
      refine ⟨fun e' he' => ?_, fun b s' hb => (by cases hb)⟩
      cases he'
      exact herror e hr
  | ok result =>
      obtain ⟨hs', ha⟩ := hok _ _ hr
      exact hf _ ha _ hs'

theorem keeps_peek : Keeps P E peek P := by
  intro s hs
  refine ⟨fun e hr => (by cases hr), fun t s' hr => ?_⟩
  cases hr
  exact ⟨hs, hs.current⟩

theorem keeps_next : Keeps P E next P := by
  intro s hs
  refine ⟨fun e hr => (by cases hr), fun t s' hr => ?_⟩
  cases hr
  exact ⟨hs.advance, hs.current⟩

theorem keeps_accept (kinds : List TokenKind) :
    Keeps P E (accept kinds) fun o => ∀ t ∈ o, P t ∧ t.kind ∈ kinds := by
  intro s hs
  unfold accept TokenStream.take?
  split
  · next t s₁ htake =>
      split at htake
      · next hkind =>
          cases htake
          refine ⟨fun e hr => (by cases hr), fun o s' hr => ?_⟩
          cases hr
          exact ⟨hs.advance, by simpa using ⟨hs.current, List.contains_iff_mem.mp hkind⟩⟩
      · cases htake
  · refine ⟨fun e hr => (by cases hr), fun o s' hr => ?_⟩
    cases hr
    exact ⟨hs, by simp⟩

/-- What goes on in two ways, with an optional token or without. -/
theorem keeps_optional {kinds : List TokenKind} {f : Option Token → Parser β}
    (hnone : Keeps P E (f none) R) (hsome : ∀ t, P t → t.kind ∈ kinds → Keeps P E (f (some t)) R) :
    Keeps P E (accept kinds >>= f) R := by
  refine keeps_bind (keeps_accept kinds) fun o ho => ?_
  cases o with
  | none => exact hnone
  | some t => exact hsome t (ho t rfl).1 (ho t rfl).2

section Errors

variable {limit : Nat} (hE : Faults limit P E) {expected : String} (hd : Demand expected)

include hE hd

theorem keeps_unexpected : Keeps P E (unexpected expected : Parser α) Q := by
  intro s hs
  refine ⟨fun e hr => ?_, fun a s' hr => (by cases hr)⟩
  cases hr
  exact hE.at_current hs hd

theorem keeps_expect (kind : TokenKind) : Keeps P E (expect kind expected) P := by
  intro s hs
  unfold expect TokenStream.expect
  split
  · refine ⟨fun e hr => (by cases hr), fun t s' hr => ?_⟩
    cases hr
    exact ⟨hs.advance, hs.current⟩
  · refine ⟨fun e hr => ?_, fun t s' hr => (by cases hr)⟩
    cases hr
    exact hE.at_current hs hd

end Errors

end Parser

/-! ## The grammar -/

namespace Grammar

open GuardedExpr.Parser GuardedExpr.Expr

variable {P : Token → Prop} {E : ParseError → Prop}

/-- The parsers one level further in keep the tokens of the input, and their errors satisfy `E`.
The rules that they are asked for are those of the grammar. -/
structure Inner.Keeps (P : Token → Prop) (E : ParseError → Prop) (inner : Inner) : Prop where
  level : ∀ {rs}, rs ⊆ rules → Parser.Keeps P E (inner.level rs) (Formed P)
  assignment : Parser.Keeps P E inner.assignment (Formed P)
  chain : ∀ {ops tighter e op}, .left ops ∈ rules → tighter ⊆ rules → e.Formed P → P op →
    op.kind ∈ ops → Parser.Keeps P E (inner.chain ops tighter e op) (Formed P)
  classOperand : ∀ {e op}, e.Formed P → P op →
    Parser.Keeps P E (inner.classOperand e op) (Formed P)
  suffix : ∀ {e}, e.Formed P → Parser.Keeps P E (inner.suffix e) (Formed P)

theorem exhausted_keeps {limit : Nat} (hE : Faults limit P E) : (exhausted limit).Keeps P E := by
  have htooDeep : ∀ {α : Type} {Q : α → Prop}, Parser.Keeps P E (tooDeep limit : Parser α) Q := by
    intro α Q s hs
    refine ⟨fun e hr => ?_, fun a s' hr => (by cases hr)⟩
    cases hr
    exact hE.tooDeep _ hs.current
  constructor <;> intros <;> exact htooDeep

theorem formed_literal {t : Token} (ht : P t) : (Expr.literal t).Formed P :=
  formed_node ht trivial (by simp [operands])

theorem formed_variable {t : Token} (ht : P t) : (Expr.variable t).Formed P :=
  formed_node ht trivial (by simp [operands])

section Rules

variable {limit : Nat} {inner : Inner} (h : inner.Keeps P E) (hE : Faults limit P E)

include h hE

/-! ### Lists -/

omit h hE in
theorem keeps_moreItems {α : Type} {x : α} {more : Parser (List α)} {Q : α → Prop} (hx : Q x)
    (hmore : Parser.Keeps P E more fun items => ∀ y ∈ items, Q y) :
    Parser.Keeps P E (moreItems x more) fun items => ∀ y ∈ items, Q y := by
  refine keeps_optional (keeps_pure (by simpa using hx)) fun _ _ _ => ?_
  exact keeps_bind hmore fun rest hrest => keeps_pure (by simpa using ⟨hx, hrest⟩)

omit hE in
theorem argumentItems_keeps (most : Nat) :
    Parser.Keeps P E (argumentItems inner most) fun args => ∀ a ∈ args, a.value.Formed P := by
  induction most with
  | zero => exact keeps_pure (by simp)
  | succ most ih =>
      refine keeps_bind keeps_peek fun t ht => ?_
      split
      · exact keeps_pure (by simp)
      · refine keeps_bind (keeps_accept _) fun mark hmark => ?_
        refine keeps_bind h.assignment fun value hvalue => ?_
        exact keeps_moreItems (x := Argument.mk mark.isSome value) hvalue ih

theorem arguments_keeps :
    Parser.Keeps P E (arguments inner) fun args => ∀ a ∈ args, a.value.Formed P := by
  intro s
  refine keeps_bind (argumentItems_keeps h _) (fun args hargs => ?_) s
  exact keeps_bind (keeps_expect hE (.listed (by decide)) _) fun _ _ => keeps_pure hargs

omit hE in
theorem elementItems_keeps (close : TokenKind) (most : Nat) :
    Parser.Keeps P E (elementItems inner close most)
      fun elements => ∀ x ∈ elements, ∀ e ∈ x.operands, e.Formed P := by
  induction most with
  | zero => exact keeps_pure (by simp)
  | succ most ih =>
      refine keeps_bind keeps_peek fun t ht => ?_
      split
      · exact keeps_pure (by simp)
      · refine keeps_bind h.assignment fun first hfirst => ?_
        refine keeps_optional ?_ fun _ _ _ => ?_
        · exact keeps_moreItems (x := .item first) (by simpa [Element.operands] using hfirst) ih
        · refine keeps_bind h.assignment fun value hvalue => ?_
          refine keeps_moreItems (x := .pair first value) ?_ ih
          simpa [Element.operands] using ⟨hfirst, hvalue⟩

theorem arrayElements_keeps (close : TokenKind) {expected : String} (hd : Demand expected) :
    Parser.Keeps P E (arrayElements inner close expected)
      fun elements => ∀ x ∈ elements, ∀ e ∈ x.operands, e.Formed P := by
  intro s
  refine keeps_bind (elementItems_keeps h close _) (fun elements helements => ?_) s
  exact keeps_bind (keeps_expect hE hd _) fun _ _ => keeps_pure helements

/-! ### Strings with embedded expressions -/

omit h in
theorem embeddedOffset_keeps : Parser.Keeps P E embeddedOffset (Formed P) := by
  refine keeps_bind keeps_next fun t ht => ?_
  split
  · next hkind =>
      refine keeps_bind (keeps_expect hE (.listed (by decide)) _) fun digits hdigits => ?_
      refine keeps_pure ?_
      refine formed_node ht (by simp [IsFormed, hkind]) ?_
      simpa [operands] using formed_literal hdigits
  · exact keeps_pure (formed_literal ht)
  · exact keeps_pure (formed_literal ht)
  · exact keeps_pure (formed_variable ht)
  · exact keeps_fail (hE.unexpected t _ ht (.listed (by decide)))

omit h in
theorem embeddedVariable_keeps {var : Token} (hvar : P var) :
    Parser.Keeps P E (embeddedVariable var) (Formed P) := by
  refine keeps_optional ?_ fun bracket hbracket _ => ?_
  · refine keeps_optional (keeps_pure (formed_variable hvar)) fun op hop _ => ?_
    refine keeps_bind (keeps_expect hE (.listed (by decide)) _) fun name hname => keeps_pure ?_
    refine formed_node hop trivial ?_
    simpa [operands] using ⟨formed_variable hvar, formed_literal hname⟩
  · refine keeps_bind (embeddedOffset_keeps hE) fun offset hoffset => ?_
    refine keeps_bind (keeps_expect hE (.listed (by decide)) _) fun _ _ => keeps_pure ?_
    refine formed_node hbracket trivial ?_
    simpa [operands] using ⟨formed_variable hvar, hoffset⟩

theorem partItems_keeps (most : Nat) :
    Parser.Keeps P E (partItems inner most) fun parts => ∀ e ∈ parts, e.Formed P := by
  induction most with
  | zero => exact keeps_pure (by simp)
  | succ most ih =>
      refine keeps_bind keeps_peek fun t ht => ?_
      split
      · refine keeps_bind keeps_next fun _ _ => keeps_bind ih fun rest hrest => keeps_pure ?_
        simpa using ⟨formed_literal ht, hrest⟩
      · refine keeps_bind keeps_next fun _ _ => ?_
        refine keeps_bind (embeddedVariable_keeps hE ht) fun part hpart => ?_
        exact keeps_bind ih fun rest hrest => keeps_pure (by simpa using ⟨hpart, hrest⟩)
      · refine keeps_bind keeps_next fun _ _ => ?_
        refine keeps_bind h.assignment fun part hpart => ?_
        refine keeps_bind (keeps_expect hE (.listed (by decide)) _) fun _ _ => ?_
        exact keeps_bind ih fun rest hrest => keeps_pure (by simpa using ⟨hpart, hrest⟩)
      · exact keeps_pure (by simp)

theorem interpolation_keeps {opening : Token} (hopening : P opening) :
    Parser.Keeps P E (interpolation inner opening) (Formed P) := by
  intro s
  refine keeps_bind (partItems_keeps h hE _) (fun parts hparts => ?_) s
  refine keeps_bind (keeps_expect hE (.listed (by decide)) _) fun _ _ => keeps_pure ?_
  exact formed_node hopening trivial hparts

/-! ### Operands -/

theorem primary_keeps : Parser.Keeps P E (primary inner) (Formed P) := by
  refine keeps_bind keeps_peek fun t ht => ?_
  have hliteral : Parser.Keeps P E (next >>= fun _ => pure (Expr.literal t)) (Formed P) :=
    keeps_bind keeps_next fun _ _ => keeps_pure (formed_literal ht)
  have harray : ∀ close {expected}, Demand expected → Parser.Keeps P E (do
      let elements ← arrayElements inner close expected
      pure (Expr.array t elements)) (Formed P) := by
    intro close expected hd
    refine keeps_bind (arrayElements_keeps h hE close hd) fun elements helements => ?_
    refine keeps_pure (formed_node ht trivial ?_)
    simpa [operands] using fun e x hx he => helements x hx e he
  split
  · exact hliteral
  · exact hliteral
  · exact hliteral
  · exact hliteral
  · exact hliteral
  · exact keeps_bind keeps_next fun _ _ => keeps_pure (formed_variable ht)
  · refine keeps_bind keeps_next fun _ _ => keeps_bind h.assignment fun e he => ?_
    exact keeps_bind (keeps_expect hE (.listed (by decide)) _) fun _ _ => keeps_pure he
  · exact keeps_bind keeps_next fun _ _ => interpolation_keeps h hE ht
  · exact keeps_bind keeps_next fun _ _ => harray _ (.listed (by decide))
  · refine keeps_bind keeps_next fun _ _ => ?_
    exact keeps_bind (keeps_expect hE (.listed (by decide)) _) fun _ _ => harray _ (.listed (by decide))
  · refine keeps_bind keeps_next fun _ _ => keeps_bind keeps_peek fun follower _ => ?_
    split
    · exact keeps_pure (formed_literal ht)
    · exact keeps_unexpected hE (.behindName t.text)
  · exact keeps_unexpected hE (.listed (by decide))

theorem memberName_keeps (op : Token) (isStatic : Bool) :
    Parser.Keeps P E (memberName inner op isStatic) (Formed P) := by
  refine keeps_bind keeps_peek fun t ht => ?_
  split
  · exact keeps_bind keeps_next fun _ _ => keeps_pure (formed_literal ht)
  · split
    · exact keeps_bind keeps_next fun _ _ => keeps_pure (formed_variable ht)
    · split
      · refine keeps_bind keeps_next fun _ _ => keeps_bind h.assignment fun name hname => ?_
        exact keeps_bind (keeps_expect hE (.listed (by decide)) _) fun _ _ => keeps_pure hname
      · exact keeps_unexpected hE (.behindOperator op.text)

theorem member_keeps {target : Expr} {op : Token} (htarget : target.Formed P) (hop : P op)
    (isStatic : Bool) : Parser.Keeps P E (member inner target op isStatic) (Formed P) := by
  refine keeps_bind (memberName_keeps h hE op isStatic) fun name hname => ?_
  refine keeps_optional ?_ fun _ _ _ => ?_
  · exact keeps_pure (formed_node hop trivial (by simpa [operands] using ⟨htarget, hname⟩))
  · refine keeps_bind (arguments_keeps h hE) fun args hargs => keeps_pure ?_
    exact formed_node hop trivial (by simpa [operands] using ⟨htarget, hname, hargs⟩)

omit hE in
theorem moreSuffixes_keeps {e : Expr} (he : e.Formed P) :
    Parser.Keeps P E (moreSuffixes inner e) (Formed P) := by
  refine keeps_bind keeps_peek fun t _ => ?_
  split
  · exact h.suffix he
  · exact keeps_pure he

theorem suffix_keeps {e : Expr} (he : e.Formed P) :
    Parser.Keeps P E (suffix inner e) (Formed P) := by
  have hmore : ∀ whole : Expr, whole.Formed P →
      Parser.Keeps P E (moreSuffixes inner whole) (Formed P) := fun _ => moreSuffixes_keeps h
  refine keeps_bind keeps_next fun t ht => ?_
  dsimp only
  split
  · exact keeps_bind (member_keeps h hE he ht true) hmore
  · exact keeps_bind (member_keeps h hE he ht false) hmore
  · refine keeps_bind h.assignment fun offset hoffset => ?_
    refine keeps_bind (keeps_expect hE (.listed (by decide)) _) fun _ _ => ?_
    refine hmore (.access e t offset) ?_
    exact formed_node ht trivial (by simpa [operands] using ⟨he, hoffset⟩)
  · refine keeps_bind (arguments_keeps h hE) fun args hargs => hmore (.call e t args) ?_
    exact formed_node ht trivial (by simpa [operands] using ⟨he, hargs⟩)

theorem operand_keeps : Parser.Keeps P E (operand inner) (Formed P) :=
  keeps_bind (primary_keeps h hE) fun _ he => moreSuffixes_keeps h he

omit hE in
theorem moreInstanceOf_keeps {e : Expr} (he : e.Formed P) :
    Parser.Keeps P E (moreInstanceOf inner e) (Formed P) :=
  keeps_optional (keeps_pure he) fun _ hop _ => h.classOperand he hop

theorem classOperand_keeps {value : Expr} {op : Token} (hvalue : value.Formed P) (hop : P op) :
    Parser.Keeps P E (classOperand inner value op) (Formed P) := by
  have hmore : ∀ cls : Expr, cls.Formed P →
      Parser.Keeps P E (moreInstanceOf inner (.instanceOf value op cls)) (Formed P) :=
    fun cls hcls => moreInstanceOf_keeps h
      (formed_node hop trivial (by simpa [operands] using ⟨hvalue, hcls⟩))
  refine keeps_optional ?_ fun name hname _ => ?_
  · exact keeps_bind (operand_keeps h hE) hmore
  · exact hmore _ (formed_literal hname)

theorem instanceOf_keeps : Parser.Keeps P E (instanceOf inner) (Formed P) :=
  keeps_bind (operand_keeps h hE) fun _ he => moreInstanceOf_keeps h he

/-! ### Operators -/

theorem unary_keeps : Parser.Keeps P E (unary inner) (Formed P) := by
  refine keeps_optional ?_ fun op hop hkind => ?_
  · refine keeps_optional (instanceOf_keeps h hE) fun op hop hkind => ?_
    dsimp only
    split
    · next type htype =>
        refine keeps_bind (h.level (List.nil_subset _)) fun e he => keeps_pure ?_
        exact formed_node hop htype (by simpa [operands] using he)
    · next hnone =>
        exact keeps_fail (hE.castType op hop (List.mem_singleton.mp hkind) hnone)
  · refine keeps_bind (h.level (List.nil_subset _)) fun e he => keeps_pure ?_
    exact formed_node hop hkind (by simpa [operands] using he)

section Levels

variable {ops : List TokenKind} {tighter : List Rule}

omit hE in
theorem moreChain_keeps (hops : .left ops ∈ rules) (htighter : tighter ⊆ rules) {e : Expr}
    (he : e.Formed P) : Parser.Keeps P E (moreChain inner ops tighter e) (Formed P) :=
  keeps_optional (keeps_pure he) fun _ hop hkind => h.chain hops htighter he hop hkind

theorem level_keeps {rs : List Rule} (hrs : rs ⊆ rules) :
    Parser.Keeps P E (level inner rs) (Formed P) := by
  induction rs with
  | nil => exact unary_keeps h hE
  | cons r tighter ih =>
      obtain ⟨hr, htighter⟩ := List.cons_subset.mp hrs
      cases r with
      | left ops => exact keeps_bind (ih htighter) fun e he => moreChain_keeps h hr htighter he
      | right op =>
          refine keeps_bind (ih htighter) fun e he => ?_
          refine keeps_optional (keeps_pure he) fun t ht hkind => ?_
          refine keeps_bind (h.level hrs) fun right hright => keeps_pure ?_
          exact formed_node ht ⟨_, hr, hkind⟩ (by simpa [operands] using ⟨he, hright⟩)
      | ternary =>
          refine keeps_bind (ih htighter) fun e he => ?_
          refine keeps_optional (keeps_pure he) fun t ht _ => ?_
          refine keeps_bind (h.level hrs) fun yes hyes => ?_
          refine keeps_bind (keeps_expect hE (.listed (by decide)) _) fun _ _ => ?_
          refine keeps_bind (h.level hrs) fun no hno => keeps_pure ?_
          exact formed_node ht trivial (by simpa [operands] using ⟨he, hyes, hno⟩)

theorem chain_keeps {left : Expr} {op : Token} (hops : .left ops ∈ rules)
    (htighter : tighter ⊆ rules) (hleft : left.Formed P) (hop : P op) (hkind : op.kind ∈ ops) :
    Parser.Keeps P E (chain inner ops tighter left op) (Formed P) := by
  refine keeps_bind (level_keeps h hE htighter) fun right hright => ?_
  refine moreChain_keeps h hops htighter (formed_node hop ⟨_, hops, hkind⟩ ?_)
  simpa [operands] using ⟨hleft, hright⟩

end Levels

theorem assignment_keeps : Parser.Keeps P E (assignment inner) (Formed P) := by
  have hrules : rules.reverse ⊆ rules := fun r hr => List.mem_reverse.mp hr
  refine keeps_bind (level_keeps h hE hrules) fun target htarget => ?_
  refine keeps_optional (keeps_pure htarget) fun op hop _ => ?_
  refine keeps_bind h.assignment fun value hvalue => keeps_pure ?_
  exact formed_node hop trivial (by simpa [operands] using ⟨htarget, hvalue⟩)

theorem around_keeps : (around inner).Keeps P E where
  level := level_keeps h hE
  assignment := assignment_keeps h hE
  chain := chain_keeps h hE
  classOperand := classOperand_keeps h hE
  suffix := suffix_keeps h hE

end Rules

/-- **The parsers keep the tokens of the input**, at whatever depth. -/
theorem ofDepth_keeps {limit : Nat} (hE : Faults limit P E) (depth : Nat) :
    (ofDepth limit depth).Keeps P E := by
  induction depth with
  | zero => exact exhausted_keeps hE
  | succ depth ih => exact around_keeps ih hE

end Grammar

/-- So does the parsing of a whole list of tokens. -/
theorem Expr.ofTokens_keeps {limit : Nat} {P : Token → Prop} {E : ParseError → Prop}
    (hE : Grammar.Faults limit P E) {ts : List Token} (hts : (TokenStream.ofList ts).Consists P) :
    (∀ e, Expr.ofTokens limit ts = .error e → E e) ∧
      ∀ tree, Expr.ofTokens limit ts = .ok tree → tree.Formed P := by
  obtain ⟨herror, hok⟩ := (Grammar.ofDepth_keeps hE limit).assignment (.ofList ts) hts
  unfold Expr.ofTokens Expr.ofStream
  cases hr : Grammar.expression (Grammar.ofDepth limit limit) (.ofList ts) with
  | error e =>
      refine ⟨fun e' he' => ?_, fun tree htree => (by cases htree)⟩
      cases he'
      exact herror e hr
  | ok result =>
      obtain ⟨hrest, htree⟩ := hok _ _ hr
      dsimp only
      split
      · refine ⟨fun e he => (by cases he), fun tree' htree' => ?_⟩
        cases htree'
        exact htree
      · refine ⟨fun e he => ?_, fun tree' htree' => (by cases htree')⟩
        cases he
        exact hE.at_current hrest (.listed (by decide))

end GuardedExpr
