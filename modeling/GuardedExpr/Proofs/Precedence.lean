/-
# Precedence — operator chains have one reading

Variables with signs in front of them, joined by binary operators, are read as one
tree: the one whose leaves and operators stand in the order of the input, whose
signs bind tighter than any binary operator, and in which tighter operators stand
below looser ones, equal ones as their level groups them.

The table of levels is `TokenKind.tightness`, on its own; that the rules of the
parser go by this table is `rules_ladder`.  The parser finds every tree of the
kind on its own tokens (`takes_level`), so there is at most one for each chain.
There is one because an operator with one more operand can be attached on the
right edge of a tree, below what is looser and above what is tighter
(`Expr.attach`).
-/
import GuardedExpr.Proofs.Reading

namespace GuardedExpr

namespace TokenKind

/-- How tightly a binary operator binds, from the loosest on; nothing else does. -/
def tightness : TokenKind → Nat
  | .or => 1
  | .xor => 2
  | .and => 3
  | .coalesce => 4
  | .orOr => 5
  | .andAnd => 6
  | .equal | .notEqual | .identical | .notIdentical | .spaceship => 7
  | .less | .lessEqual | .greater | .greaterEqual => 8
  | .dot => 9
  | .plus | .minus => 10
  | .star | .slash | .percent => 11
  | .starStar => 12
  | _ => 0

/-- Whether operators of the level group to the right. -/
def groupsRight : TokenKind → Bool
  | .coalesce | .starStar => true
  | _ => false

/-- The operators that may stand in front of an operand. -/
def isSign : TokenKind → Bool
  | .minus | .plus | .bang => true
  | _ => false

/-- The operator `k` may stand below the operator `p`, on its left. -/
def AdmitsLeft (p k : TokenKind) : Prop :=
  p.tightness < k.tightness ∨ (k.tightness = p.tightness ∧ p.groupsRight = false)

/-- The operator `k` may stand below the operator `p`, on its right. -/
def AdmitsRight (p k : TokenKind) : Prop :=
  p.tightness < k.tightness ∨ (k.tightness = p.tightness ∧ p.groupsRight = true)

instance (p k : TokenKind) : Decidable (AdmitsRight p k) :=
  inferInstanceAs (Decidable (_ ∨ _))

theorem groupsRight_iff (k : TokenKind) :
    k.groupsRight = true ↔ k.tightness = 4 ∨ k.tightness = 12 := by
  cases k <;> decide

theorem mem_all (k : TokenKind) : k ∈ all := by cases k <;> decide

theorem tightness_lt (k : TokenKind) : k.tightness < 13 := by cases k <;> decide

/-- Of two operators one can stand below the other. -/
theorem admitsLeft_of_not_admitsRight {p k : TokenKind} (h : ¬ p.AdmitsRight k) :
    k.AdmitsLeft p := by
  have hp := p.groupsRight_iff
  have hk := k.groupsRight_iff
  simp only [AdmitsRight, AdmitsLeft, not_or, not_and, Bool.not_eq_true] at h ⊢
  rcases Nat.lt_or_ge k.tightness p.tightness with hlt | hge
  · exact .inl hlt
  · have heq : k.tightness = p.tightness := by omega
    refine .inr ⟨heq.symm, ?_⟩
    rw [Bool.eq_false_iff, Ne, hk, heq, ← hp, Bool.not_eq_true]
    exact h.2 heq

end TokenKind

/-! ## Chains -/

/-- A variable behind any number of signs. -/
structure SignedVariable where
  signs : List Token
  name : Token
  signs_isSign : ∀ t ∈ signs, t.kind.isSign = true
  name_kind : name.kind = .variable

/-- A binary operator and the operand on its right. -/
structure ChainLink where
  op : Token
  operand : SignedVariable
  op_isBinary : 0 < op.kind.tightness

/-- Operands with binary operators between them. -/
structure OperatorChain where
  first : SignedVariable
  links : List ChainLink

def SignedVariable.tokens (o : SignedVariable) : List Token := o.signs ++ [o.name]

def ChainLink.tokens (l : ChainLink) : List Token := l.op :: l.operand.tokens

def OperatorChain.tokens (c : OperatorChain) : List Token :=
  c.first.tokens ++ c.links.flatMap ChainLink.tokens

/-! ## Trees of chains -/

namespace Expr

/-- The tree is made of variables, signs and binary operators, and these are its tokens in order. -/
inductive InOrder : Expr → List Token → Prop
  | leaf {t : Token} : t.kind = .variable → InOrder (.variable t) [t]
  | unary {op : Token} {x : Expr} {ts : List Token} :
      op.kind.isSign = true → InOrder x ts → InOrder (.unary op x) (op :: ts)
  | binary {l r : Expr} {op : Token} {ts us : List Token} : 0 < op.kind.tightness →
      InOrder l ts → InOrder r us → InOrder (.binary l op r) (ts ++ op :: us)

/-- Whether a tree of variables, signs and binary operators has any of the latter. -/
def hasBinary : Expr → Bool
  | .binary .. => true
  | .unary _ x => x.hasBinary
  | _ => false

/-- The operator at the root, if it is a binary one. -/
def operator? : Expr → Option TokenKind
  | .binary _ op _ => some op.kind
  | _ => none

/-- Signs stand below binary operators, and these below one another as their levels say. -/
def Grouped : Expr → Prop
  | .unary _ x => x.hasBinary = false ∧ x.Grouped
  | .binary l op r => l.Grouped ∧ r.Grouped ∧
    (∀ k ∈ l.operator?, op.kind.AdmitsLeft k) ∧ ∀ k ∈ r.operator?, op.kind.AdmitsRight k
  | _ => True

theorem InOrder.length_pos {e : Expr} {ts : List Token} (h : InOrder e ts) : 0 < ts.length := by
  cases h <;> simp only [List.length_append, List.length_cons, List.length_nil] <;> omega

theorem operator?_of_not_hasBinary {e : Expr} (h : e.hasBinary = false) : e.operator? = none := by
  cases e with
  | binary l op r => cases h
  | _ => rfl

/-! ### One more operand -/

/-- The tree with one more operator and operand on its right edge. -/
def attach (op : Token) (x : Expr) : Expr → Expr
  | .binary l o r =>
    if o.kind.AdmitsRight op.kind then .binary l o (attach op x r) else .binary (.binary l o r) op x
  | e => .binary e op x

theorem inOrder_attach {op : Token} {x : Expr} {us : List Token} (hop : 0 < op.kind.tightness)
    (hx : InOrder x us) {e : Expr} {ts : List Token} (h : InOrder e ts) :
    InOrder (attach op x e) (ts ++ op :: us) := by
  induction h with
  | leaf ht => exact .binary hop (.leaf ht) hx
  | unary hsign hx' _ => exact .binary hop (.unary hsign hx') hx
  | binary ho hl hr _ ihr =>
      unfold attach
      split
      · rw [List.append_assoc]
        exact .binary ho hl ihr
      · exact .binary hop (.binary ho hl hr) hx

/-- What stands at the root after attaching stood there before or is the new operator. -/
theorem operator?_attach (op : Token) (x e : Expr) {k : TokenKind}
    (hk : k ∈ (attach op x e).operator?) : k ∈ e.operator? ∨ k = op.kind := by
  unfold attach at hk
  split at hk
  · split at hk
    · exact .inl hk
    · exact .inr (Option.mem_some.mp hk).symm
  · exact .inr (Option.mem_some.mp hk).symm

theorem grouped_attach {op : Token} {x : Expr} {ts : List Token} (hx : x.Grouped)
    (hbin : x.hasBinary = false) {e : Expr} (hin : InOrder e ts) (h : e.Grouped) :
    (attach op x e).Grouped := by
  have hright : ∀ k ∈ x.operator?, op.kind.AdmitsRight k := by
    simp [operator?_of_not_hasBinary hbin]
  induction hin with
  | leaf ht => exact ⟨trivial, hx, by simp [operator?], hright⟩
  | unary hsign hx' _ => exact ⟨h, hx, by simp [operator?], hright⟩
  | binary ho hl hr _ ihr =>
      unfold attach
      split
      · next hadmits =>
          obtain ⟨hgl, hgr, hleft, hbelow⟩ := h
          refine ⟨hgl, ihr hgr, hleft, ?_⟩
          intro k hk
          rcases operator?_attach op x _ hk with hk | rfl
          · exact hbelow k hk
          · exact hadmits
      · next hadmits =>
          refine ⟨h, hx, ?_, hright⟩
          intro k hk
          cases hk
          exact TokenKind.admitsLeft_of_not_admitsRight hadmits

/-! ### The tree of a chain -/

theorem exists_signed (o : SignedVariable) :
    ∃ e : Expr, InOrder e o.tokens ∧ e.Grouped ∧ e.hasBinary = false := by
  obtain ⟨signs, name, hsigns, hname⟩ := o
  induction signs with
  | nil => exact ⟨.variable name, .leaf hname, trivial, rfl⟩
  | cons op signs ih =>
      obtain ⟨e, hin, hgrouped, hbin⟩ := ih fun t ht => hsigns t (List.mem_cons_of_mem op ht)
      exact ⟨.unary op e, .unary (hsigns op List.mem_cons_self) hin, ⟨hbin, hgrouped⟩, hbin⟩

theorem exists_grouped (c : OperatorChain) : ∃ e : Expr, InOrder e c.tokens ∧ e.Grouped := by
  obtain ⟨first, links⟩ := c
  -- from the left, one link after the other
  have hlinks : ∀ (links : List ChainLink) (ts : List Token) (e : Expr), InOrder e ts → e.Grouped →
      ∃ e' : Expr, InOrder e' (ts ++ links.flatMap ChainLink.tokens) ∧ e'.Grouped := by
    intro links
    induction links with
    | nil =>
        intro ts e hin hgrouped
        exact ⟨e, by simpa using hin, hgrouped⟩
    | cons link links ih =>
        intro ts e hin hgrouped
        obtain ⟨x, hx, hxgrouped, hbin⟩ := exists_signed link.operand
        rw [List.flatMap_cons, ← List.append_assoc]
        refine ih _ _ (inOrder_attach link.op_isBinary hx hin) ?_
        exact grouped_attach hxgrouped hbin hin hgrouped
  obtain ⟨e, hin, hgrouped, -⟩ := exists_signed first
  exact hlinks links first.tokens e hin hgrouped

end Expr

namespace Grammar

open GuardedExpr.Parser GuardedExpr.Expr

/-! ## The rules go by the table -/

/-- The rules handle the binary operators that bind at least as tightly as `floor`, level by
level. -/
inductive Ladder : (floor : Nat) → List Rule → Prop
  | nil : Ladder 13 []
  | left {floor : Nat} {ops : List TokenKind} {rs : List Rule} :
      (∀ k : TokenKind, k ∈ ops ↔ k.tightness = floor) → (∀ k ∈ ops, k.groupsRight = false) →
      0 < floor → Ladder (floor + 1) rs → Ladder floor (.left ops :: rs)
  | right {floor : Nat} {op : TokenKind} {rs : List Rule} :
      (∀ k : TokenKind, k = op ↔ k.tightness = floor) → op.groupsRight = true →
      0 < floor → Ladder (floor + 1) rs → Ladder floor (.right op :: rs)
  | ternary {floor : Nat} {rs : List Rule} : Ladder floor rs → Ladder floor (.ternary :: rs)

/-- A level that groups to the left, checked over all kinds. -/
theorem Ladder.of_left {floor : Nat} {ops : List TokenKind} {rs : List Rule}
    (h : Ladder (floor + 1) rs)
    (hlevel : 0 < floor ∧ (∀ k ∈ TokenKind.all, k ∈ ops ↔ k.tightness = floor) ∧
      ∀ k ∈ ops, k.groupsRight = false) : Ladder floor (.left ops :: rs) :=
  .left (fun k => hlevel.2.1 k (TokenKind.mem_all k)) hlevel.2.2 hlevel.1 h

/-- A level that groups to the right, checked over all kinds. -/
theorem Ladder.of_right {floor : Nat} {op : TokenKind} {rs : List Rule} (h : Ladder (floor + 1) rs)
    (hlevel : 0 < floor ∧ (∀ k ∈ TokenKind.all, k = op ↔ k.tightness = floor) ∧
      op.groupsRight = true) : Ladder floor (.right op :: rs) :=
  .right (fun k => hlevel.2.1 k (TokenKind.mem_all k)) hlevel.2.2 hlevel.1 h

theorem rules_ladder : Ladder 1 rules.reverse := by
  -- the words, the conditional and the default, the symbols, the power
  iterate 3 refine .of_left ?_ (by decide)
  refine .ternary (.of_right ?_ (by decide))
  iterate 7 refine .of_left ?_ (by decide)
  exact .of_right .nil (by decide)

theorem Ladder.floor_le {floor : Nat} {rs : List Rule} (h : Ladder floor rs) {k : TokenKind}
    (hk : k ∈ rs.flatMap Rule.kinds) : k = .question ∨ floor ≤ k.tightness := by
  induction h with
  | nil => cases hk
  | left htable _ _ _ ih =>
      rcases List.mem_append.mp hk with hk | hk
      · exact .inr (Nat.le_of_eq ((htable k).mp hk).symm)
      · exact (ih hk).imp_right Nat.le_of_succ_le
  | right htable _ _ _ ih =>
      rcases List.mem_append.mp hk with hk | hk
      · exact .inr (Nat.le_of_eq ((htable k).mp (List.mem_singleton.mp hk)).symm)
      · exact (ih hk).imp_right Nat.le_of_succ_le
  | ternary _ ih =>
      rcases List.mem_append.mp hk with hk | hk
      · exact .inl (List.mem_singleton.mp hk)
      · exact ih hk

/-- Tighter rules stop at a looser operator. -/
theorem Ladder.stops_at {floor : Nat} {rs : List Rule} (h : Ladder floor rs) {op : Token}
    (hpos : 0 < op.kind.tightness) (hlt : op.kind.tightness < floor) (ts : List Token) :
    Stops (goesOn rs) (op :: ts) := by
  intro hmem
  rcases List.mem_cons.mp hmem with hk | hmem
  · simp [hk, TokenKind.tightness] at hpos
  · rcases List.mem_append.mp hmem with hk | hk
    · have hnone : ∀ k ∈ suffixStarts, k.tightness = 0 := by decide
      exact absurd (hnone _ hk) (Nat.ne_of_gt hpos)
    · rcases h.floor_le hk with hk | hk
      · simp [hk, TokenKind.tightness] at hpos
      · omega

/-! ## The parser finds the tree -/

/-- No operator at the root is looser than `floor`. -/
def RootFrom (floor : Nat) (e : Expr) : Prop := ∀ k ∈ e.operator?, floor ≤ k.tightness

theorem RootFrom.succ {floor : Nat} {l r : Expr} {op : Token} (h : RootFrom floor (.binary l op r))
    (hne : op.kind.tightness ≠ floor) : RootFrom (floor + 1) (.binary l op r) := by
  intro k hk
  have := h k hk
  cases hk
  omega

theorem rootFrom_of_not_hasBinary (floor : Nat) {e : Expr} (h : e.hasBinary = false) :
    RootFrom floor e := by
  intro k hk
  rw [operator?_of_not_hasBinary h] at hk
  cases hk

/-- With enough levels to go, the rules read the tree off its tokens. -/
def IsRead (limit : Nat) (e : Expr) (ts : List Token) : Prop :=
  ∀ (depth floor : Nat) (rs : List Rule) (rest : List Token), Ladder floor rs → RootFrom floor e →
    ts.length ≤ depth + 1 → Stops (goesOn rs) rest →
    Takes (level (ofDepth limit depth) rs) ts rest (pure e)

/-- With enough levels to go, a rule that groups to the left reads the tree and goes on with its
chain; each operator of the chain in the tree takes a level. -/
def IsChained (limit : Nat) (e : Expr) (ts : List Token) : Prop :=
  ∀ (depth floor : Nat) (ops : List TokenKind) (tighter : List Rule) (rest : List Token),
    Ladder floor (.left ops :: tighter) → RootFrom floor e → ts.length ≤ depth + 1 →
    Stops (goesOn tighter) rest →
    ∃ depth', depth + 1 ≤ depth' + ts.length ∧
      Takes (level (ofDepth limit depth) (.left ops :: tighter)) ts rest
        (moreChain (ofDepth limit depth') ops tighter e)

variable {limit : Nat} {ts us : List Token}

/-- A tree of tighter operators is the start of a chain. -/
theorem isChained_of_tighter {depth floor : Nat} {ops : List TokenKind} {tighter : List Rule}
    {e : Expr} {rest : List Token} (hread : IsRead limit e ts)
    (hladder : Ladder (floor + 1) tighter) (hroot : RootFrom (floor + 1) e)
    (hlen : ts.length ≤ depth + 1) (hpos : 0 < ts.length) (hrest : Stops (goesOn tighter) rest) :
    ∃ depth', depth + 1 ≤ depth' + ts.length ∧
      Takes (level (ofDepth limit depth) (.left ops :: tighter)) ts rest
        (moreChain (ofDepth limit depth') ops tighter e) :=
  ⟨depth, by omega, (hread depth _ tighter rest hladder hroot hlen hrest).bind _⟩

theorem ne_eof_of_tightness {k : TokenKind} (h : 0 < k.tightness) : k ≠ .eof := by
  rintro rfl
  cases h

/-- What is on the left of an operator that groups to the left may be the chain so far; what is on
its right is tighter. -/
theorem isChained_binary {depth floor : Nat} {ops : List TokenKind} {tighter : List Rule}
    {l r : Expr} {op : Token} {rest : List Token} (hop : op.kind ∈ ops)
    (hpos : 0 < op.kind.tightness) (hl : IsChained limit l ts) (hr : IsRead limit r us)
    (hladder : Ladder floor (.left ops :: tighter)) (hgrouped : (Expr.binary l op r).Grouped)
    (hlen : (ts ++ op :: us).length ≤ depth + 1) (hrest : Stops (goesOn tighter) rest) :
    ∃ depth', depth + 1 ≤ depth' + (ts ++ op :: us).length ∧
      Takes (level (ofDepth limit depth) (.left ops :: tighter)) (ts ++ op :: us) rest
        (moreChain (ofDepth limit depth') ops tighter (.binary l op r)) := by
  obtain ⟨-, -, hleft, hright⟩ := hgrouped
  obtain ⟨htable, hassoc, -, htighter⟩ : (∀ k : TokenKind, k ∈ ops ↔ k.tightness = floor) ∧
      (∀ k ∈ ops, k.groupsRight = false) ∧ 0 < floor ∧ Ladder (floor + 1) tighter := by
    cases hladder with
    | left h₁ h₂ h₃ h₄ => exact ⟨h₁, h₂, h₃, h₄⟩
  have hfloor : op.kind.tightness = floor := (htable op.kind).mp hop
  have hlroot : RootFrom floor l := by
    intro k hk
    rcases hleft k hk with h | h <;> omega
  have hrroot : RootFrom (floor + 1) r := by
    intro k hk
    rcases hright k hk with h | h
    · omega
    · simp [hassoc op.kind hop] at h
  rw [List.length_append, List.length_cons] at hlen ⊢
  have hstop : Stops (goesOn tighter) (op :: us ++ rest) := htighter.stops_at hpos (by omega) _
  obtain ⟨depth', hdepth, htakes⟩ := hl depth floor ops tighter _ hladder hlroot (by omega) hstop
  obtain ⟨d, rfl⟩ : ∃ d, depth' = d + 1 := ⟨depth' - 1, by omega⟩
  refine ⟨d, by omega, htakes.trans ?_⟩
  exact takes_link hop (ne_eof_of_tightness hpos) (by simp [hrest.ne_nil])
    (hr d _ tighter rest htighter hrroot (by omega) hrest)

/-- What is on the left of an operator that groups to the right is tighter; what is on its right is
read by the same rules, one level further in. -/
theorem takes_binary_right {depth floor : Nat} {k : TokenKind} {tighter : List Rule} {l r : Expr}
    {op : Token} {rest : List Token} (hop : op.kind = k) (hpos : 0 < op.kind.tightness)
    (hl : IsRead limit l ts) (hr : IsRead limit r us) (hladder : Ladder floor (.right k :: tighter))
    (hgrouped : (Expr.binary l op r).Grouped) (hlen : (ts ++ op :: us).length ≤ depth + 1)
    (hts : 0 < ts.length) (hrest : Stops (goesOn (.right k :: tighter)) rest) :
    Takes (level (ofDepth limit depth) (.right k :: tighter)) (ts ++ op :: us) rest
      (pure (.binary l op r)) := by
  obtain ⟨-, -, hleft, hright⟩ := hgrouped
  obtain ⟨htable, hassoc, htighter⟩ : (∀ k' : TokenKind, k' = k ↔ k'.tightness = floor) ∧
      k.groupsRight = true ∧ Ladder (floor + 1) tighter := by
    cases hladder with
    | right h₁ h₂ h₃ h₄ => exact ⟨h₁, h₂, h₄⟩
  have hfloor : op.kind.tightness = floor := (htable op.kind).mp hop
  have hlroot : RootFrom (floor + 1) l := by
    intro k' hk'
    rcases hleft k' hk' with h | h
    · omega
    · simp [hop, hassoc] at h
  have hrroot : RootFrom floor r := by
    intro k' hk'
    rcases hright k' hk' with h | h <;> omega
  rw [List.length_append, List.length_cons] at hlen
  have hstop : Stops (goesOn tighter) (op :: us ++ rest) := htighter.stops_at hpos (by omega) _
  obtain ⟨d, rfl⟩ : ∃ d, depth = d + 1 := ⟨depth - 1, by omega⟩
  refine (hl (d + 1) _ tighter _ htighter hlroot (by omega) hstop).then ?_
  have hne : us ++ rest ≠ [] := by simp [hrest.ne_nil]
  refine (takes_accept (List.mem_singleton.mpr hop) (ne_eof_of_tightness hpos) hne).then ?_
  exact (hr d floor _ rest hladder hrroot (by omega) hrest).bind _

theorem isRead_binary {l r : Expr} {op : Token} (hpos : 0 < op.kind.tightness)
    (hl : IsRead limit l ts) (hchain : IsChained limit l ts) (hr : IsRead limit r us)
    (hgrouped : (Expr.binary l op r).Grouped) (hts : 0 < ts.length) :
    IsRead limit (.binary l op r) (ts ++ op :: us) := by
  intro depth floor rs rest hladder hroot hlen hrest
  induction hladder with
  | nil => exact absurd (hroot op.kind rfl) (Nat.not_le_of_lt op.kind.tightness_lt)
  | @left floor ops tighter htable hassoc hfloor htighter ih =>
      by_cases heq : op.kind.tightness = floor
      · have hstop := hrest.mono (goesOn_tighter _ tighter)
        obtain ⟨depth', -, htakes⟩ := isChained_binary ((htable _).mpr heq) hpos hchain hr
          (.left htable hassoc hfloor htighter) hgrouped hlen hstop
        rw [← List.append_nil (ts ++ op :: us)]
        exact htakes.trans (takes_moreChain tighter _ (hrest.mono (kinds_subset_goesOn _ tighter)))
      · exact takes_level_cons (ih (hroot.succ heq) (hrest.mono (goesOn_tighter _ tighter)))
          (hrest.mono (kinds_subset_goesOn _ tighter))
  | @right floor k tighter htable hassoc hfloor htighter ih =>
      by_cases heq : op.kind.tightness = floor
      · have hladder : Ladder floor (.right k :: tighter) := .right htable hassoc hfloor htighter
        exact takes_binary_right ((htable _).mpr heq) hpos hl hr hladder hgrouped hlen hts hrest
      · exact takes_level_cons (ih (hroot.succ heq) (hrest.mono (goesOn_tighter _ tighter)))
          (hrest.mono (kinds_subset_goesOn _ tighter))
  | @ternary floor tighter _ ih =>
      exact takes_level_cons (ih hroot (hrest.mono (goesOn_tighter _ tighter)))
        (hrest.mono (kinds_subset_goesOn _ tighter))

/-- A tree without binary operators starts a chain as it is read. -/
theorem isChained_of_not_hasBinary {e : Expr} (hbin : e.hasBinary = false)
    (hread : IsRead limit e ts) (hpos : 0 < ts.length) : IsChained limit e ts := by
  intro depth floor ops tighter rest hladder _ hlen hrest
  cases hladder with
  | left _ _ _ htighter =>
      exact isChained_of_tighter hread htighter (rootFrom_of_not_hasBinary _ hbin) hlen hpos hrest

theorem isRead_variable {t : Token} (ht : t.kind = .variable) :
    IsRead limit (.variable t) [t] := by
  intro depth floor rs rest _ _ _ hrest
  exact takes_level_variable ht rs hrest

theorem isRead_unary {op : Token} {x : Expr} (hop : op.kind.isSign = true) (hx : IsRead limit x ts)
    (hbin : x.hasBinary = false) (hts : 0 < ts.length) : IsRead limit (.unary op x) (op :: ts) := by
  intro depth floor rs rest hladder hroot hlen hrest
  have hsign : op.kind ∈ [TokenKind.minus, .plus, .bang] := by
    revert hop
    cases op.kind <;> decide
  rw [List.length_cons] at hlen
  obtain ⟨d, rfl⟩ : ∃ d, depth = d + 1 := ⟨depth - 1, by omega⟩
  refine takes_level_of_unary (takes_unary_sign hsign ?_ (by simp [hrest.ne_nil])) rs hrest
  -- the operand of a sign is read without any rules for binary operators
  have hstop : Stops (goesOn []) rest := hrest.mono (goesOn_nil_subset rs)
  exact hx d 13 [] rest .nil (rootFrom_of_not_hasBinary _ hbin) (by omega) hstop

/-- **Every grouped tree is read off its own tokens**, by all rules that handle its root. -/
theorem isRead_of_grouped {e : Expr} (hin : InOrder e ts) (hgrouped : e.Grouped) :
    IsRead limit e ts ∧ IsChained limit e ts := by
  induction hin with
  | leaf ht =>
      have hread : IsRead limit (.variable _) [_] := isRead_variable ht
      exact ⟨hread, isChained_of_not_hasBinary rfl hread Nat.one_pos⟩
  | @unary op x ts hop hx ih =>
      obtain ⟨hbin, hgrouped⟩ := hgrouped
      have hread := isRead_unary hop (ih hgrouped).1 hbin hx.length_pos
      exact ⟨hread, isChained_of_not_hasBinary hbin hread (Nat.succ_pos _)⟩
  | @binary l r op ts us hop hl hr ihl ihr =>
      obtain ⟨hlread, hchain⟩ := ihl hgrouped.1
      obtain ⟨hrread, -⟩ := ihr hgrouped.2.1
      have hread := isRead_binary hop hlread hchain hrread hgrouped hl.length_pos
      refine ⟨hread, ?_⟩
      intro depth floor ops tighter rest hladder hroot hlen hrest
      by_cases heq : op.kind.tightness = floor
      · have hmem : op.kind ∈ ops := by
          cases hladder with
          | left htable _ _ _ => exact (htable _).mpr heq
        exact isChained_binary hmem hop hchain hrread hladder hgrouped hlen hrest
      · cases hladder with
        | left _ _ _ htighter =>
            refine isChained_of_tighter hread htighter (hroot.succ heq) hlen ?_ hrest
            exact (InOrder.binary hop hl hr).length_pos

end Grammar

/-- A grouped tree is what its tokens are read as. -/
theorem Expr.ofTokens_of_grouped {e : Expr} {ts : List Token} (hin : Expr.InOrder e ts)
    (hgrouped : e.Grouped) {eof : Token} (heof : eof.kind = .eof) {limit : Nat}
    (hlimit : ts.length ≤ limit) : Expr.ofTokens limit (ts ++ [eof]) = .ok e := by
  have hpos := hin.length_pos
  obtain ⟨depth, rfl⟩ : ∃ depth, limit = depth + 1 := ⟨limit - 1, by omega⟩
  have hstop : Stops (Grammar.goesOn Grammar.rules.reverse) [eof] := by
    rw [Stops, heof]
    decide
  have hroot : Grammar.RootFrom 1 e := by
    intro k hk
    cases hin with
    | binary hop _ _ =>
        cases hk
        exact hop
    | _ => cases hk
  have hread : Parser.Takes (Grammar.assignment (Grammar.ofDepth (depth + 1) depth)) ts [eof]
      (pure e) :=
    ((Grammar.isRead_of_grouped hin hgrouped).1 depth 1 _ _ Grammar.rules_ladder hroot hlimit
      hstop).last ((Parser.takes_accept_none (by simp [Stops, heof])).bind _)
  exact Expr.ofTokens_of_takes hread (List.ne_nil_of_length_pos hpos) heof

/-- **Operator chains are read by precedence.**  Operands with binary operators between them are
read, with as many levels as there are tokens, as a tree that has the operands and operators in
the order of the input, the signs below the binary operators, and these grouped by the table of
their levels; no other tree is like this. -/
theorem chain_is_read_by_precedence (chain : OperatorChain) {eof : Token} (heof : eof.kind = .eof)
    {limit : Nat} (hlimit : chain.tokens.length ≤ limit) :
    ∃ t, Expr.ofTokens limit (chain.tokens ++ [eof]) = .ok t ∧
      t.InOrder chain.tokens ∧ t.Grouped ∧
      ∀ t' : Expr, t'.InOrder chain.tokens → t'.Grouped → t' = t := by
  obtain ⟨t, hin, hgrouped⟩ := Expr.exists_grouped chain
  have hread := Expr.ofTokens_of_grouped hin hgrouped heof hlimit
  refine ⟨t, hread, hin, hgrouped, ?_⟩
  intro t' hin' hgrouped'
  have hread' := Expr.ofTokens_of_grouped hin' hgrouped' heof hlimit
  exact Except.ok.inj (hread'.symm.trans hread)

/-- The chain `$a - -$b ** $c - $d`. -/
def sampleChain : OperatorChain where
  first := ⟨[], ⟨.variable, "$a", ⟨0, 2, 1, 1⟩⟩, by decide, rfl⟩
  links :=
    [⟨⟨.minus, "-", ⟨3, 1, 1, 4⟩⟩,
        ⟨[⟨.minus, "-", ⟨5, 1, 1, 6⟩⟩], ⟨.variable, "$b", ⟨6, 2, 1, 7⟩⟩, by decide, rfl⟩,
        by decide⟩,
     ⟨⟨.starStar, "**", ⟨9, 2, 1, 10⟩⟩,
        ⟨[], ⟨.variable, "$c", ⟨12, 2, 1, 13⟩⟩, by decide, rfl⟩, by decide⟩,
     ⟨⟨.minus, "-", ⟨15, 1, 1, 16⟩⟩,
        ⟨[], ⟨.variable, "$d", ⟨17, 2, 1, 18⟩⟩, by decide, rfl⟩, by decide⟩]

/-- It is `($a - ((-$b) ** $c)) - $d` and nothing else. -/
theorem sample_is_read_by_precedence :
    ∃ t, t = Expr.binary
        (.binary (.variable ⟨.variable, "$a", ⟨0, 2, 1, 1⟩⟩) ⟨.minus, "-", ⟨3, 1, 1, 4⟩⟩
          (.binary (.unary ⟨.minus, "-", ⟨5, 1, 1, 6⟩⟩ (.variable ⟨.variable, "$b", ⟨6, 2, 1, 7⟩⟩))
            ⟨.starStar, "**", ⟨9, 2, 1, 10⟩⟩ (.variable ⟨.variable, "$c", ⟨12, 2, 1, 13⟩⟩)))
        ⟨.minus, "-", ⟨15, 1, 1, 16⟩⟩ (.variable ⟨.variable, "$d", ⟨17, 2, 1, 18⟩⟩) ∧
      Expr.ofTokens 8 (sampleChain.tokens ++ [⟨.eof, "", ⟨19, 0, 1, 20⟩⟩]) = .ok t ∧
      ∀ t' : Expr, t'.InOrder sampleChain.tokens → t'.Grouped → t' = t := by
  have heof : (⟨.eof, "", ⟨19, 0, 1, 20⟩⟩ : Token).kind = .eof := rfl
  obtain ⟨t, hread, -, -, hunique⟩ := chain_is_read_by_precedence sampleChain heof
    (by decide : sampleChain.tokens.length ≤ 8)
  exact ⟨t, Except.ok.inj (hread.symm.trans rfl), hread, hunique⟩

end GuardedExpr
