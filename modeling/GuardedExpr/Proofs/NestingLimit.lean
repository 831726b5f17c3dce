/-
# The nesting that a limit allows, exactly

The bound on parsed trees is reached.  For every limit there is a source that is
read and whose evaluation needs all the levels of `expressionBound`: an array
around the deepest source for one level less, and behind it, from the tightest
rule to the loosest, as many repetitions as there are levels to go.

The deepest source is given twice, by the kinds of its tokens and by its
characters.  Parsing looks at the kinds only, whatever the places of the tokens;
scanning gives these kinds because every token is set off by a line break.  The
first operand of each node is the tree so far, so evaluation goes all the way down
before it looks at any value.
-/
import GuardedExpr.Proofs.NestingBound
import GuardedExpr.Proofs.Reading
import GuardedExpr.Proofs.Scanning

namespace GuardedExpr

open GuardedExpr.Parser

namespace Grammar

/-! ## The deepest source -/

/-- What one rule can add behind an operand, with variables for its other operands. -/
def Rule.tail (depth : Nat) : Rule → List TokenKind
  | .left ops => (List.replicate depth [ops.headD .eof, .variable]).flatten
  | .right op => (List.replicate (min depth 1) [op, .variable]).flatten
  | .ternary => (List.replicate (min depth 1) [.question, .variable, .colon, .variable]).flatten

/-- What the rules of a list can add, the tightest first. -/
def rulesTail (depth : Nat) : List Rule → List TokenKind
  | [] => []
  | r :: rs => rulesTail depth rs ++ r.tail depth

/-- What can be added behind an operand with `depth` levels to go. -/
def operandTail (depth : Nat) : List TokenKind :=
  (List.replicate depth [.arrow, .identifier]).flatten
    ++ (List.replicate depth [.instanceOf, .identifier]).flatten
    ++ rulesTail depth rules.reverse

/-- The kinds of the tokens of the deepest source, where `depth` levels are to go behind the
first. -/
def deepKinds : (depth : Nat) → List TokenKind
  | 0 => [.quote, .variable, .lbracket, .minus, .integer, .rbracket, .quote] ++ operandTail 0
  | depth + 1 => .lbracket :: (deepKinds depth ++ [.rbracket]) ++ operandTail (depth + 1)

end Grammar

/-- A token of the kind, as the deepest source spells it. -/
def TokenKind.spelling : TokenKind → List Char
  | .variable => ['$', 'a']
  | .identifier => ['p']
  | .instanceOf => ['i', 'n', 's', 't', 'a', 'n', 'c', 'e', 'o', 'f']
  | .arrow => ['-', '>']
  | .lbracket => ['[']
  | .rbracket => [']']
  | .starStar => ['*', '*']
  | .star => ['*']
  | .plus => ['+']
  | .dot => ['.']
  | .less => ['<']
  | .equal => ['=', '=']
  | .andAnd => ['&', '&']
  | .orOr => ['|', '|']
  | .coalesce => ['?', '?']
  | .question => ['?']
  | .colon => [':']
  | .and => ['a', 'n', 'd']
  | .xor => ['x', 'o', 'r']
  | .or => ['o', 'r']
  | _ => []

/-- Each token on a line of its own. -/
def spellLines (kinds : List TokenKind) : List Char := kinds.flatMap fun k => k.spelling ++ ['\n']

/-- The characters of the deepest source. -/
def deepChars : (depth : Nat) → List Char
  | 0 => ['"', '$', 'a', '[', '-', '1', ']', '"', '\n'] ++ spellLines (Grammar.operandTail 0)
  | depth + 1 => spellLines [.lbracket] ++ deepChars depth
      ++ spellLines (.rbracket :: Grammar.operandTail (depth + 1))

/-! ## What is added goes deeper -/

/-- The second tree needs `levels` levels more than the first, whatever the values are. -/
def Expr.Deepens (e e' : Expr) (levels : Nat) : Prop :=
  ∀ (env : Environment) (limit n : Nat),
    Overflows env limit e n → Overflows env limit e' (n + levels)

theorem Expr.Deepens.refl (e : Expr) : e.Deepens e 0 := fun _ _ _ h => h

theorem Expr.Deepens.trans {e₁ e₂ e₃ : Expr} {m n : Nat} (h : e₁.Deepens e₂ m)
    (h' : e₂.Deepens e₃ n) : e₁.Deepens e₃ (m + n) := by
  intro env limit k hk
  rw [← Nat.add_assoc]
  exact h' env limit _ (h env limit k hk)

theorem Expr.Deepens.of_leading {e e' : Expr} (h : e'.leading? = some e) : e.Deepens e' 1 := by
  intro env limit n hn
  exact hn.of_leading h

namespace Grammar

/-! ### Tokens by their kinds -/

theorem stops_append {ts rest : List Token} {kinds ks : List TokenKind}
    (h : ts.map Token.kind = kinds) (hhead : ∀ k ∈ kinds.head?, k ∉ ks) (hrest : Stops ks rest) :
    Stops ks (ts ++ rest) := by
  subst h
  cases ts with
  | nil => exact hrest
  | cons t ts => exact hhead t.kind rfl

theorem eq_of_mem_head?_replicate {k k' : TokenKind} {more : List TokenKind} {n : Nat}
    (h : k' ∈ ((List.replicate n (k :: more)).flatten).head?) : k' = k := by
  cases n with
  | zero => cases h
  | succ n =>
      rw [List.replicate_succ, List.flatten_cons] at h
      exact (Option.mem_some.mp h).symm

/-- Two tokens of the given kinds, and more of them. -/
theorem exists_pair {ts : List Token} {k k' : TokenKind} {n : Nat}
    (h : ts.map Token.kind = (List.replicate (n + 1) [k, k']).flatten) :
    ∃ t t' ts', ts = t :: t' :: ts' ∧ t.kind = k ∧ t'.kind = k' ∧
      ts'.map Token.kind = (List.replicate n [k, k']).flatten := by
  rw [List.replicate_succ, List.flatten_cons, List.cons_append, List.cons_append,
    List.nil_append] at h
  obtain ⟨t, ts, rfl, ht, h⟩ := List.map_eq_cons_iff.mp h
  obtain ⟨t', ts, rfl, ht', h⟩ := List.map_eq_cons_iff.mp h
  exact ⟨t, t', ts, rfl, ht, ht', h⟩

variable {limit depth : Nat} {ts rest : List Token}

/-! ### Repetitions -/

/-- What goes on with an operand by pairs of tokens, a level for each pair, can do so as often as
there are levels to go. -/
theorem takes_repeated (more : Nat → Expr → Parser Expr) (node : Expr → Token → Token → Expr)
    {k k' : TokenKind} {ks : List TokenKind} (hk : k ∉ ks) (hrest : Stops ks rest)
    (hstop : ∀ depth e, Takes (more depth e) [] rest (pure e))
    (hstep : ∀ {depth e op t ts q}, op.kind = k → t.kind = k' → Stops ks (ts ++ rest) →
      Takes (more depth (node e op t)) ts rest q →
      Takes (more (depth + 1) e) (op :: t :: ts) rest q)
    (hnode : ∀ e op t, (node e op t).leading? = some e) {n : Nat} (hn : n ≤ depth) (e : Expr)
    (hts : ts.map Token.kind = (List.replicate n [k, k']).flatten) :
    ∃ e', Takes (more depth e) ts rest (pure e') ∧ e.Deepens e' n := by
  induction n generalizing depth e ts with
  | zero =>
      obtain rfl : ts = [] := List.map_eq_nil_iff.mp hts
      exact ⟨e, hstop depth e, .refl e⟩
  | succ n ih =>
      obtain ⟨op, t, ts, rfl, hop, ht, hts⟩ := exists_pair hts
      obtain ⟨d, rfl⟩ : ∃ d, depth = d + 1 := ⟨depth - 1, by omega⟩
      have hnext : Stops ks (ts ++ rest) := by
        refine stops_append hts ?_ hrest
        intro k'' hk''
        rwa [eq_of_mem_head?_replicate hk'']
      obtain ⟨e', htakes, hdeep⟩ := ih (Nat.le_of_succ_le_succ hn) (node e op t) hts
      refine ⟨e', hstep hop ht hnext htakes, ?_⟩
      exact Nat.add_comm n 1 ▸ Expr.Deepens.trans (.of_leading (hnode e op t)) hdeep

theorem takes_properties (e : Expr)
    (hts : ts.map Token.kind = (List.replicate depth [.arrow, .identifier]).flatten)
    (hrest : Stops suffixStarts rest) :
    ∃ e', Takes (moreSuffixes (ofDepth limit depth) e) ts rest (pure e') ∧ e.Deepens e' depth := by
  have hparen : Stops [.lparen] rest := hrest.mono (by decide)
  exact takes_repeated (fun d => moreSuffixes (ofDepth limit d))
    (fun e op t => .property e op false (.literal t)) (by decide) hparen
    (fun _ e => takes_moreSuffixes e (List.Subset.refl _) hrest)
    (fun hop ht => takes_property hop (by rw [ht]; rfl)) (fun _ _ _ => rfl)
    (Nat.le_refl depth) e hts

/-- A test behind an operand, for one level. -/
theorem takes_test {e : Expr} {op name : Token} {q : Parser Expr} (hop : op.kind = .instanceOf)
    (hname : name.kind = .identifier) (hnext : Stops [] (ts ++ rest))
    (h : Takes (moreInstanceOf (ofDepth limit depth) (.instanceOf e op (.literal name)))
      ts rest q) :
    Takes (moreInstanceOf (ofDepth limit (depth + 1)) e) (op :: name :: ts) rest q := by
  have hop' : op.kind ∈ [.instanceOf] ∧ op.kind ≠ .eof := by simp [hop]
  have hname' : name.kind ∈ [.identifier] ∧ name.kind ≠ .eof := by simp [hname]
  refine (takes_accept hop'.1 hop'.2 (by simp)).then ?_
  exact (takes_accept hname'.1 hname'.2 hnext.ne_nil).then h

theorem takes_tests (e : Expr)
    (hts : ts.map Token.kind = (List.replicate depth [.instanceOf, .identifier]).flatten)
    (hrest : Stops [.instanceOf] rest) :
    ∃ e', Takes (moreInstanceOf (ofDepth limit depth) e) ts rest (pure e') ∧ e.Deepens e' depth :=
  takes_repeated (fun d => moreInstanceOf (ofDepth limit d))
    (fun e op t => .instanceOf e op (.literal t)) List.not_mem_nil (hrest.mono (List.nil_subset _))
    (fun _ e => takes_moreInstanceOf e hrest) takes_test (fun _ _ _ => rfl)
    (Nat.le_refl depth) e hts

theorem takes_links {op : TokenKind} {ops : List TokenKind} {tighter : List Rule} (hop : op ∈ ops)
    (heof : op ≠ .eof) (hapart : op ∉ goesOn tighter) (e : Expr)
    (hts : ts.map Token.kind = (List.replicate depth [op, .variable]).flatten)
    (hrest : Stops (goesOn (.left ops :: tighter)) rest) :
    ∃ e', Takes (moreChain (ofDepth limit depth) ops tighter e) ts rest (pure e') ∧
      e.Deepens e' depth := by
  refine takes_repeated (fun d => moreChain (ofDepth limit d) ops tighter)
    (fun e t v => .binary e t (.variable v)) hapart (hrest.mono (goesOn_tighter _ tighter))
    (fun _ e => takes_moreChain tighter e (hrest.mono (kinds_subset_goesOn (.left ops) tighter))) ?_
    (fun _ _ _ => rfl) (Nat.le_refl depth) e hts
  intro d e t v ts q ht hv hnext h
  have hright : Takes (level (ofDepth limit d) tighter) [v] (ts ++ rest) (pure (.variable v)) :=
    takes_level_variable hv tighter hnext
  exact (takes_link (ht ▸ hop) (ht ▸ heof) (by simp) hright).trans h

/-! ### Rules -/

/-- A token at which a rule goes on makes no tighter rule go on, and a colon none at all. -/
def Apart : List Rule → Prop
  | [] => True
  | r :: rs => r.kinds.headD .eof ∈ r.kinds ∧ (∀ k ∈ r.kinds, k ∉ goesOn rs ∧ k ≠ .eof) ∧
    .colon ∉ goesOn (r :: rs) ∧ Apart rs

instance Apart.decide : ∀ rs, Decidable (Apart rs)
  | [] => inferInstanceAs (Decidable True)
  | _ :: rs =>
    have : Decidable (Apart rs) := Apart.decide rs
    inferInstanceAs (Decidable (_ ∧ _ ∧ _ ∧ _))

theorem rules_apart : Apart rules.reverse := by decide

theorem mem_kinds_of_head?_tail {r : Rule} {rs : List Rule} (h : Apart (r :: rs)) {k : TokenKind}
    (hk : k ∈ (r.tail depth).head?) : k ∈ r.kinds := by
  cases r with
  | left ops =>
      rw [eq_of_mem_head?_replicate hk]
      exact h.1
  | right op =>
      rw [eq_of_mem_head?_replicate hk]
      exact List.mem_singleton_self op
  | ternary =>
      rw [eq_of_mem_head?_replicate hk]
      exact List.mem_singleton_self TokenKind.question

/-- An operator that groups to the right, with a variable on its right. -/
theorem takes_right {op : TokenKind} {tighter : List Rule} {e : Expr} {ts' : List Token}
    (heof : op ≠ .eof) (hts : ts'.map Token.kind = (Rule.right op).tail depth)
    (h : Takes (level (ofDepth limit depth) tighter) ts (ts' ++ rest) (pure e))
    (hrest : Stops (goesOn (.right op :: tighter)) rest) :
    ∃ e', Takes (level (ofDepth limit depth) (.right op :: tighter)) (ts ++ ts') rest (pure e') ∧
      e.Deepens e' ((Rule.right op).growth depth) := by
  cases depth with
  | zero =>
      obtain rfl : ts' = [] := List.map_eq_nil_iff.mp hts
      refine ⟨e, h.then ?_, .refl e⟩
      exact (takes_accept_none (hrest.mono (kinds_subset_goesOn _ tighter))).bind _
  | succ d =>
      rw [Rule.tail, Nat.min_eq_right (Nat.succ_pos d)] at hts
      obtain ⟨t, v, ts'', rfl, rfl, hv, hts⟩ := exists_pair hts
      obtain rfl : ts'' = [] := List.map_eq_nil_iff.mp hts
      refine ⟨.binary e t (.variable v), h.then ?_, ?_⟩
      · refine (takes_accept (List.mem_singleton_self _) heof (by simp)).then ?_
        exact (takes_level_variable hv _ hrest).bind _
      · rw [Rule.growth, Nat.min_eq_right (Nat.succ_pos d)]
        exact .of_leading rfl

/-- The conditional, with variables for what it chooses from. -/
theorem takes_ternary {tighter : List Rule} {e : Expr} {ts' : List Token}
    (hcolon : .colon ∉ goesOn (.ternary :: tighter))
    (hts : ts'.map Token.kind = Rule.ternary.tail depth)
    (h : Takes (level (ofDepth limit depth) tighter) ts (ts' ++ rest) (pure e))
    (hrest : Stops (goesOn (.ternary :: tighter)) rest) :
    ∃ e', Takes (level (ofDepth limit depth) (.ternary :: tighter)) (ts ++ ts') rest (pure e') ∧
      e.Deepens e' (Rule.ternary.growth depth) := by
  cases depth with
  | zero =>
      obtain rfl : ts' = [] := List.map_eq_nil_iff.mp hts
      refine ⟨e, h.then ?_, .refl e⟩
      exact (takes_accept_none (hrest.mono (kinds_subset_goesOn _ tighter))).bind _
  | succ d =>
      rw [Rule.tail, Nat.min_eq_right (Nat.succ_pos d)] at hts
      obtain ⟨question, ts', rfl, hquestion, hts⟩ := List.map_eq_cons_iff.mp hts
      obtain ⟨yes, ts', rfl, hyes, hts⟩ := List.map_eq_cons_iff.mp hts
      obtain ⟨colon, ts', rfl, hcolon', hts⟩ := List.map_eq_cons_iff.mp hts
      obtain ⟨no, ts', rfl, hno, hts⟩ := List.map_eq_cons_iff.mp hts
      obtain rfl : ts' = [] := List.map_eq_nil_iff.mp hts
      refine ⟨.ternary e question (.variable yes) (.variable no), h.then ?_, ?_⟩
      · have hquestion' : question.kind ∈ [.question] ∧ question.kind ≠ .eof := by simp [hquestion]
        have heof : colon.kind ≠ .eof := by simp [hcolon']
        have hyes' : Takes (level (ofDepth limit d) (.ternary :: tighter)) [yes]
            ([colon, no] ++ rest) (pure (.variable yes)) :=
          takes_level_variable hyes _ fun hmem => hcolon (hcolon' ▸ hmem)
        refine (takes_accept hquestion'.1 hquestion'.2 (by simp)).then (hyes'.then ?_)
        refine (takes_expect hcolon' heof (by simp)).then ?_
        exact (takes_level_variable hno _ hrest).bind _
      · rw [Rule.growth, Nat.min_eq_right (Nat.succ_pos d)]
        exact .of_leading rfl

/-- No rule goes on with the first token that is added by others. -/
theorem notMem_goesOn_of_head?_rulesTail {rs : List Rule} (hapart : Apart rs) {k : TokenKind}
    (hk : k ∈ (rulesTail depth rs).head?) : k ∉ goesOn [] := by
  induction rs with
  | nil => cases hk
  | cons r rs ih =>
      rw [rulesTail, List.head?_append] at hk
      cases hhead : (rulesTail depth rs).head? with
      | some k' =>
          rw [hhead] at hk ih
          cases hk
          exact ih hapart.2.2.2 rfl
      | none =>
          rw [hhead] at hk
          intro hmem
          have hkinds := mem_kinds_of_head?_tail hapart hk
          exact (hapart.2.1 k hkinds).1 (goesOn_nil_subset rs hmem)

/-- Behind an operand of unary operators all the rules can be used. -/
theorem takes_rules {e : Expr} {rs : List Rule} (hapart : Apart rs) {ts' : List Token}
    (hts : ts'.map Token.kind = rulesTail depth rs)
    (he : Takes (unary (ofDepth limit depth)) ts (ts' ++ rest) (pure e))
    (hrest : Stops (goesOn rs) rest) :
    ∃ e', Takes (level (ofDepth limit depth) rs) (ts ++ ts') rest (pure e') ∧
      e.Deepens e' (rs.map (Rule.growth depth)).sum := by
  induction rs generalizing ts' rest with
  | nil =>
      obtain rfl : ts' = [] := List.map_eq_nil_iff.mp hts
      rw [List.append_nil]
      exact ⟨e, he, .refl e⟩
  | cons r rs ih =>
      obtain ⟨front, back, rfl, hfront, hback⟩ := List.map_eq_append_iff.mp hts
      have hnext : Stops (goesOn rs) (back ++ rest) := by
        refine stops_append hback ?_ (hrest.mono (goesOn_tighter r rs))
        intro k hk
        exact (hapart.2.1 k (mem_kinds_of_head?_tail hapart hk)).1
      rw [List.append_assoc] at he
      obtain ⟨e₁, htakes, hdeep⟩ := ih hapart.2.2.2 hfront he hnext
      rw [← List.append_assoc, List.map_cons, List.sum_cons, Nat.add_comm]
      obtain ⟨e', htakes', hdeep'⟩ : ∃ e', Takes (level (ofDepth limit depth) (r :: rs))
          (ts ++ front ++ back) rest (pure e') ∧ e₁.Deepens e' (r.growth depth) := by
        cases r with
        | left ops =>
            obtain ⟨hop, heof⟩ := hapart.2.1 _ hapart.1
            obtain ⟨e', hlinks, hdeep'⟩ :=
              takes_links hapart.1 heof hop e₁ hback hrest
            exact ⟨e', htakes.then hlinks, hdeep'⟩
        | right op =>
            have heof := (hapart.2.1 op (List.mem_singleton_self op)).2
            exact takes_right heof hback htakes hrest
        | ternary => exact takes_ternary hapart.2.2.1 hback htakes hrest
      exact ⟨e', htakes', hdeep.trans hdeep'⟩

/-! ### The first operand -/

/-- The string `"$a[-1]"`, whose inner levels are not counted. -/
def embedded (quote var bracket minus digits : Token) : Expr :=
  .interpolation quote [.access (.variable var) bracket (.unary minus (.literal digits))]

theorem takes_embedded {inner : Inner} {rest : List Token}
    {quote var bracket minus digits close stop : Token} (hquote : quote.kind = .quote)
    (hvar : var.kind = .variable) (hbracket : bracket.kind = .lbracket)
    (hminus : minus.kind = .minus) (hdigits : digits.kind = .integer)
    (hclose : close.kind = .rbracket) (hstop : stop.kind = .quote) (hrest : rest ≠ []) :
    Takes (primary inner) [quote, var, bracket, minus, digits, close, stop] rest
      (pure (embedded quote var bracket minus digits)) := by
  have hnoteof : quote.kind ≠ .eof ∧ var.kind ≠ .eof ∧ bracket.kind ≠ .eof ∧ minus.kind ≠ .eof ∧
      digits.kind ≠ .eof ∧ close.kind ≠ .eof ∧ stop.kind ≠ .eof := by simp [*]
  obtain ⟨hq, hv, hb, hm, hd, hc, hs'⟩ := hnoteof
  have hoffset : Takes embeddedOffset [minus, digits] ([close] ++ stop :: rest)
      (pure (.unary minus (.literal digits))) := by
    refine (takes_next hm (by simp)).then ?_
    rw [hminus]
    exact (takes_expect hdigits hd (by simp)).bind _
  have hvariable : Takes (embeddedVariable var) [bracket, minus, digits, close] ([] ++ stop :: rest)
      (pure (.access (.variable var) bracket (.unary minus (.literal digits)))) := by
    refine (takes_accept (by simp [hbracket]) hb (by simp)).then ?_
    exact hoffset.then ((takes_expect hclose hc (by simp)).bind _)
  have hend : ∀ most, Takes (partItems inner most) [] (stop :: rest) (pure []) := by
    intro most
    cases most with
    | zero => exact takes_nil _ _
    | succ most =>
        refine (takes_peek stop rest).here ?_
        rw [hstop]
        exact takes_nil _ _
  have hparts : ∀ most, Takes (partItems inner (most + 1)) [var, bracket, minus, digits, close]
      ([stop] ++ rest)
      (pure [.access (.variable var) bracket (.unary minus (.literal digits))]) := by
    intro most
    refine (takes_peek var ([bracket, minus, digits, close] ++ stop :: rest)).here ?_
    rw [hvar]
    refine (takes_next hv (by simp)).then (hvariable.then ?_)
    exact (hend most).bind _
  have hinterpolation : Takes (interpolation inner quote)
      [var, bracket, minus, digits, close, stop] rest
      (pure (embedded quote var bracket minus digits)) := by
    intro s hs
    have hread : Takes (partItems inner (s.ahead.length + 1) >>= fun ps =>
        expect .quote "closing '\"'" >>= fun _ => pure (.interpolation quote ps))
          [var, bracket, minus, digits, close, stop] rest
          (pure (embedded quote var bracket minus digits)) :=
      (hparts s.ahead.length).then ((takes_expect hstop hs' hrest).bind _)
    exact hread s hs
  refine (takes_peek quote ([var, bracket, minus, digits, close, stop] ++ rest)).here ?_
  simp only [hquote]
  exact (takes_next hq (by simp)).then hinterpolation

/-- An array with one element. -/
theorem takes_array {inner : Inner} {ts rest : List Token} {e : Expr} {opening t close : Token}
    (hopening : opening.kind = .lbracket) (hclose : close.kind = .rbracket)
    (ht : t.kind ≠ .rbracket) (he : Takes inner.assignment (t :: ts) (close :: rest) (pure e))
    (hrest : rest ≠ []) : Takes (primary inner) (opening :: (t :: ts ++ [close])) rest
      (pure (.array opening [.item e])) := by
  have hitems : ∀ most, Takes (elementItems inner .rbracket (most + 1)) (t :: ts) (close :: rest)
      (pure [.item e]) := by
    intro most
    refine (takes_peek t (ts ++ close :: rest)).here ?_
    rw [if_neg ht]
    refine he.last ?_
    refine (takes_accept_none (by simp [Stops, hclose])).here ?_
    exact (takes_accept_none (by simp [Stops, hclose])).bind _
  have helements : Takes (arrayElements inner .rbracket "',' or ']'") (t :: ts ++ [close]) rest
      (pure [.item e]) := by
    intro s hs
    have heof : close.kind ≠ .eof := by simp [hclose]
    have hread : Takes (elementItems inner .rbracket (s.ahead.length + 1) >>= fun es =>
        expect .rbracket "',' or ']'" >>= fun _ => pure es) (t :: ts ++ [close]) rest
          (pure [.item e]) := (hitems s.ahead.length).then ((takes_expect hclose heof hrest).bind _)
    exact hread s hs
  have heof : opening.kind ≠ .eof := by simp [hopening]
  refine (takes_peek opening (t :: ts ++ [close] ++ rest)).here ?_
  simp only [hopening]
  exact (takes_next heof (by simp)).then (helements.bind _)

/-- With the variable bound, the offset is evaluated, which is where the string is deepest. -/
theorem overflows_embedded {env : Environment} (limit : Nat) (quote : Token) {var : Token}
    (bracket minus digits : Token) (hvar : (env.context.get? var.variableName).isSome) :
    Overflows env limit (embedded quote var bracket minus digits) 4 := by
  have hoffset : Overflows env limit (.unary minus (.literal digits)) 2 :=
    (overflows_one env limit (.literal digits)).of_leading rfl
  have haccess : Overflows env limit
      (.access (.variable var) bracket (.unary minus (.literal digits))) 3 := by
    intro depth hdepth past
    match depth with
    | 0 => exact ⟨_, _, rfl⟩
    | 1 => exact ⟨_, _, runOn_node_of_leading rfl rfl⟩
    | 2 =>
        obtain ⟨v, hv⟩ := Option.isSome_iff_exists.mp hvar
        have hval :
            ((Expr.variable var).evaluateWithin env limit 1).runOn past = (.ok v, past) := by
          show (EvalM.someOrFail _ _ _).runOn past = _
          rw [hv]
          rfl
        obtain ⟨l, calls, herr⟩ := hoffset 1 (by omega) past
        refine ⟨l, calls, (EvalM.runOn_bind_ok hval).trans (EvalM.runOn_bind_error herr)⟩
  exact haccess.of_leading rfl

/-! ### All of it -/

/-- A first operand with everything that can be added to it. -/
theorem takes_operandTail {e : Expr} {t : Token} {back : List Token}
    (ht : t.kind ∉ [.minus, .plus, .bang, .cast])
    (hback : back.map Token.kind = operandTail depth)
    (he : Takes (primary (ofDepth limit depth)) (t :: ts) (back ++ rest) (pure e))
    (hrest : Stops (.assign :: goesOn rules.reverse) rest) :
    ∃ e', Takes (ofDepth limit (depth + 1)).assignment (t :: ts ++ back) rest (pure e') ∧
      e.Deepens e' (depth + depth + (rules.reverse.map (Rule.growth depth)).sum) := by
  obtain ⟨front, chains, rfl, hfront, hchains⟩ := List.map_eq_append_iff.mp hback
  obtain ⟨properties, tests, rfl, hproperties, htests⟩ := List.map_eq_append_iff.mp hfront
  have hrules : Stops (goesOn rules.reverse) rest := hrest.mono (List.subset_cons_self _ _)
  -- what the three kinds of repetitions stop at
  have hstop : Stops (goesOn []) (chains ++ rest) :=
    stops_append hchains (fun _ => notMem_goesOn_of_head?_rulesTail rules_apart)
      (hrules.mono (goesOn_nil_subset _))
  have hsuffix : Stops suffixStarts (tests ++ (chains ++ rest)) := by
    refine stops_append htests ?_ (hstop.mono (by decide))
    intro k hk
    rw [eq_of_mem_head?_replicate hk]
    decide
  obtain ⟨e₁, h₁, hdeep₁⟩ := takes_properties e hproperties hsuffix
  obtain ⟨e₂, h₂, hdeep₂⟩ := takes_tests e₁ htests (hstop.mono (by decide))
  rw [List.append_assoc, List.append_assoc] at he
  have hinstanceOf : Takes (instanceOf (ofDepth limit depth)) (t :: (ts ++ properties ++ tests))
      (chains ++ rest) (pure e₂) := (he.then h₁).then h₂
  obtain ⟨e₃, h₃, hdeep₃⟩ :=
    takes_rules rules_apart hchains (takes_unary_of_instanceOf ht hinstanceOf) hrules
  rw [show t :: (ts ++ properties ++ tests) ++ chains = t :: ts ++ (properties ++ tests ++ chains)
    by simp] at h₃
  have hassign : Stops [.assign] rest := hrest.mono (by simp)
  exact ⟨e₃, h₃.last ((takes_accept_none hassign).bind _), (hdeep₁.trans hdeep₂).trans hdeep₃⟩

theorem exists_head_deepKinds (depth : Nat) :
    ∃ k ks, deepKinds depth = k :: ks ∧ k ≠ .rbracket := by
  cases depth with
  | zero => exact ⟨_, _, rfl, by decide⟩
  | succ depth => exact ⟨_, _, rfl, by decide⟩

/-- **The deepest source is read**, and its tree needs every level of the bound. -/
theorem takes_deep (depth : Nat) (hts : ts.map Token.kind = deepKinds depth)
    (hrest : Stops (.assign :: goesOn rules.reverse) rest) :
    ∃ (e : Expr) (v : String), Takes (ofDepth limit (depth + 1)).assignment ts rest (pure e) ∧
      ∀ env limit', (env.context.get? v).isSome →
        Overflows env limit' e (expressionBound (depth + 1)) := by
  induction depth generalizing ts rest with
  | zero =>
      obtain ⟨front, back, rfl, hfront, hback⟩ := List.map_eq_append_iff.mp hts
      obtain ⟨quote, _, rfl, hquote, hfront⟩ := List.map_eq_cons_iff.mp hfront
      obtain ⟨var, _, rfl, hvar, hfront⟩ := List.map_eq_cons_iff.mp hfront
      obtain ⟨bracket, _, rfl, hbracket, hfront⟩ := List.map_eq_cons_iff.mp hfront
      obtain ⟨minus, _, rfl, hminus, hfront⟩ := List.map_eq_cons_iff.mp hfront
      obtain ⟨digits, _, rfl, hdigits, hfront⟩ := List.map_eq_cons_iff.mp hfront
      obtain ⟨close, _, rfl, hclose, hfront⟩ := List.map_eq_cons_iff.mp hfront
      obtain ⟨stop, _, rfl, hstop, hfront⟩ := List.map_eq_cons_iff.mp hfront
      obtain rfl := List.map_eq_nil_iff.mp hfront
      have hne : back ++ rest ≠ [] := by simp [hrest.ne_nil]
      obtain ⟨e, htakes, hdeep⟩ := takes_operandTail (by simp [hquote]) hback
        (takes_embedded hquote hvar hbracket hminus hdigits hclose hstop hne) hrest
      refine ⟨e, var.variableName, htakes, ?_⟩
      intro env limit' hbound
      exact hdeep env limit' 4 (overflows_embedded limit' quote bracket minus digits hbound)
  | succ depth ih =>
      obtain ⟨front, back, rfl, hfront, hback⟩ := List.map_eq_append_iff.mp hts
      obtain ⟨opening, _, rfl, hopening, hfront⟩ := List.map_eq_cons_iff.mp hfront
      obtain ⟨inside, _, rfl, hinside, hfront⟩ := List.map_eq_append_iff.mp hfront
      obtain ⟨close, _, rfl, hclose, hfront⟩ := List.map_eq_cons_iff.mp hfront
      obtain rfl := List.map_eq_nil_iff.mp hfront
      obtain ⟨k, ks, hkinds, hk⟩ := exists_head_deepKinds depth
      obtain ⟨t, inside, rfl, ht, -⟩ := List.map_eq_cons_iff.mp (hinside.trans hkinds)
      have hbracket : Stops (.assign :: goesOn rules.reverse) (close :: (back ++ rest)) := by
        rw [Stops, hclose]
        decide
      obtain ⟨e, v, he, hdeep⟩ := ih hinside hbracket
      have harray : Takes (primary (ofDepth limit (depth + 1)))
          (opening :: (t :: inside ++ [close])) (back ++ rest) (pure (.array opening [.item e])) :=
        takes_array hopening hclose (ht ▸ hk) he (by simp [hrest.ne_nil])
      obtain ⟨e', htakes, hdeep'⟩ := takes_operandTail (by simp [hopening]) hback harray hrest
      refine ⟨e', v, htakes, ?_⟩
      intro env limit' hbound
      have hover := hdeep' env limit' _ ((hdeep env limit' hbound).of_leading rfl)
      have hfour : 4 ≤ expressionBound (depth + 1) := by
        rw [expressionBound]
        omega
      rw [expressionBound_eq_levelBound]
      have hlevels : expressionBound (depth + 1) + 1 + (depth + 1 + (depth + 1)
          + (rules.reverse.map (Rule.growth (depth + 1))).sum)
          = levelBound (depth + 2) rules.reverse := by
        simp only [levelBound, operandBound]
        omega
      rwa [hlevels] at hover

end Grammar

/-! ## Scanning the deepest source -/

open Text

/-- The kinds of the tokens among some pieces. -/
def Piece.kinds (ps : List Piece) : List TokenKind :=
  ps.filterMap fun
    | .blank _ => none
    | .lexeme kind _ => some kind

theorem Piece.map_kind_place (ps : List Piece) (p : Position) :
    (place p ps).map Token.kind = kinds ps ++ [.eof] := by
  induction ps generalizing p with
  | nil => rfl
  | cons q ps ih =>
      cases q with
      | blank text => exact ih (p.after text)
      | lexeme kind text => exact congrArg (kind :: ·) (ih (p.after text))

/-- The text goes on with no blank. -/
def NoBlank (cs : List Char) : Prop := ∀ c ∈ cs.head?, isTokenBlank c = false

/-- The characters scan to tokens of the kinds, whatever stands behind them but blanks. -/
def Spells (cs : List Char) (kinds : List TokenKind) : Prop :=
  ∀ rest, NoBlank rest → NoBlank (cs ++ rest) ∧ ∃ ps, Piece.kinds ps = kinds ∧
    Scanner.scanFrom .code 0 (cs ++ rest) = (Scanner.scanFrom .code 0 rest).map (ps ++ ·)

theorem Spells.nil : Spells [] [] := by
  intro rest hrest
  refine ⟨hrest, [], rfl, ?_⟩
  cases h : Scanner.scanFrom .code 0 rest <;> simp [h, Except.map]

theorem Spells.append {cs ds : List Char} {ks ls : List TokenKind} (h : Spells cs ks)
    (h' : Spells ds ls) : Spells (cs ++ ds) (ks ++ ls) := by
  intro rest hrest
  obtain ⟨hnext, qs, hqs, hscan'⟩ := h' rest hrest
  obtain ⟨hblank, ps, hps, hscan⟩ := h (ds ++ rest) hnext
  rw [List.append_assoc]
  refine ⟨hblank, ps ++ qs, ?_, ?_⟩
  · rw [← hps, ← hqs, Piece.kinds, Piece.kinds, Piece.kinds, List.filterMap_append]
  · rw [hscan, hscan']
    cases Scanner.scanFrom .code 0 rest <;> simp [Except.map]

/-- A single blank behind a token. -/
theorem scanFrom_blank {b : Char} (hb : isTokenBlank b = true) {rest : List Char}
    (hrest : NoBlank rest) : Scanner.scanFrom .code 0 (b :: rest)
      = (Scanner.scanFrom .code 0 rest).map ([.blank [b]] ++ ·) := by
  have hblanks : (b :: rest).takeWhile isTokenBlank = [b] := by
    rw [List.takeWhile_cons_of_pos hb]
    cases rest with
    | nil => rfl
    | cons c cs => rw [List.takeWhile_cons_of_neg (by simp [hrest c rfl])]
  have hstep : Scanner.step .code ([b] ++ rest) = .ok ([.blank [b]], .code) := by
    show Scanner.codeStep .code (b :: rest) = _
    unfold Scanner.codeStep
    rw [hblanks]
    rfl
  exact Scanner.scanFrom_of_step hstep rfl (List.cons_ne_nil _ _)

theorem step_of_word {w rest : List Char} {k : TokenKind}
    (hread : Lexeme.read (w ++ '\n' :: rest) = .ok (Lexeme.word (w ++ '\n' :: rest)))
    (hstep : Scanner.step .code (w ++ '\n' :: rest)
      = (Lexeme.read (w ++ '\n' :: rest)).map fun p => ([p], .code))
    (htext : Lexeme.wordText (w ++ '\n' :: rest) = w)
    (hkind : (Lexeme.keyword? (String.ofList w)).getD .identifier = k) :
    Scanner.step .code (w ++ '\n' :: rest) = .ok ([.lexeme k w], .code) := by
  rw [hstep, hread, Lexeme.word, htext, hkind]
  rfl

theorem step_spelling {k : TokenKind} (hk : k.spelling ≠ []) (rest : List Char) :
    Scanner.step .code (k.spelling ++ '\n' :: rest) = .ok ([.lexeme k k.spelling], .code) := by
  cases k with
  | identifier | instanceOf | and | or | xor => exact step_of_word rfl rfl rfl (by decide)
  | _ => first | exact absurd rfl hk | rfl

theorem noBlank_spelling {k : TokenKind} (hk : k.spelling ≠ []) (rest : List Char) :
    NoBlank (k.spelling ++ rest) := by
  cases k <;> first | exact absurd rfl hk | (intro c hc; cases hc; rfl)

theorem spells_line {k : TokenKind} (hk : k.spelling ≠ []) : Spells (k.spelling ++ ['\n']) [k] := by
  intro rest hrest
  have hscan := Scanner.scanFrom_of_step (step_spelling hk rest) (List.append_nil _) hk
  rw [scanFrom_blank rfl hrest] at hscan
  rw [List.append_assoc]
  refine ⟨noBlank_spelling hk _, [.lexeme k k.spelling, .blank ['\n']], rfl, hscan.trans ?_⟩
  cases Scanner.scanFrom .code 0 rest <;> rfl

theorem spells_lines {kinds : List TokenKind} (h : ∀ k ∈ kinds, k.spelling ≠ []) :
    Spells (spellLines kinds) kinds := by
  induction kinds with
  | nil => exact .nil
  | cons k kinds ih =>
      have hrest : Spells (spellLines kinds) kinds :=
        ih fun k' hk' => h k' (List.mem_cons_of_mem k hk')
      exact .append (spells_line (h k List.mem_cons_self)) hrest

/-- The string that the deepest source starts from. -/
theorem spells_embedded : Spells ['"', '$', 'a', '[', '-', '1', ']', '"', '\n']
    [.quote, .variable, .lbracket, .minus, .integer, .rbracket, .quote] := by
  intro rest hrest
  have hopen : Scanner.step .code
      (['"'] ++ (['$', 'a', '[', '-', '1', ']'] ++ (['"'] ++ '\n' :: rest)))
      = .ok ([.lexeme .quote ['"']],
        .text ('"' :: '$' :: 'a' :: '[' :: '-' :: '1' :: ']' :: '"' :: '\n' :: rest) .code) := rfl
  have hvar : ∀ opening, Scanner.step (.text opening .code)
      (['$', 'a', '[', '-', '1', ']'] ++ (['"'] ++ '\n' :: rest))
      = .ok ([.lexeme .variable ['$', 'a'], .lexeme .lbracket ['['], .lexeme .minus ['-'],
        .lexeme .integer ['1'], .lexeme .rbracket [']']], .text opening .code) := fun _ => rfl
  have hclose : ∀ opening, Scanner.step (.text opening .code) (['"'] ++ '\n' :: rest)
      = .ok ([.lexeme .quote ['"']], .code) := fun _ => rfl
  have hscan := Scanner.scanFrom_of_step hopen rfl (List.cons_ne_nil _ _)
  rw [Scanner.scanFrom_of_step (hvar _) rfl (List.cons_ne_nil _ _),
    Scanner.scanFrom_of_step (hclose _) rfl (List.cons_ne_nil _ _),
    scanFrom_blank rfl hrest] at hscan
  refine ⟨fun c hc => by cases hc; rfl, [.lexeme .quote ['"'], .lexeme .variable ['$', 'a'],
    .lexeme .lbracket ['['], .lexeme .minus ['-'], .lexeme .integer ['1'], .lexeme .rbracket [']'],
    .lexeme .quote ['"'], .blank ['\n']], rfl, hscan.trans ?_⟩
  cases Scanner.scanFrom .code 0 rest <;> rfl

namespace Grammar

theorem mem_of_mem_replicate {k : TokenKind} {ks : List TokenKind} {n : Nat}
    (h : k ∈ (List.replicate n ks).flatten) : k ∈ ks := by
  obtain ⟨l, hl, hk⟩ := List.mem_flatten.mp h
  rwa [List.eq_of_mem_replicate hl] at hk

theorem spelling_ne_nil_of_mem_rulesTail {depth : Nat} {rs : List Rule}
    (hrs : ∀ r ∈ rs, (r.kinds.headD .eof).spelling ≠ []) :
    ∀ k ∈ rulesTail depth rs, k.spelling ≠ [] := by
  induction rs with
  | nil =>
      intro k hk
      cases hk
  | cons r rs ih =>
      intro k hk
      rcases List.mem_append.mp hk with hk | hk
      · exact ih (fun r' hr' => hrs r' (List.mem_cons_of_mem r hr')) k hk
      · have hr := hrs r List.mem_cons_self
        cases r with
        | ternary =>
            have hall : ∀ k ∈ [TokenKind.question, .variable, .colon, .variable],
                k.spelling ≠ [] := by decide
            exact hall k (mem_of_mem_replicate hk)
        | left ops =>
            have hall : ∀ k ∈ [ops.headD .eof, .variable], k.spelling ≠ [] :=
              List.forall_mem_cons.mpr ⟨hr, by decide⟩
            exact hall k (mem_of_mem_replicate hk)
        | right op =>
            have hall : ∀ k ∈ [op, .variable], k.spelling ≠ [] :=
              List.forall_mem_cons.mpr ⟨hr, by decide⟩
            exact hall k (mem_of_mem_replicate hk)

theorem spelling_ne_nil_of_mem_operandTail (depth : Nat) :
    ∀ k ∈ operandTail depth, k.spelling ≠ [] := by
  intro k hk
  have hsuffix : ∀ k ∈ [TokenKind.arrow, .identifier], k.spelling ≠ [] := by decide
  have htest : ∀ k ∈ [TokenKind.instanceOf, .identifier], k.spelling ≠ [] := by decide
  rcases List.mem_append.mp hk with hk | hk
  · rcases List.mem_append.mp hk with hk | hk
    · exact hsuffix k (mem_of_mem_replicate hk)
    · exact htest k (mem_of_mem_replicate hk)
  · exact spelling_ne_nil_of_mem_rulesTail (by decide) k hk

theorem spells_deep (depth : Nat) : Spells (deepChars depth) (deepKinds depth) := by
  induction depth with
  | zero => exact spells_embedded.append (spells_lines (spelling_ne_nil_of_mem_operandTail 0))
  | succ depth ih =>
      have hopening : Spells (spellLines [.lbracket]) [.lbracket] := spells_lines (by decide)
      have htail : Spells (spellLines (.rbracket :: operandTail (depth + 1)))
          (.rbracket :: operandTail (depth + 1)) :=
        spells_lines (List.forall_mem_cons.mpr ⟨by decide, spelling_ne_nil_of_mem_operandTail _⟩)
      have hall := (hopening.append ih).append htail
      rwa [show [.lbracket] ++ deepKinds depth ++ .rbracket :: operandTail (depth + 1)
        = deepKinds (depth + 1) by simp [deepKinds]] at hall

end Grammar

/-- The deepest source for a limit. -/
def deepestSource (limit : Nat) : String := String.ofList (deepChars (limit - 1))

theorem exists_parse_deepestSource {limit : Nat} (hlimit : 0 < limit) :
    ∃ t v, Expr.parse limit (deepestSource limit) = .ok t ∧ ∀ env limit',
      (env.context.get? v).isSome → Overflows env limit' t (Grammar.expressionBound limit) := by
  obtain ⟨depth, rfl⟩ : ∃ depth, limit = depth + 1 := ⟨limit - 1, by omega⟩
  have hnil : NoBlank [] := fun c hc => by cases hc
  obtain ⟨-, ps, hkinds, hscan⟩ := Grammar.spells_deep depth [] hnil
  have htokens : tokenize (deepestSource (depth + 1)) = .ok (Piece.place .start ps) := by
    rw [List.append_nil] at hscan
    unfold tokenize deepestSource Scanner.scan
    rw [String.toList_ofList, Nat.add_sub_cancel, hscan]
    simp [Scanner.scanFrom, Scanner.Mode.openString?, Except.map]
  have hplaced := Piece.map_kind_place ps .start
  rw [hkinds] at hplaced
  obtain ⟨ts, back, hplace, hts, hback⟩ := List.map_eq_append_iff.mp hplaced
  obtain ⟨eof, _, rfl, heof, hback⟩ := List.map_eq_cons_iff.mp hback
  obtain rfl := List.map_eq_nil_iff.mp hback
  have hstop : Stops (.assign :: Grammar.goesOn Grammar.rules.reverse) [eof] := by
    rw [Stops, heof]
    decide
  obtain ⟨e, v, htakes, hdeep⟩ := Grammar.takes_deep depth hts hstop
  have hne : ts ≠ [] := by
    rintro rfl
    obtain ⟨k, ks, hks, -⟩ := Grammar.exists_head_deepKinds depth
    rw [hks] at hts
    cases hts
  refine ⟨e, v, ?_, hdeep⟩
  unfold Expr.parse
  rw [htokens, hplace]
  exact Expr.ofTokens_of_takes htakes hne heof

/-- **How deep an evaluation has to be allowed to go.**  Every tree that is parsed with the limit
`m` is evaluated with the limit `n`, in any environment, without meeting it, exactly where `n` is
at least `2 * m * (3 * m - 1)`.  So no limit above zero does for both. -/
theorem evaluation_limit_suffices_iff (m n : Nat) :
    (∀ source t, Expr.parse m source = .ok t →
      ∀ (env : Environment) (past : List Call) (err : EvalError),
        ((t.evaluate env n).runOn past).1 = .error err → err.fault.isLimit = false)
    ↔ 2 * m * (3 * m - 1) ≤ n := by
  rw [← Grammar.expressionBound_eq]
  constructor
  · intro hall
    refine Nat.le_of_not_lt ?_
    intro hlt
    have hpos : 0 < m := by
      rcases Nat.eq_zero_or_pos m with rfl | hpos
      · exact absurd hlt (Nat.not_lt_zero n)
      · exact hpos
    obtain ⟨t, v, hparse, hdeep⟩ := exists_parse_deepestSource hpos
    -- an environment in which the one variable of the source is bound
    let env : Environment := ⟨.ofList [(v, .null)], fun _ c => c.absentAnswer, .empty⟩
    have hbound : (env.context.get? v).isSome := by
      simp [env, Context.ofList, Context.insert, Context.empty, Context.get?]
    obtain ⟨l, calls, herr⟩ := hdeep env n hbound n hlt []
    have hlimit := hall _ t hparse env [] ⟨.stackOverflow n, l⟩ (congrArg Prod.fst herr)
    cases hlimit
  · intro hle source t hparse env past err herr
    obtain ⟨calls, -, -, hfault⟩ :=
      evaluateWithin_fits env n n t ((Expr.fitsIn_of_parse hparse).mono hle) past
    exact (hfault err herr).2

/-- With the limit two `$a * $b + $c` is read, the product and the sum taking a level each, one
after the other.  Its tree has three levels, so with the same limit its evaluation fails, whatever
the variables are. -/
theorem sum_of_product_meets_the_limit :
    Expr.parse 2 "$a * $b + $c" = .ok (.binary
      (.binary (.variable ⟨.variable, "$a", ⟨0, 2, 1, 1⟩⟩) ⟨.star, "*", ⟨3, 1, 1, 4⟩⟩
        (.variable ⟨.variable, "$b", ⟨5, 2, 1, 6⟩⟩))
      ⟨.plus, "+", ⟨8, 1, 1, 9⟩⟩ (.variable ⟨.variable, "$c", ⟨10, 2, 1, 11⟩⟩)) ∧
    ∀ (env : Environment) (past : List Call), ((Expr.binary
      (.binary (.variable ⟨.variable, "$a", ⟨0, 2, 1, 1⟩⟩) ⟨.star, "*", ⟨3, 1, 1, 4⟩⟩
        (.variable ⟨.variable, "$b", ⟨5, 2, 1, 6⟩⟩))
      ⟨.plus, "+", ⟨8, 1, 1, 9⟩⟩
      (.variable ⟨.variable, "$c", ⟨10, 2, 1, 11⟩⟩)).evaluate env 2).runOn past
        = (.error ⟨.stackOverflow 2, ⟨0, 2, 1, 1⟩⟩, past) := by
  have htokens : tokenize "$a * $b + $c" = .ok
      [⟨.variable, "$a", ⟨0, 2, 1, 1⟩⟩, ⟨.star, "*", ⟨3, 1, 1, 4⟩⟩, ⟨.variable, "$b", ⟨5, 2, 1, 6⟩⟩,
       ⟨.plus, "+", ⟨8, 1, 1, 9⟩⟩, ⟨.variable, "$c", ⟨10, 2, 1, 11⟩⟩,
       ⟨.eof, "", ⟨12, 0, 1, 13⟩⟩] := rfl
  refine ⟨?_, fun _ _ => rfl⟩
  unfold Expr.parse
  rw [htokens]
  rfl

end GuardedExpr
