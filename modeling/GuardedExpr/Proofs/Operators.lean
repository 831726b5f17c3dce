/-
# Operators — nothing that is parsed is unknown to the evaluator

The kinds of operators stand in four tables: the rules of the grammar, the operators
that may skip their right operand, those that combine two values, and the arithmetic
ones among them.  The tables agree (`mem_operators_iff`), and a node has an operator of
the rule that read it, so the faults that the evaluator keeps for operators that it does
not know are for trees that are put together by hand.

Casts are in step in the same way.  The scanner makes one only of a type between
parentheses, and the parser reads the type off the same text, with a wider notion of
blanks (`isSome_ofText?_of_castText?`).
-/
import GuardedExpr.Proofs.ErrorPlaces
import GuardedExpr.Proofs.NumericStrings
import GuardedExpr.Proofs.StringReading

namespace GuardedExpr

/-! ## The tables -/

namespace Grammar

open GuardedExpr.Parser

/-- The parser makes binary operators of those kinds that the evaluator knows. -/
theorem mem_operators_iff (k : TokenKind) :
    (∃ r ∈ rules, k ∈ r.operators) ↔ k ∈ Eval.binaryOperators := by
  cases k <;> decide

/-- No operator is on two levels. -/
theorem eq_of_mem_operators {r r' : Rule} {k : TokenKind} (hr : r ∈ rules) (hr' : r' ∈ rules)
    (hk : k ∈ r.operators) (hk' : k ∈ r'.operators) : r = r' := by
  have hdisjoint : ∀ r ∈ rules, ∀ r' ∈ rules, ∀ k ∈ r.operators, k ∈ r'.operators → r = r' := by
    decide
  exact hdisjoint r hr r' hr' k hk hk'

/-! ## Levels -/

/-- The node is one that the rule puts together. -/
def Rule.Makes : Rule → Expr → Prop
  | r, .binary _ op _ => op.kind ∈ r.operators
  | .ternary, .ternary .. => True
  | _, _ => False

variable {limit depth : Nat}

/-- What a chain reads behind an operator is a node of its rule. -/
theorem chain_makes {ops : List TokenKind} (tighter : List Rule) {left : Expr} {op : Token}
    (hop : op.kind ∈ ops) :
    Yields ((ofDepth limit depth).chain ops tighter left op) (Rule.left ops).Makes := by
  induction depth generalizing left op with
  | zero =>
      intro s e s' h
      cases h
  | succ depth ih =>
      refine yields_then fun right => ?_
      intro s e s' h
      by_cases hmore : s.current.kind ∈ ops
      · rw [moreChain, accept_of_mem hmore] at h
        exact ih hmore s.advance e s' h
      · rw [moreChain, accept_of_notMem hmore] at h
        cases h
        exact hop

/-- What a level reads is a node of its rule, or what the tighter rules read. -/
theorem level_cases {r : Rule} {tighter : List Rule} {s s' : TokenStream} {e : Expr}
    (h : level (ofDepth limit depth) (r :: tighter) s = .ok (e, s')) :
    r.Makes e ∨ level (ofDepth limit depth) tighter s = .ok (e, s') := by
  cases r with
  | left ops =>
      obtain ⟨first, s₁, hfirst, h⟩ := exists_of_bind h
      by_cases hmore : s₁.current.kind ∈ ops
      · rw [moreChain, accept_of_mem hmore] at h
        exact .inl (chain_makes tighter hmore s₁.advance e s' h)
      · rw [moreChain, accept_of_notMem hmore] at h
        cases h
        exact .inr hfirst
  | right op =>
      obtain ⟨first, s₁, hfirst, h⟩ := exists_of_bind h
      by_cases hmore : s₁.current.kind ∈ [op]
      · rw [accept_of_mem hmore] at h
        obtain ⟨t, s₂, ht, h⟩ := exists_of_bind h
        cases ht
        obtain ⟨right, s₃, -, h⟩ := exists_of_bind h
        cases h
        exact .inl hmore
      · rw [accept_of_notMem hmore] at h
        cases h
        exact .inr hfirst
  | ternary =>
      obtain ⟨first, s₁, hfirst, h⟩ := exists_of_bind h
      by_cases hmore : s₁.current.kind ∈ [.question]
      · rw [accept_of_mem hmore] at h
        obtain ⟨t, s₂, -, h⟩ := exists_of_bind h
        obtain ⟨yes, s₃, -, h⟩ := exists_of_bind h
        obtain ⟨colon, s₄, -, h⟩ := exists_of_bind h
        obtain ⟨no, s₅, -, h⟩ := exists_of_bind h
        cases h
        exact .inl trivial
      · rw [accept_of_notMem hmore] at h
        cases h
        exact .inr hfirst

end Grammar

/-! ## Evaluation -/

theorem Expr.strayOperator?_of_isFormed {e : Expr} (h : e.IsFormed) : e.strayOperator? = none := by
  cases e with
  | unary op operand => exact if_pos h
  | binary left op right => exact if_pos ((Grammar.mem_operators_iff op.kind).mp h)
  | _ => rfl

/-- No failure is for want of an operator. -/
def Contract.knowing : Contract where
  call _ := True
  place _ := True
  fault f := f ≠ .unsupported .unaryOperator ∧ f ≠ .unsupported .binaryOperator

theorem Contract.knowing_admitsNodes (env : Environment) : Contract.knowing.AdmitsNodes env where
  call _ _ := trivial
  fault f hf := by
    constructor
    · rintro rfl
      cases hf
    · rintro rfl
      cases hf

/-- **A tree that the grammar has formed does not fail for want of an operator.** -/
theorem Expr.Formed.fault_ne {P : Token → Prop} {e : Expr} (h : e.Formed P) {env : Environment}
    {limit : Nat} {past calls : List Call} {err : EvalError}
    (hrun : (e.evaluate env limit).runOn past = (.error err, calls)) :
    err.fault ≠ .unsupported .unaryOperator ∧ err.fault ≠ .unsupported .binaryOperator := by
  have hholds : Contract.knowing.Holds (e.evaluate env limit) := by
    refine Contract.holds_evaluateWithin_at_nodes (Contract.knowing_admitsNodes env) ?_ limit
      (fun _ _ => trivial) (fun x hx what hwhat => ?_) fun t _ fault _ => ?_
    · exact ⟨by simp, by simp⟩
    · rw [strayOperator?_of_isFormed (h x hx).2] at hwhat
      cases hwhat
    · exact ⟨by simp, by simp⟩
  obtain ⟨-, -, -, herror⟩ := hholds past
  exact (herror err (congrArg Prod.fst hrun)).2

/-! ## Casts -/

/-- A letter is no blank. -/
theorem Text.isBlank_of_isAlpha {c : Char} (h : c.isAlpha = true) : isBlank c = false := by
  have hletter : (65 ≤ c.toNat ∧ c.toNat ≤ 90) ∨ (97 ≤ c.toNat ∧ c.toNat ≤ 122) := by
    rcases Bool.or_eq_true_iff.mp h with hupper | hlower
    · obtain ⟨hfirst, hlast⟩ := of_decide_eq_true hupper
      exact .inl ⟨UInt32.le_iff_toNat_le.mp hfirst, UInt32.le_iff_toNat_le.mp hlast⟩
    · obtain ⟨hfirst, hlast⟩ := Bool.and_eq_true_iff.mp hlower
      exact .inr ⟨UInt32.le_iff_toNat_le.mp (of_decide_eq_true hfirst),
        UInt32.le_iff_toNat_le.mp (of_decide_eq_true hlast)⟩
  rw [isBlank, List.any_eq_false]
  intro range hrange
  simp only [blankRanges, List.mem_cons, List.not_mem_nil, or_false] at hrange
  rcases hrange with rfl | rfl | rfl | rfl | rfl | rfl | rfl | rfl | rfl | rfl <;>
    (simp only [Bool.and_eq_true, decide_eq_true_eq, not_and]; omega)

namespace Lexeme

open Text

/-- A space or a tab is a blank between the parentheses of a cast. -/
theorem isBlank_of_isSpaceOrTab {c : Char} (h : isSpaceOrTab c = true) : isBlank c = true := by
  simp only [isSpaceOrTab, Bool.or_eq_true, beq_iff_eq] at h
  rcases h with rfl | rfl <;> decide

/-- The text of a cast is a type between parentheses, with spaces and tabs around it. -/
theorem exists_of_castText? {cs text : List Char} (h : castText? ('(' :: cs) = some text) :
    ∃ front type back, text = ['('] ++ front ++ type ++ back ++ [')'] ∧
      (∀ c ∈ front, isSpaceOrTab c = true) ∧ (∀ c ∈ type, c.isAlpha = true) ∧
      (∀ c ∈ back, isSpaceOrTab c = true) ∧
      (CastType.ofWord? (String.ofList type)).isSome = true := by
  unfold castText? at h
  dsimp only at h
  split at h
  · split at h
    · next hword =>
        cases h
        exact ⟨_, _, _, rfl, List.all_eq_true.mp List.all_takeWhile,
          List.all_eq_true.mp List.all_takeWhile, List.all_eq_true.mp List.all_takeWhile, hword⟩
    · cases h
  · cases h

/-- The parser finds the type that the scanner has seen. -/
theorem isSome_ofText?_of_castText? {cs text : List Char} (h : castText? ('(' :: cs) = some text) :
    (CastType.ofText? (String.ofList text)).isSome = true := by
  obtain ⟨front, type, back, rfl, hfront, htype, hback, hword⟩ := exists_of_castText? h
  have hsplit : ['('] ++ front ++ type ++ back ++ [')']
      = '(' :: (front ++ (type ++ back) ++ [')']) := by simp
  have hinner : ∀ c ∈ front ++ (type ++ back), c ≠ '(' ∧ c ≠ ')' := by
    have hclass : ∀ c, isSpaceOrTab c = true ∨ c.isAlpha = true → c ≠ '(' ∧ c ≠ ')' := by
      rintro c hc
      constructor <;> (rintro rfl; revert hc; decide)
    intro c hc
    rcases List.mem_append.mp hc with hc | hc
    · exact hclass c (.inl (hfront c hc))
    · rcases List.mem_append.mp hc with hc | hc
      · exact hclass c (.inr (htype c hc))
      · exact hclass c (.inl (hback c hc))
  have hopen : trimLeft (· == '(') ('(' :: (front ++ (type ++ back) ++ [')']))
      = front ++ (type ++ back) ++ [')'] := by
    show trimLeft (· == '(') (['('] ++ (front ++ (type ++ back) ++ [')'])) = _
    refine trimLeft_append (by simp) fun c hc => ?_
    rcases List.mem_append.mp (List.mem_of_head? hc) with hc | hc
    · exact beq_false_of_ne (hinner c hc).1
    · rw [List.mem_singleton.mp hc]
      rfl
  have hclose : trimRight (· == ')') (front ++ (type ++ back) ++ [')'])
      = front ++ (type ++ back) :=
    trimRight_append (by simp) fun c hc => beq_false_of_ne (hinner c hc).2
  have hblanks : trimBoth isBlank (front ++ (type ++ back)) = type := by
    refine trimBoth_append (fun c hc => isBlank_of_isSpaceOrTab (hfront c hc))
      (fun c hc => isBlank_of_isSpaceOrTab (hback c hc))
      (fun c hc => isBlank_of_isAlpha (htype c hc)) ?_
    rintro rfl
    revert hword
    decide
  rw [CastType.ofText?, String.toList_ofList, hsplit, hopen, hclose, trimBlanks, String.toList_ofList,
    hblanks]
  exact hword

end Lexeme

namespace Scanner

open Lexeme

section Casts

variable {cs text : List Char} {ps : List Piece}

/-- Only the text of a cast is read as one. -/
theorem castText?_of_read (h : read cs = .ok (.lexeme .cast text)) :
    ∃ rest, castText? ('(' :: rest) = some text := by
  rcases read_cases h with hoperand | ⟨rest, text', htext, heq⟩ | hoperator
  · rcases hoperand.kind_cases with hkind | hkind
    · have hnot : TokenKind.cast ∉ [TokenKind.variable, .integer, .float, .string] := by decide
      exact absurd hkind hnot
    · have hword := isWord_word (String.ofList text)
      rw [← hkind] at hword
      cases hword
  · cases heq
    exact ⟨rest, htext⟩
  · obtain ⟨spelling, kind, hmem, heq⟩ := exists_of_operator hoperator
    have hall : ∀ o ∈ operators, o.2 ≠ .cast := by decide
    cases heq
    exact absurd rfl (hall _ hmem)

theorem cast_notMem_embeddedOffset (h : embeddedOffset cs = .ok ps) :
    .lexeme .cast text ∉ ps := by
  rcases embeddedOffset_cases h with ⟨ds, -, rfl⟩ | ⟨k, word, rfl, hoffset⟩
  · simp [digitsPiece]
  · intro hmem
    cases List.mem_singleton.mp hmem
    cases hoffset default with
    | digits h => cases h.1
    | sigil h => cases h.1
    | word h => cases h

/-- A variable between quotes makes no cast. -/
theorem cast_notMem_embeddedVariable (h : embeddedVariable cs = .ok ps) :
    .lexeme .cast text ∉ ps := by
  unfold embeddedVariable at h
  dsimp only at h
  split at h
  · split at h
    · cases h
    · next offset hoffset =>
        have hnot : .lexeme .cast text ∉ offset := cast_notMem_embeddedOffset hoffset
        split at h
        · cases h
          simp [hnot]
        · cases h
  · split at h <;>
    · cases h
      simp
  · cases h
    simp

theorem castText?_of_step {mode next : Mode} (h : step mode cs = .ok (ps, next))
    (hmem : .lexeme .cast text ∈ ps) : ∃ rest, castText? ('(' :: rest) = some text := by
  have hcode : ∀ mode, codeStep mode cs = .ok (ps, next) →
      ∃ rest, castText? ('(' :: rest) = some text := by
    intro mode h
    unfold codeStep at h
    dsimp only at h
    split at h
    · cases h
      simp at hmem
    · split at h
      · cases h
        simp at hmem
      · cases h
        simp at hmem
      · rcases doubleQuoted_cases h with ⟨run, -, rfl, -⟩ | ⟨rfl, -⟩ <;> simp at hmem
      · obtain ⟨p, hread, heq⟩ := exists_of_map_eq_ok h
        cases heq
        rw [← List.mem_singleton.mp hmem] at hread
        exact castText?_of_read hread
  cases mode with
  | text opening outer =>
      change textStep opening outer cs = .ok (ps, next) at h
      unfold textStep at h
      split at h
      · cases h
        simp at hmem
      · cases h
        simp at hmem
      · split at h
        · obtain ⟨qs, hvar, heq⟩ := exists_of_map_eq_ok h
          cases heq
          exact absurd hmem (cast_notMem_embeddedVariable hvar)
        · cases h
          simp at hmem
  | _ => exact hcode _ h

theorem castText?_of_scanFrom {mode : Mode} {skip : Nat} (h : scanFrom mode skip cs = .ok ps)
    (hmem : .lexeme .cast text ∈ ps) : ∃ rest, castText? ('(' :: rest) = some text := by
  induction cs generalizing mode skip ps with
  | nil =>
      unfold scanFrom at h
      split at h
      · cases h
      · cases h
        cases hmem
  | cons c cs ih =>
      cases skip with
      | succ skip => exact ih h hmem
      | zero =>
          unfold scanFrom at h
          dsimp only at h
          split at h
          · cases h
          · next first next hstep =>
              split at h
              · cases h
              · next rest hrest =>
                  cases h
                  rcases List.mem_append.mp hmem with hmem | hmem
                  · exact castText?_of_step hstep hmem
                  · exact ih hrest hmem

end Casts

end Scanner

theorem Piece.lexeme_mem_of_mem_place {ps : List Piece} {p : Position} {t : Token}
    (ht : t ∈ place p ps) (heof : t.kind ≠ .eof) : .lexeme t.kind t.text.toList ∈ ps := by
  induction ps generalizing p with
  | nil =>
      cases List.mem_singleton.mp ht
      exact absurd rfl heof
  | cons q ps ih =>
      cases q with
      | blank text => exact List.mem_cons_of_mem _ (ih ht)
      | lexeme kind text =>
          rcases List.mem_cons.mp ht with rfl | ht
          · rw [String.toList_ofList]
            exact List.mem_cons_self
          · exact List.mem_cons_of_mem _ (ih ht)

/-- **Every cast among the tokens of a source names a type.** -/
theorem isSome_castType_of_tokenize {source : String} {ts : List Token}
    (h : tokenize source = .ok ts) {t : Token} (ht : t ∈ ts) (hkind : t.kind = .cast) :
    (CastType.ofText? t.text).isSome = true := by
  unfold tokenize at h
  split at h
  · cases h
  · next ps hscan =>
      cases h
      have hmem := Piece.lexeme_mem_of_mem_place ht (by simp [hkind])
      rw [hkind] at hmem
      obtain ⟨rest, htext⟩ := Scanner.castText?_of_scanFrom hscan hmem
      have htype := Lexeme.isSome_ofText?_of_castText? htext
      rwa [String.ofList_toList] at htype

/-! ## Errors -/

/-- The error does not demand the type of a cast. -/
def ParseError.HasType (e : ParseError) : Prop := e.fault.expected? ≠ some "cast type"

/-- No other demand is worded like this. -/
theorem Grammar.Demand.ne_castType {expected : String} (h : Demand expected) :
    expected ≠ "cast type" := by
  cases h with
  | listed h =>
      rintro rfl
      revert h
      decide
  | behindName name =>
      rw [String.append_assoc]
      exact append_ne_of_not_prefix (by decide)
  | behindOperator op =>
      rw [String.append_assoc]
      exact append_ne_of_not_prefix (by decide)

/-- Where the casts name types, no error demands one. -/
theorem ParseError.hasType_faults (limit : Nat) :
    Grammar.Faults limit (fun t => t.kind = .cast → (CastType.ofText? t.text).isSome = true)
      HasType where
  tooDeep _ _ := by simp [HasType, ParseFault.expected?]
  unexpected _ _ _ hd := by simpa [HasType, ParseFault.expected?] using hd.ne_castType
  ended _ _ _ _ hd := by simpa [HasType, ParseFault.expected?] using hd.ne_castType
  castType t ht hkind hnone := by
    have htype := ht hkind
    rw [hnone] at htype
    cases htype

/-- The scanner demands nothing, and the parser no type of a cast. -/
theorem Expr.hasType_of_parse_error {limit : Nat} {source : String} {e : ParseError}
    (h : Expr.parse limit source = .error e) : e.HasType := by
  unfold Expr.parse at h
  split at h
  · next e' htokenize =>
      cases h
      obtain ⟨f, hscan, rfl⟩ := exists_fault_of_tokenize htokenize
      have hexpected := (Scanner.scanFrom_quotes hscan).expected
      show f.fault.expected? ≠ some "cast type"
      rw [hexpected]
      exact nofun
  · next ts hts =>
      have hne : ts ≠ [] := Scanner.tokensFrom_ne_nil (tokenize_eq_ok_iff.mp hts)
      have hcasts : (TokenStream.ofList ts).Consists
          fun t => t.kind = .cast → (CastType.ofText? t.text).isSome = true :=
        TokenStream.consists_ofList (fun _ ht => isSome_castType_of_tokenize hts ht) hne
      exact (Expr.ofTokens_keeps (ParseError.hasType_faults limit) hcasts).1 e h

/-- Every tree that is parsed has been formed by the grammar. -/
theorem Expr.formed_of_ofTokens {limit : Nat} {ts : List Token} {tree : Expr}
    (h : Expr.ofTokens limit ts = .ok tree) : tree.Formed fun _ => True := by
  have hE : Grammar.Faults limit (fun _ => True) fun _ => True :=
    ⟨fun _ _ => trivial, fun _ _ _ _ => trivial, fun _ _ _ _ _ => trivial, fun _ _ _ _ => trivial⟩
  exact (Expr.ofTokens_keeps hE fun _ _ => trivial).2 tree h

/-- **Nothing that is parsed is unknown to the evaluator.**  Whatever the tokens are, the signs of a
tree are those that the parser reads as signs, each binary operator belongs to exactly one level of
the grammar, and no evaluation of the tree fails for want of an operator.  A level makes nodes of
its own operators only, or none.  Every cast that the scanner makes of a source names a type, so
that no parse error demands one. -/
theorem parsed_operators_are_known :
    (∀ limit ts tree, Expr.ofTokens limit ts = .ok tree →
      (∀ op x, (Expr.unary op x).Within tree → op.kind ∈ [.minus, .plus, .bang]) ∧
      (∀ left op right, (Expr.binary left op right).Within tree →
        ∃! r, r ∈ Grammar.rules ∧ op.kind ∈ r.operators) ∧
      ∀ env limit' past err calls, (tree.evaluate env limit').runOn past = (.error err, calls) →
        err.fault ≠ .unsupported .unaryOperator ∧ err.fault ≠ .unsupported .binaryOperator) ∧
    (∀ limit depth r tighter s e s',
      Grammar.level (Grammar.ofDepth limit depth) (r :: tighter) s = .ok (e, s') →
      r.Makes e ∨ Grammar.level (Grammar.ofDepth limit depth) tighter s = .ok (e, s')) ∧
    (∀ source ts, tokenize source = .ok ts → ∀ t ∈ ts, t.kind = .cast →
      ∃ type, CastType.ofText? t.text = some type) ∧
    ∀ limit source e, Expr.parse limit source = .error e →
      e.fault.expected? ≠ some "cast type" := by
  refine ⟨fun limit ts tree h => ?_, fun limit depth r tighter s e s' h => ?_,
    fun source ts h t ht hkind => ?_, fun limit source e h => Expr.hasType_of_parse_error h⟩
  · have hformed := Expr.formed_of_ofTokens h
    refine ⟨fun op x hx => (hformed _ hx).2, fun left op right hx => ?_,
      fun env limit' past err calls hrun => hformed.fault_ne hrun⟩
    obtain ⟨r, hr, hop⟩ := (hformed _ hx).2
    exact ⟨r, ⟨hr, hop⟩, fun r' hr' => Grammar.eq_of_mem_operators hr'.1 hr hr'.2 hop⟩
  · exact Grammar.level_cases h
  · exact Option.isSome_iff_exists.mp (isSome_castType_of_tokenize h ht hkind)

/-- In `-( INT )$a ** $b` the sign, the cast and the power are known, and the evaluation stops at
the variable; behind the cast alone an expression is missing, and no type. -/
theorem negated_cast_of_power_is_known :
    ∃ ts tree, tokenize "-( INT )$a ** $b" = .ok ts ∧ Expr.ofTokens 6 ts = .ok tree ∧
      (∃ r ∈ Grammar.rules, TokenKind.starStar ∈ r.operators) ∧
      (∃ s e s', Grammar.level (Grammar.ofDepth 1 1) [.right .starStar] s = .ok (e, s') ∧
        (Grammar.Rule.Makes (.right .starStar) e ∨
          Grammar.level (Grammar.ofDepth 1 1) [] s = .ok (e, s'))) ∧
      (∀ host denied, ∃ err,
        ((tree.evaluate ⟨.ofList [], host, denied⟩ 6).runOn []).1 = .error err ∧
        err.fault ≠ .unsupported .unaryOperator) ∧
      (∃ t ∈ ts, t.text = "( INT )" ∧ ∃ type, CastType.ofText? t.text = some type) ∧
      ∃ err, Expr.parse 6 "( INT )" = .error err ∧ err.fault.expected? ≠ some "cast type" := by
  obtain ⟨hparsed, hlevel, hcast, herror⟩ := parsed_operators_are_known
  have htokens : tokenize "-( INT )$a ** $b" = .ok
      [⟨.minus, "-", ⟨0, 1, 1, 1⟩⟩, ⟨.cast, "( INT )", ⟨1, 7, 1, 2⟩⟩,
       ⟨.variable, "$a", ⟨8, 2, 1, 9⟩⟩, ⟨.starStar, "**", ⟨11, 2, 1, 12⟩⟩,
       ⟨.variable, "$b", ⟨14, 2, 1, 15⟩⟩, ⟨.eof, "", ⟨16, 0, 1, 17⟩⟩] := rfl
  have hofTokens : Expr.ofTokens 6
      [⟨.minus, "-", ⟨0, 1, 1, 1⟩⟩, ⟨.cast, "( INT )", ⟨1, 7, 1, 2⟩⟩,
       ⟨.variable, "$a", ⟨8, 2, 1, 9⟩⟩, ⟨.starStar, "**", ⟨11, 2, 1, 12⟩⟩,
       ⟨.variable, "$b", ⟨14, 2, 1, 15⟩⟩, ⟨.eof, "", ⟨16, 0, 1, 17⟩⟩]
      = .ok (.binary (.unary ⟨.minus, "-", ⟨0, 1, 1, 1⟩⟩ (.cast ⟨.cast, "( INT )", ⟨1, 7, 1, 2⟩⟩ .int
        (.variable ⟨.variable, "$a", ⟨8, 2, 1, 9⟩⟩))) ⟨.starStar, "**", ⟨11, 2, 1, 12⟩⟩
        (.variable ⟨.variable, "$b", ⟨14, 2, 1, 15⟩⟩)) := rfl
  have hparse : Expr.parse 6 "( INT )"
      = .error ⟨.unexpectedEnd "expression", ⟨7, 0, 1, 8⟩⟩ := by
    have hcastTokens : tokenize "( INT )" = .ok
        [⟨.cast, "( INT )", ⟨0, 7, 1, 1⟩⟩, ⟨.eof, "", ⟨7, 0, 1, 8⟩⟩] := rfl
    unfold Expr.parse
    rw [hcastTokens]
    rfl
  have hpower : Grammar.level (Grammar.ofDepth 1 1) [.right .starStar]
      ⟨[], ⟨.variable, "$a", ⟨0, 2, 1, 1⟩⟩,
        [⟨.starStar, "**", ⟨3, 2, 1, 4⟩⟩, ⟨.variable, "$b", ⟨6, 2, 1, 7⟩⟩, ⟨.eof, "", ⟨8, 0, 1, 9⟩⟩]⟩
      = .ok (.binary (.variable ⟨.variable, "$a", ⟨0, 2, 1, 1⟩⟩) ⟨.starStar, "**", ⟨3, 2, 1, 4⟩⟩
          (.variable ⟨.variable, "$b", ⟨6, 2, 1, 7⟩⟩),
        ⟨[⟨.variable, "$b", ⟨6, 2, 1, 7⟩⟩, ⟨.starStar, "**", ⟨3, 2, 1, 4⟩⟩,
          ⟨.variable, "$a", ⟨0, 2, 1, 1⟩⟩], ⟨.eof, "", ⟨8, 0, 1, 9⟩⟩, []⟩) := rfl
  obtain ⟨-, hbinary, hevaluate⟩ := hparsed 6 _ _ hofTokens
  refine ⟨_, _, htokens, hofTokens, ?_, ⟨_, _, _, hpower, hlevel 1 1 _ _ _ _ _ hpower⟩,
    fun host denied => ?_, ?_, _, hparse, herror 6 _ _ hparse⟩
  · exact (hbinary _ _ _ (.refl _)).exists
  · have hrun : ((Expr.binary (.unary ⟨.minus, "-", ⟨0, 1, 1, 1⟩⟩
        (.cast ⟨.cast, "( INT )", ⟨1, 7, 1, 2⟩⟩ .int (.variable ⟨.variable, "$a", ⟨8, 2, 1, 9⟩⟩)))
        ⟨.starStar, "**", ⟨11, 2, 1, 12⟩⟩ (.variable ⟨.variable, "$b", ⟨14, 2, 1, 15⟩⟩)).evaluate
          ⟨.ofList [], host, denied⟩ 6).runOn []
        = (.error ⟨.undefinedVariable "$a", ⟨8, 2, 1, 9⟩⟩, []) := rfl
    exact ⟨_, congrArg Prod.fst hrun, (hevaluate _ 6 [] _ _ hrun).1⟩
  · exact ⟨_, List.mem_cons_of_mem _ List.mem_cons_self, rfl,
      hcast _ _ htokens _ (List.mem_cons_of_mem _ List.mem_cons_self) rfl⟩

end GuardedExpr
