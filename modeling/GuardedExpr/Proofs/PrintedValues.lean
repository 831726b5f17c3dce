/-
# Printed values — what is printed reads back

`Value.literal` writes null, booleans, integers, strings and tables of these as an
expression.  Every part of the text is one token or is put together from such texts,
so that it reads back (`Spelling`); and the expression evaluates to the value it was
printed from, whatever the context and the host.

Two integers are set aside.  The least one has no literal: its digits alone are too
large.  And a key that is a string but spells an integer becomes that integer.
-/
import GuardedExpr.Engine
import GuardedExpr.Proofs.Contract
import GuardedExpr.Proofs.IntegerTexts
import GuardedExpr.Proofs.Spelling
import GuardedExpr.Proofs.Tables
import GuardedExpr.Value.Literal

namespace GuardedExpr

open Text Lexeme

/-! ## Integers -/

section Integers

/-- Only the number zero starts with a zero. -/
theorem head?_toDigits_ne_zero {n : Nat} (hn : n ≠ 0) :
    (Nat.toDigits 10 n).head? ≠ some '0' := by
  induction n using Nat.strongRecOn with
  | ind n ih =>
      by_cases hlt : n < 10
      · rw [Nat.toDigits_of_lt_base hlt]
        simpa using hn
      · have hdiv : n / 10 ≠ 0 := by omega
        have hhead := ih (n / 10) (by omega) hdiv
        rw [Nat.toDigits_of_base_le (by decide) (by omega)]
        obtain ⟨c, cs, hcs⟩ := List.exists_cons_of_ne_nil (Nat.toDigits_ne_nil (n := n / 10) (b := 10))
        rw [hcs] at hhead ⊢
        exact hhead

/-- The digits of a number, where a leading zero is the only digit. -/
theorem toDigits_cases (n : Nat) :
    Nat.toDigits 10 n = ['0'] ∨ (Nat.toDigits 10 n).head? ≠ some '0' := by
  by_cases hn : n = 0
  · subst hn
    exact .inl (Nat.toDigits_zero 10)
  · exact .inr (head?_toDigits_ne_zero hn)

/-- The digits of a number count it. -/
theorem exists_digits_toDigits (n : Nat) :
    ∃ ds, ds ≠ [] ∧ (∀ d ∈ ds, d < 10) ∧ Nat.toDigits 10 n = ds.map Nat.digitChar ∧
      Nat.ofDigits 10 ds.reverse = n := by
  induction n using Nat.strongRecOn with
  | ind n ih =>
      by_cases hlt : n < 10
      · rw [Nat.toDigits_of_lt_base hlt]
        exact ⟨[n], by simp, by simpa using hlt, rfl, by simp⟩
      · obtain ⟨ds, hne, hds, hdigits, hvalue⟩ := ih (n / 10) (by omega)
        have hlast : n % 10 < 10 := Nat.mod_lt n (by decide)
        rw [Nat.toDigits_of_base_le (by decide) (by omega), hdigits]
        refine ⟨ds ++ [n % 10], by simp, ?_, by simp, ?_⟩
        · simpa [or_imp, forall_and, hlast] using hds
        · rw [List.reverse_append, List.reverse_singleton, List.singleton_append,
            Nat.ofDigits_cons, hvalue]
          exact Nat.mod_add_div n 10

theorem exists_digitText_toDigits (n : Nat) :
    ∃ ds, DigitText 10 ds (Nat.toDigits 10 n) ∧ Nat.ofDigits 10 ds.reverse = n := by
  obtain ⟨ds, hne, hds, hdigits, hvalue⟩ := exists_digits_toDigits n
  exact ⟨ds, hdigits ▸ digitText_digitChars hne hds, hvalue⟩

theorem exists_integerText_toDigits (n : Nat) :
    ∃ ds, IntegerText 10 ds (Nat.toDigits 10 n) ∧ Nat.ofDigits 10 ds.reverse = n := by
  obtain ⟨ds, hds, hvalue⟩ := exists_digitText_toDigits n
  exact ⟨ds, hds.integerText (toDigits_cases n), hvalue⟩

/-- The digits of a number are a token. -/
theorem readAs_toDigits (n : Nat) :
    ReadAs (Nat.toDigits 10 n) (.lexeme .integer (Nat.toDigits 10 n)) := by
  obtain ⟨ds, hds, -⟩ := exists_integerText_toDigits n
  exact hds.readAs

/-- The digits of a number that fits are an integer literal of it. -/
theorem ofInteger_toDigits {n : Nat} (hn : (n : Int) ≤ Int64.maxValue.toInt) :
    Constant.ofInteger (String.ofList (Nat.toDigits 10 n)) = .ok (.int (Int64.ofInt n)) := by
  obtain ⟨ds, hds, hvalue⟩ := exists_integerText_toDigits n
  obtain ⟨v, hnumber, hv⟩ := hds.exists_ofInteger
  rw [hvalue] at hnumber
  rw [hv]
  cases hnumber with
  | int hi => rw [← hi, Int64.ofInt_toInt]
  | float hlarge => exact absurd hn (by omega)

end Integers

/-! ## Strings -/

section Strings

theorem singleQuoted?_quoted (cs : List Char) :
    singleQuoted? (cs.flatMap Literal.quoteChar ++ ['\''])
      = some (cs.flatMap Literal.quoteChar ++ ['\'']) := by
  induction cs with
  | nil => rfl
  | cons c cs ih =>
      rw [List.flatMap_cons, List.append_assoc, Literal.quoteChar]
      split
      · show (singleQuoted? (cs.flatMap Literal.quoteChar ++ ['\''])).map ('\\' :: c :: ·) = _
        rw [ih]
        rfl
      · next hc =>
          rw [not_or] at hc
          rw [List.singleton_append, singleQuoted?_cons _ hc.2 hc.1, ih]
          rfl

theorem unquoteSingle_quoted (cs : List Char) :
    Literal.unquoteSingle (cs.flatMap Literal.quoteChar) = cs := by
  induction cs with
  | nil => rfl
  | cons c cs ih =>
      rw [List.flatMap_cons, Literal.quoteChar]
      split
      · next hc =>
          rcases hc with rfl | rfl <;>
          · show _ :: Literal.unquoteSingle (cs.flatMap Literal.quoteChar) = _
            rw [ih]
      · next hc =>
          rw [not_or] at hc
          rw [List.singleton_append, Literal.unquoteSingle, ih]
          · intro cs' hslash
            exact absurd hslash hc.1
          · intro cs' hslash
            exact absurd hslash hc.1

/-- A quoted text is a token. -/
theorem readAs_quoteSingle (s : String) :
    ReadAs (Literal.quoteSingle s).toList (.lexeme .string (Literal.quoteSingle s).toList) := by
  rw [Literal.quoteSingle, String.toList_ofList]
  refine .quoted ?_
  unfold singleQuotedString
  rw [List.drop_one, List.tail_cons, singleQuoted?_quoted]
  rfl

/-- A quoted text read as a literal gives the text. -/
theorem ofQuoted_quoteSingle (s : String) :
    Constant.ofQuoted (Literal.quoteSingle s) = .ok (.str s) := by
  have hbetween : Constant.betweenQuotes? '\'' (Literal.quoteSingle s).toList
      = some (String.ofList (s.toList.flatMap Literal.quoteChar)) := by
    rw [Literal.quoteSingle, String.toList_ofList, Constant.betweenQuotes?]
    simp
  unfold Constant.ofQuoted
  rw [hbetween]
  simp [Literal.unescapeSingle, unquoteSingle_quoted]

end Strings

/-! ## Values -/

/-- With at least `n` levels to go the expression gives the value, whatever the environment, and
nothing is asked. -/
def Expr.Gives (n : Nat) (v : Value) (e : Expr) : Prop :=
  ∀ env limit depth, n ≤ depth → e.evaluateWithin env limit depth = pure v

/-- The key can be written and is itself again: no string that spells an integer, and not the
least integer. -/
def Key.IsPlain : Key → Prop
  | .int n => n ≠ Int64.minValue
  | .str s => readInt? s.toList = none

/-- Null, booleans, integers other than the least, strings, and tables of these under distinct
plain keys, with at most `n` levels of tables. -/
inductive Value.IsData : (n : Nat) → Value → Prop
  | null {n : Nat} : IsData n .null
  | bool {n : Nat} (b : Bool) : IsData n (.bool b)
  | int {n : Nat} {i : Int64} : i ≠ Int64.minValue → IsData n (.int i)
  | str {n : Nat} (s : String) : IsData n (.str s)
  | table {n : Nat} {es : List (Key × Value)} : (es.map Prod.fst).Nodup →
      (∀ e ∈ es, e.1.IsPlain) → (∀ e ∈ es, IsData n e.2) → IsData (n + 1) (.table es)

section Scalars

theorem gives_literal {t : Token} {v : Value} (h : Constant.ofToken t = .ok v) :
    (Expr.literal t).Gives 1 v := by
  intro env limit depth hdepth
  obtain ⟨d, rfl⟩ : ∃ d, depth = d + 1 := ⟨depth - 1, by omega⟩
  show EvalM.orFail _ _ (Constant.ofToken t) = _
  rw [h]
  rfl

/-- A literal whose token spells the value. -/
theorem isExpression_literal {k : TokenKind} {text : List Char} {v : Value}
    (h : Spelt text [(k, String.ofList text)])
    (hk : k ∈ [TokenKind.integer, .float, .string, .bool, .null])
    (hv : ∀ t : Token, t.kind = k → t.text = String.ofList text → Constant.ofToken t = .ok v) :
    IsExpression 1 text (Expr.Gives 1 v) := by
  refine (isOperand_literal h hk).expression.imp ?_
  rintro e ⟨t, ht, rfl⟩
  exact gives_literal (hv t (congrArg Prod.fst ht) (congrArg Prod.snd ht))

theorem spelt_toDigits (n : Nat) :
    Spelt (Nat.toDigits 10 n) [(.integer, String.ofList (Nat.toDigits 10 n))] :=
  (readAs_toDigits n).spelt rfl

theorem spelt_quoteSingle (s : String) : Spelt (Literal.quoteSingle s).toList
    [(.string, String.ofList (Literal.quoteSingle s).toList)] :=
  (readAs_quoteSingle s).spelt rfl

theorem isExpression_null : IsExpression 1 "null".toList (Expr.Gives 1 .null) := by
  have hread : ReadAs "null".toList (.lexeme .null "null".toList) := .named rfl
  have hspelt := (Scanner.isLexeme_of_readAs hread).spelt_word (List.all_eq_true.mp (by decide)) (by decide)
  refine isExpression_literal hspelt (by decide) fun t hkind _ => ?_
  rw [Constant.ofToken, hkind]

theorem isExpression_bool (b : Bool) :
    IsExpression 1 (if b then "true" else "false").toList (Expr.Gives 1 (.bool b)) := by
  cases b with
  | true =>
      have hread : ReadAs "true".toList (.lexeme .bool "true".toList) := .named rfl
      have hspelt := (Scanner.isLexeme_of_readAs hread).spelt_word (List.all_eq_true.mp (by decide)) (by decide)
      refine isExpression_literal hspelt (by decide) fun t hkind htext => ?_
      rw [Constant.ofToken, hkind, htext]
      rfl
  | false =>
      have hread : ReadAs "false".toList (.lexeme .bool "false".toList) := .named rfl
      have hspelt := (Scanner.isLexeme_of_readAs hread).spelt_word (List.all_eq_true.mp (by decide)) (by decide)
      refine isExpression_literal hspelt (by decide) fun t hkind htext => ?_
      rw [Constant.ofToken, hkind, htext]
      rfl

theorem isExpression_str (s : String) :
    IsExpression 1 (Literal.quoteSingle s).toList (Expr.Gives 1 (.str s)) := by
  refine isExpression_literal (spelt_quoteSingle s) (by decide) fun t hkind htext => ?_
  rw [String.ofList_toList] at htext
  rw [Constant.ofToken, hkind, htext]
  exact ofQuoted_quoteSingle s

/-- The digits of a number that fits, which may stand behind a sign. -/
theorem isOperand_toDigits {n : Nat} (hn : (n : Int) ≤ Int64.maxValue.toInt) :
    IsOperand 0 (Nat.toDigits 10 n) (Expr.Gives 1 (.int (Int64.ofInt n))) := by
  refine (isOperand_literal (spelt_toDigits n) (by decide)).imp ?_
  rintro e ⟨t, ht, rfl⟩
  refine gives_literal ?_
  have hkind : t.kind = .integer := congrArg Prod.fst ht
  have htext : t.text = String.ofList (Nat.toDigits 10 n) := congrArg Prod.snd ht
  rw [Constant.ofToken, hkind, htext]
  exact ofInteger_toDigits hn

/-- The integer with the other sign, where it has one. -/
theorem negate_ofInt {i : Int64} (hneg : i.toInt < 0) (hi : i ≠ Int64.minValue) :
    (Number.int (Int64.ofInt i.toInt.natAbs)).negate = .int i := by
  have hmax : Int64.maxValue.toInt = 9223372036854775807 := by decide
  have hmin : Int64.minValue.toInt = -9223372036854775808 := by decide
  have hlow := i.minValue_le_toInt
  have hne : i.toInt ≠ Int64.minValue.toInt := fun h => hi (Int64.toInt_inj.mp h)
  have habs : (Int64.ofInt i.toInt.natAbs).toInt = i.toInt.natAbs :=
    Int64.toInt_ofInt_of_le (by omega) (by omega)
  have hback : -(i.toInt.natAbs : Int) = i.toInt := by omega
  simp only [Number.negate, habs, hback, fit64?]
  rw [if_pos ⟨by omega, by omega⟩, Int64.ofInt_toInt]

/-- A minus in front of a number. -/
theorem isExpression_minus {cs : List Char} {n : Number}
    (h : IsOperand 0 cs (Expr.Gives 1 n.toValue)) :
    IsExpression 2 ('-' :: cs) (Expr.Gives 2 n.negate.toValue) := by
  refine (h.signed (k := .minus) (by simp)).imp ?_
  rintro e ⟨op, x, hop, hx, rfl⟩ env limit depth hdepth
  obtain ⟨d, rfl⟩ : ∃ d, depth = d + 1 := ⟨depth - 1, by omega⟩
  have hkind : op.kind = .minus := congrArg Prod.fst hop
  show (x.evaluateWithin env limit d >>= Eval.unaryOperation op) = _
  rw [hx env limit d (by omega), pure_bind]
  unfold Eval.unaryOperation
  rw [hkind, if_neg (by decide)]
  cases n <;> rfl

theorem isExpression_int {i : Int64} (hi : i ≠ Int64.minValue) :
    IsExpression 2 (intText i).toList (Expr.Gives 2 (.int i)) := by
  have hmax : Int64.maxValue.toInt = 9223372036854775807 := by decide
  have hmin : Int64.minValue.toInt = -9223372036854775808 := by decide
  have hlow := i.minValue_le_toInt
  have hhigh := i.toInt_le
  have hne : i.toInt ≠ Int64.minValue.toInt := fun h => hi (Int64.toInt_inj.mp h)
  have hdigits := isOperand_toDigits (n := i.toInt.natAbs) (by omega)
  rw [intText, String.toList_ofList, intDigits]
  split
  · next hneg =>
      have hminus := isExpression_minus (n := .int (Int64.ofInt i.toInt.natAbs)) hdigits
      rwa [negate_ofInt hneg hi] at hminus
  · next hneg =>
      refine (hdigits.expression.mono (by omega)).imp fun e he env limit depth hdepth => ?_
      have hback : (i.toInt.natAbs : Int) = i.toInt := by omega
      rw [he env limit depth (by omega), hback, Int64.ofInt_toInt]

end Scalars

/-! ## Tables -/

section Tables

/-- A key before which others stand, all of them distinct, is none of those. -/
theorem notMem_keys_of_nodup {t es : Table} {k : Key} {v : Value}
    (h : ((t ++ (k, v) :: es).map Prod.fst).Nodup) : k ∉ t.keys := by
  rw [List.map_append, List.nodup_append] at h
  exact fun hk => h.2.2 k hk k (by simp) rfl

/-- What a printed entry is read as. -/
def IsEntry (n : Nat) (entry : Key × Value) (element : Element) : Prop :=
  ∃ key value, key.Gives n entry.1.toValue ∧ value.Gives n entry.2 ∧ element = .pair key value

theorem keyOf_toValue {k : Key} (hk : k.IsPlain) (l : Location) :
    Eval.keyOf l k.toValue = pure k := by
  cases k with
  | int i => rfl
  | str s =>
      have hs : readInt? s.toList = none := hk
      simp [Key.toValue, Eval.keyOf, Key.ofString, hs]

/-- Entries under distinct plain keys are written into the table one behind the other. -/
theorem elements_of_entries {n : Nat} {es : List (Key × Value)} {elements : List Element}
    (h : List.Forall₂ (IsEntry n) es elements) (hplain : ∀ e ∈ es, e.1.IsPlain) (t : Table)
    (hnodup : ((t ++ es).map Prod.fst).Nodup) (env : Environment) (limit depth : Nat)
    (hdepth : n ≤ depth) :
    Eval.elements (Expr.evaluateWithin env limit depth) t elements = pure (t ++ es) := by
  induction h generalizing t with
  | nil => rw [List.append_nil]; rfl
  | @cons entry element es elements hentry _ ih =>
      obtain ⟨key, value, hkey, hvalue, rfl⟩ := hentry
      obtain ⟨k, v⟩ := entry
      have hk : k.IsPlain := hplain (k, v) List.mem_cons_self
      rw [Eval.elements, hkey env limit depth hdepth, pure_bind, keyOf_toValue hk, pure_bind,
        hvalue env limit depth hdepth, pure_bind, Table.insert_eq_append (notMem_keys_of_nodup hnodup)]
      have hnodup' : ((t ++ [(k, v)] ++ es).map Prod.fst).Nodup := by
        rwa [List.append_assoc, List.singleton_append]
      rw [ih (fun e he => hplain e (List.mem_cons_of_mem _ he)) _ hnodup', List.append_assoc,
        List.singleton_append]

theorem isExpression_key {k : Key} (hk : k.IsPlain) :
    IsExpression 2 k.literal.toList (Expr.Gives 2 k.toValue) := by
  cases k with
  | int i => exact isExpression_int hk
  | str s =>
      refine ((isExpression_str s).mono (by decide)).imp fun e he => ?_
      exact fun env limit depth hdepth => he env limit depth (by omega)

theorem toList_entryLiterals (es : List (Key × Value)) :
    (Value.entryLiterals es).map String.toList
      = es.map fun e => e.1.literal.toList ++ ' ' :: (['=', '>'] ++ ' ' :: e.2.literal.toList) := by
  induction es with
  | nil => rfl
  | cons e es ih =>
      obtain ⟨k, v⟩ := e
      rw [Value.entryLiterals, List.map_cons, List.map_cons, ih]
      simp [String.toList_append]

end Tables

/-- Data is printed as an expression that gives it. -/
theorem isExpression_of_isData {n : Nat} {v : Value} (h : v.IsData n) :
    IsExpression (n + 2) v.literal.toList (Expr.Gives (n + 2) v) := by
  have hscalar : ∀ {m n : Nat} {cs : List Char} {v : Value}, IsExpression m cs (Expr.Gives m v) →
      m ≤ n + 2 → IsExpression (n + 2) cs (Expr.Gives (n + 2) v) := by
    intro m n cs v hv hle
    exact (hv.mono hle).imp fun e he env limit depth hdepth => he env limit depth (by omega)
  induction h with
  | null => exact hscalar isExpression_null (by omega)
  | bool b => exact hscalar (isExpression_bool b) (by omega)
  | int hi => exact hscalar (isExpression_int hi) (by omega)
  | str s => exact hscalar (isExpression_str s) (by omega)
  | @table n es hnodup hplain _ ih =>
      have hitems : ∀ x ∈ es.map (fun e => (e.1.literal.toList ++ ' ' :: (['=', '>'] ++
          ' ' :: e.2.literal.toList), IsEntry (n + 2) e)), IsElement (n + 2) x.1 x.2 := by
        intro x hx
        obtain ⟨e, he, rfl⟩ := List.mem_map.mp hx
        have hkey := hscalar (n := n) (isExpression_key (hplain e he)) (by omega)
        refine (hkey.pair (ih e he)).imp ?_
        rintro element ⟨key, value, hkey, hvalue, rfl⟩
        exact ⟨key, value, hkey, hvalue, rfl⟩
      have harray := (isOperand_array hitems).expression
      have htext : (Value.table es).literal.toList = '[' :: List.intercalate [',', ' ']
          ((es.map fun e => (e.1.literal.toList ++ ' ' :: (['=', '>'] ++
            ' ' :: e.2.literal.toList), IsEntry (n + 2) e)).map Prod.fst) ++ [']'] := by
        rw [Value.literal, String.toList_append, String.toList_append, String.toList_intercalate,
          toList_entryLiterals, List.map_map]
        rfl
      rw [htext]
      refine harray.imp ?_
      rintro e ⟨opening, elements, -, helements, rfl⟩ env limit depth hdepth
      obtain ⟨d, rfl⟩ : ∃ d, depth = d + 1 := ⟨depth - 1, by omega⟩
      rw [List.forall₂_map_left_iff] at helements
      have hrun := elements_of_entries helements hplain [] hnodup env limit d (by omega)
      show (Eval.elements (Expr.evaluateWithin env limit d) [] elements >>= fun t =>
        (pure (Value.table t) : EvalM Value)) = _
      rw [hrun, pure_bind]
      rfl

/-! ## The round trip -/

theorem identicalEntries_self {es : List (Key × Value)}
    (h : ∀ e ∈ es, e.2.identical e.2 = true) : Value.identicalEntries es es = true := by
  induction es with
  | nil => rfl
  | cons e es ih =>
      obtain ⟨k, v⟩ := e
      have hv : v.identical v = true := h (k, v) List.mem_cons_self
      rw [Value.identicalEntries, beq_self_eq_true, hv,
        ih fun e he => h e (List.mem_cons_of_mem _ he)]
      rfl

/-- Data, which has no floats, is identical to itself. -/
theorem identical_of_isData {n : Nat} {v : Value} (h : v.IsData n) : v.identical v = true := by
  induction h with
  | null => rfl
  | bool | int | str => exact beq_self_eq_true _
  | table _ _ _ ih => exact identicalEntries_self ih

/-- **Printed results read back.**  For data with at most a hundred levels of tables, the printed
text compiles with the default limits, and running it with no variables and no host gives the same
value, its entries in the same order, without a call. -/
theorem printed_value_reads_back {v : Value} (h : v.IsData 100) :
    ∃ code, Engine.standard.compile v.literal = .ok code ∧
      (∀ past, (Engine.standard.run code .empty .absent).run past = (.ok v, past)) ∧
      v.identical v = true := by
  obtain ⟨e, hparse, he⟩ := (isExpression_of_isData h).exists_parse 128 (by decide)
  rw [String.ofList_toList] at hparse
  refine ⟨⟨v.literal, e⟩, ?_, ?_, identical_of_isData h⟩
  · unfold Engine.compile
    rw [show Engine.standard.limits.parsing = 128 from rfl, hparse]
  · intro past
    have hrun := he ⟨.empty, .absent, Engine.standard.denied⟩ 1000 1000 (by decide)
    unfold Engine.run Engine.evaluate Expr.evaluate
    rw [show Engine.standard.limits.evaluation = 1000 from rfl]
    dsimp only
    rw [hrun]
    rfl

/-- A negative key, a quote and a backslash in a string, and a table in a table. -/
def sampleData : Value :=
  .table [(.int (-3), .str "it's\\"),
    (.str "a", .table [(.str "", .int (-40)), (.int 0, .null), (.str "08", .bool true)])]

theorem sample_data_reads_back : sampleData.IsData 100 ∧
    ∃ code, Engine.standard.compile sampleData.literal = .ok code ∧
      (∀ past, (Engine.standard.run code .empty .absent).run past = (.ok sampleData, past)) ∧
      sampleData.identical sampleData = true := by
  have hinner : ∀ n, Value.IsData (n + 1)
      (.table [(.str "", .int (-40)), (.int 0, .null), (.str "08", .bool true)]) := by
    intro n
    refine .table (by decide) ?_ ?_
    · simp only [List.forall_mem_cons, Key.IsPlain]
      exact ⟨by decide, by decide, by decide, by simp⟩
    · simp only [List.forall_mem_cons]
      exact ⟨.int (by decide), .null, .bool true, by simp⟩
  have hdata : sampleData.IsData 100 := by
    refine .table (by decide) ?_ ?_
    · simp only [List.forall_mem_cons, Key.IsPlain]
      exact ⟨by decide, by decide, by simp⟩
    · simp only [List.forall_mem_cons]
      exact ⟨.str _, hinner 98, by simp⟩
  exact ⟨hdata, printed_value_reads_back hdata⟩

end GuardedExpr
