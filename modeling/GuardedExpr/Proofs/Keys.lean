/-
# Keys — strings and integers that address the same entry

    "12" and 12            one entry
    "012", "+12", "-0"     entries of their own, as is every other string

A string that is used as a key is taken for an integer if it is the text which that
integer is written in.  The check for this text (no sign but a minus, no zero in front,
no minus zero) leaves exactly one text for each integer, since digits without a
leading zero are determined by the number that they count.  So a key tells which
string it was, and two strings share an entry only if they are equal.

Literals write and accesses read under the key that the value in the place of the
key is taken for (`Value.Addresses`).  A string and an integer are taken for one key
exactly if the string is the text of the integer, the least and the greatest one
included.
-/
import GuardedExpr.Proofs.NumericStrings
import GuardedExpr.Proofs.SkippedOperands
import GuardedExpr.Proofs.Tables

namespace GuardedExpr

open Text

/-! ## Reading an integer -/

/-- Digits that do not start with a zero are determined by the number that they count. -/
theorem digits_ofDigits_reverse {ds : List Nat} (h : ∀ d ∈ ds, d < 10) (hhead : ds.head? ≠ some 0) :
    Nat.digits 10 (Nat.ofDigits 10 ds.reverse) = ds.reverse := by
  refine Nat.digits_ofDigits 10 (by decide) _ (by simpa using h) fun hne hlast => hhead ?_
  rw [List.getLast_reverse] at hlast
  rw [← hlast, List.head?_eq_some_head]

/-- Digits that do not start with a zero are those of the number that they count. -/
theorem toDigits_ofDigits {ds : List Nat} (hne : ds ≠ []) (h : ∀ d ∈ ds, d < 10)
    (hhead : ds.head? ≠ some 0) :
    Nat.toDigits 10 (Nat.ofDigits 10 ds.reverse) = ds.map Nat.digitChar := by
  have hds := digits_ofDigits_reverse h hhead
  obtain ⟨es, -, hes, hdigits, hvalue⟩ := exists_digits_toDigits (Nat.ofDigits 10 ds.reverse)
  have hpos : Nat.ofDigits 10 ds.reverse ≠ 0 := by
    intro hzero
    rw [hzero, Nat.digits_zero] at hds
    exact hne (List.reverse_eq_nil_iff.mp hds.symm)
  have hhead' : es.head? ≠ some 0 := by
    intro hzero
    refine head?_toDigits_ne_zero hpos ?_
    rw [hdigits, List.head?_map, hzero]
    rfl
  have hsame := digits_ofDigits_reverse hes hhead'
  rw [hvalue, hds, List.reverse_inj] at hsame
  rw [hdigits, hsame]

/-- Digits that are zero, or do not start with a zero, are those of the number that they count. -/
theorem toDigits_of_canonical {ds : List Nat} (hne : ds ≠ []) (h : ∀ d ∈ ds, d < 10)
    (hzero : ds.map Nat.digitChar = ['0'] ∨ (ds.map Nat.digitChar).head? ≠ some '0') :
    Nat.toDigits 10 (Nat.ofDigits 10 ds.reverse) = ds.map Nat.digitChar := by
  rcases hzero with hzero | hhead
  · obtain ⟨d, rfl, hd⟩ := List.map_eq_singleton_iff.mp hzero
    have hspelt : SpellsDigit 10 d '0' := ⟨h d List.mem_cons_self, .inl hd.symm⟩
    rw [hspelt.eq_zero (by decide)]
    rfl
  · refine toDigits_ofDigits hne h fun hds => hhead ?_
    rw [List.head?_map, hds]
    rfl

/-- What is read as an integer is a sign and digits, with no more than the one zero needs. -/
theorem exists_of_readInt? {cs : List Char} {n : Int64} (h : readInt? cs = some n) :
    ∃ (negative : Bool) (digits : List Char), cs = (if negative then ['-'] else []) ++ digits ∧
      digits ≠ [] ∧ (∀ c ∈ digits, c.isDigit = true) ∧
      (digits = ['0'] ∨ digits.head? ≠ some '0') ∧ (negative = true → digits ≠ ['0']) ∧
      integerIn? 10 negative digits = some n := by
  unfold readInt? at h
  split at h
  next negative digits hsplit =>
    dsimp only at h
    split at h
    · next hcanonical =>
        simp only [Bool.and_eq_true, Bool.or_eq_true, Bool.not_eq_true', List.isEmpty_eq_false_iff,
          List.all_eq_true, beq_iff_eq, bne_iff_ne, Bool.and_eq_false_imp,
          beq_eq_false_iff_ne] at hcanonical
        obtain ⟨⟨⟨hne, hdigits⟩, hzero⟩, hminus⟩ := hcanonical
        refine ⟨negative, digits, ?_, hne, hdigits, hzero, hminus, h⟩
        split at hsplit <;> cases hsplit <;> rfl
    · cases h

/-- **A text is read as an integer exactly if it is the text that the integer is written in.** -/
theorem readInt?_eq_some_iff {cs : List Char} {n : Int64} :
    readInt? cs = some n ↔ cs = intDigits n.toInt := by
  constructor
  · intro h
    obtain ⟨negative, digits, rfl, hne, hdigits, hzero, hminus, hvalue⟩ := exists_of_readInt? h
    obtain ⟨ds, hds, rfl⟩ := exists_digitChars hdigits
    rw [integerIn?_digitChars (by decide) hds, fit64?_eq_some_iff] at hvalue
    have htext := toDigits_of_canonical (by simpa using hne) hds hzero
    rw [← hvalue, intDigits]
    cases negative with
    | false => simp [htext]
    | true =>
        have hpos : Nat.ofDigits 10 ds.reverse ≠ 0 := by
          intro hnone
          rw [hnone, Nat.toDigits_zero] at htext
          exact hminus rfl htext.symm
        simp only [if_pos]
        rw [if_pos (by omega), Int.natAbs_neg, Int.natAbs_natCast, htext]
        rfl
  · rintro rfl
    exact readInt?_intDigits n

namespace Key

theorem ofString_eq_int_iff {s : String} {n : Int64} : ofString s = .int n ↔ s = intText n := by
  have hread : ofString s = .int n ↔ readInt? s.toList = some n := by
    unfold ofString
    cases readInt? s.toList <;> simp
  rw [hread, readInt?_eq_some_iff, intText, ← String.toList_inj, String.toList_ofList]

/-- Nothing of a string is lost when it becomes a key. -/
theorem text_ofString (s : String) : (ofString s).text = s := by
  cases hkey : ofString s with
  | int n => exact (ofString_eq_int_iff.mp hkey).symm
  | str t =>
      unfold ofString at hkey
      split at hkey <;> cases hkey
      rfl

theorem ofString_injective : Function.Injective ofString :=
  Function.LeftInverse.injective text_ofString

example : ofString "-9223372036854775808" = .int Int64.minValue ∧
    ofString "-9223372036854775809" = .str "-9223372036854775809" := by decide

end Key

/-! ## Literals and accesses -/

/-- Wherever the value is found as the key of an element, the element is written under the key;
and wherever it is found as an offset into a table, what is under the key is read. -/
structure Value.Addresses (p : Value) (k : Key) : Prop where
  writes {env : Environment} {limit depth : Nat} {key x : Expr} {t : Table} {v : Value}
    {past calls calls' calls'' : List Call} (opening : Token) (before after : List Element) :
    (Eval.elements (Expr.evaluateWithin env limit depth) [] before).runOn past = (.ok t, calls) →
    (key.evaluateWithin env limit depth).runOn calls = (.ok p, calls') →
    (x.evaluateWithin env limit depth).runOn calls' = (.ok v, calls'') →
    ((Expr.array opening (before ++ .pair key x :: after)).evaluateWithin env limit
      (depth + 1)).runOn past = (Value.table <$> Eval.elements (Expr.evaluateWithin env limit depth)
        (t.insert k v) after).runOn calls''
  reads {env : Environment} {limit depth : Nat} {target offset : Expr} {bracket : Token} {t : Table}
    {past calls calls' : List Call} :
    (target.evaluateWithin env limit depth).runOn past = (.ok (.table t), calls) →
    (offset.evaluateWithin env limit depth).runOn calls = (.ok p, calls') →
    ((Expr.access target bracket offset).evaluateWithin env limit (depth + 1)).runOn past =
      (match t.find? k with
        | some v => .ok v
        | none => .error ⟨.undefinedOffset k, bracket.location⟩, calls')

namespace Value

open EvalM

variable {p : Value} {j k : Key} {s : String} {n : Int64}

theorem addresses_of_keyOf (h : ∀ l, Eval.keyOf l p = pure k) : p.Addresses k where
  writes opening before after ht hp hv := by
    show (Eval.elements _ [] (before ++ .pair _ _ :: after) >>= fun u =>
      pure (Value.table u)).runOn _ = _
    rw [Eval.elements_append, bind_assoc, runOn_bind_ok ht, Eval.elements, bind_assoc,
      runOn_bind_ok hp, h, pure_bind, bind_assoc, runOn_bind_ok hv, bind_pure_comp]
  reads ht hp := by
    show (Eval.access _ _ _ _ _).runOn _ = _
    rw [Eval.access, runOn_bind_ok ht, runOn_bind_ok hp]
    dsimp only
    rw [h, pure_bind]
    cases Table.find? k _ <;> rfl

theorem addresses_str (s : String) : (Value.str s).Addresses (Key.ofString s) :=
  addresses_of_keyOf fun _ => rfl

theorem addresses_int (n : Int64) : (Value.int n).Addresses (.int n) :=
  addresses_of_keyOf fun _ => rfl

/-- No value is used as two keys. -/
theorem Addresses.unique (hj : p.Addresses j) (hk : p.Addresses k) : j = k := by
  let env : Environment := ⟨.ofList [("p", p)], .absent, .empty⟩
  let key : Expr := .variable ⟨.variable, "$p", default⟩
  have hkey : (key.evaluateWithin env 1 1).runOn [] = (.ok p, []) := rfl
  have hliteral {i : Key} (hi : p.Addresses i) := hi.writes ⟨.lbracket, "[", default⟩ [] []
    rfl hkey hkey
  have hwritten := (hliteral hj).symm.trans (hliteral hk)
  cases hwritten
  rfl

theorem exists_addresses_iff :
    (∃ k, (Value.str s).Addresses k ∧ (Value.int n).Addresses k) ↔ s = intText n := by
  rw [← Key.ofString_eq_int_iff]
  constructor
  · rintro ⟨k, hs, hn⟩
    exact ((addresses_str s).unique hs).trans (hn.unique (addresses_int n))
  · intro hkey
    exact ⟨.int n, hkey ▸ addresses_str s, addresses_int n⟩

end Value

/-- **String keys normalise injectively.**  A key shows the string that it was made of; it is an
integer exactly if the string is the decimal text of that integer; so equal keys come of equal
strings.  Literals and accesses use a string by its key and an integer by itself, and these are
one key exactly if the string is the text of the integer.  Then what is written under one is
found under the other; otherwise neither changes what is found under the other. -/
theorem string_keys_normalise_injectively :
    (∀ s, (Key.ofString s).text = s) ∧
    (∀ s n, Key.ofString s = .int n ↔ s = intText n) ∧
    Function.Injective Key.ofString ∧
    (∀ s, (Value.str s).Addresses (Key.ofString s)) ∧
    (∀ n, (Value.int n).Addresses (.int n)) ∧
    ∀ s n, ((∃ k, (Value.str s).Addresses k ∧ (Value.int n).Addresses k) ↔ s = intText n) ∧
      ∀ (t : Table) (v : Value),
        (t.insert (Key.ofString s) v).find? (.int n) =
          (if s = intText n then some v else t.find? (.int n)) ∧
        (t.insert (.int n) v).find? (Key.ofString s) =
          (if s = intText n then some v else t.find? (Key.ofString s)) := by
  refine ⟨Key.text_ofString, fun _ _ => Key.ofString_eq_int_iff, Key.ofString_injective,
    Value.addresses_str, Value.addresses_int,
    fun s n => ⟨Value.exists_addresses_iff, fun t v => ?_⟩⟩
  have hkeys : Key.ofString s = .int n ↔ s = intText n := Key.ofString_eq_int_iff
  rw [Table.find?_insert, Table.find?_insert]
  exact ⟨if_congr (eq_comm.trans hkeys) rfl rfl, if_congr hkeys rfl rfl⟩

end GuardedExpr
