/-
# Result sizes — what is refused is what would be too long

Repeating and replacing can make much out of little, so the library works out the size
of a result before it builds it.  The sizes it works with are machine words, and where
one does not fit the call is refused as well.  Neither guard is in the way of the other:
a size that does not fit is greater than the limit, and so is the one it is a part of.

The size of a text with replacements is told from the number of occurrences alone,

    |result| + hits · |search|  =  |subject| + hits · |replacement|

and the occurrences that are counted have to be those that are replaced.  What replacing
means is said without counting (`Replaced`): the first occurrence is replaced, and then
the text behind it is treated in the same way.  Cutting the subject at the occurrences
gives both, one hit for every cut (`CutAt.replaced`, `Replaced.exists_cutAt`).
-/
import GuardedExpr.Proofs.Splitting

namespace GuardedExpr

namespace Text

variable {search replacement subject result : String} {hits : Nat}

/-! ## Replacing -/

/-- The text becomes another one when the occurrences of a part in it are replaced, from left to
right and each time the first one in what is left; so many are. -/
inductive Replaced (search replacement : String) : String → Nat → String → Prop
  | last {s : String} : ¬ Occurs search s → Replaced search replacement s 0 s
  | first {front rest result : String} {hits : Nat} :
      IsFirst search front rest → Replaced search replacement rest hits result →
      Replaced search replacement (front ++ search ++ rest) (hits + 1)
        (front ++ replacement ++ result)

theorem CutAt.replaced {pieces : List String} (h : CutAt search subject pieces)
    (replacement : String) :
    Replaced search replacement subject (pieces.length - 1) (replacement.intercalate pieces) := by
  induction h with
  | last hs =>
      rw [String.intercalate_singleton]
      exact .last hs
  | @first piece rest pieces hfirst hrest ih =>
      have hlength : (piece :: pieces).length - 1 = pieces.length - 1 + 1 := by
        have := List.length_pos_iff.mpr hrest.ne_nil
        rw [List.length_cons]
        omega
      rw [hlength, String.intercalate_cons_of_ne_nil hrest.ne_nil]
      exact .first hfirst ih

namespace Replaced

theorem exists_cutAt (h : Replaced search replacement subject hits result) :
    ∃ pieces, CutAt search subject pieces ∧ pieces.length = hits + 1 ∧
      replacement.intercalate pieces = result := by
  induction h with
  | last hs => exact ⟨_, .last hs, rfl, String.intercalate_singleton⟩
  | first hfirst _ ih =>
      obtain ⟨pieces, hrest, hlength, hjoin⟩ := ih
      refine ⟨_, .first hfirst hrest, by rw [List.length_cons, hlength], ?_⟩
      rw [String.intercalate_cons_of_ne_nil hrest.ne_nil, hjoin]

/-- **The size of the result is told from the number of occurrences.** -/
theorem size_eq (h : Replaced search replacement subject hits result) :
    result.utf8ByteSize + hits * search.utf8ByteSize
      = subject.utf8ByteSize + hits * replacement.utf8ByteSize := by
  induction h with
  | last => rw [Nat.zero_mul, Nat.zero_mul]
  | first _ _ ih =>
      simp only [String.utf8ByteSize_append, Nat.add_mul, Nat.one_mul]
      omega

theorem size_le (h : Replaced search replacement subject hits result)
    (hle : replacement.utf8ByteSize ≤ search.utf8ByteSize) :
    result.utf8ByteSize ≤ subject.utf8ByteSize := by
  have hmul := Nat.mul_le_mul_left hits hle
  have := h.size_eq
  omega

theorem size_of_le (h : Replaced search replacement subject hits result)
    (hle : search.utf8ByteSize ≤ replacement.utf8ByteSize) :
    result.utf8ByteSize
      = hits * (replacement.utf8ByteSize - search.utf8ByteSize) + subject.utf8ByteSize := by
  have hmul := Nat.mul_le_mul_left hits hle
  have := h.size_eq
  rw [Nat.mul_sub]
  omega

end Replaced

end Text

namespace Library

open Text

/-! ## The guard -/

/-- The failure of a call whose result would be too long. -/
def tooLong (name : String) : HostError :=
  .failed (name ++ "(): result would exceed 16777216 bytes")

theorem fail_eq_tooLong {α : Type} (a : Arguments) :
    (a.fail s!"result would exceed {maxLength} bytes" : Except HostError α)
      = .error (tooLong a.name) := by
  have htext : s!"result would exceed {maxLength} bytes"
      = "result would exceed 16777216 bytes" := by decide
  rw [htext, Arguments.fail, tooLong]
  simp only [toString, String.append_assoc]
  rfl

/-- A size that does not fit into a word is too great as well. -/
theorem checkLength_fitSize (a : Arguments) (n : Nat) :
    a.checkLength (fitSize? n) = if n ≤ maxLength then .ok () else .error (tooLong a.name) := by
  rw [Arguments.checkLength, fail_eq_tooLong, fitSize?]
  split
  · simp only [Option.any_some, decide_eq_true_eq]
  · next hfits =>
      have hlong : ¬ n ≤ maxLength := by
        unfold UInt64.size at hfits
        unfold maxLength
        omega
      rw [if_neg hlong]
      rfl

theorem fitSize_of_le {m n : Nat} (hle : m ≤ n) (h : fitSize? m = none) : fitSize? n = none := by
  unfold fitSize? at h ⊢
  split at h
  · cases h
  · rw [if_neg (by omega)]

/-- **The size predicted is that of the result**, if it fits into a word. -/
theorem lengthReplaced_eq {search replacement subject result : String} {hits : Nat}
    (h : Replaced search replacement subject hits result)
    (hle : search.utf8ByteSize ≤ replacement.utf8ByteSize) :
    lengthReplaced search replacement subject hits = fitSize? result.utf8ByteSize := by
  rw [h.size_of_le hle, lengthReplaced]
  cases hgrowth : fitSize? (hits * (replacement.utf8ByteSize - search.utf8ByteSize)) with
  -- Where the growth alone does not fit, the size of the result does not either.
  | none => exact (fitSize_of_le (Nat.le_add_right _ _) hgrowth).symm
  | some growth =>
      obtain rfl : hits * (replacement.utf8ByteSize - search.utf8ByteSize) = growth := by
        unfold fitSize? at hgrowth
        split at hgrowth
        · exact Option.some.inj hgrowth
        · cases hgrowth
      rfl

/-! ## Calls -/

theorem repeated_eq (s : String) (times : Nat) :
    repeated s times = String.join (List.replicate times s) := by
  unfold repeated
  split
  · next hs =>
      rw [String.isEmpty_iff.mp hs]
      induction times with
      | zero => rfl
      | succ times ih =>
          rw [List.replicate_succ, String.join_cons, ← ih]
          rfl
  · induction times with
    | zero => rfl
    | succ times ih =>
        rw [List.replicate_succ', String.join_append, ← ih, String.join_cons, String.join_nil,
          String.append_empty]
        rfl

theorem size_copies (s : String) (times : Nat) :
    (String.join (List.replicate times s)).utf8ByteSize = s.utf8ByteSize * times := by
  induction times with
  | zero => rfl
  | succ times ih =>
      rw [List.replicate_succ, String.join_cons, String.utf8ByteSize_append, ih, Nat.mul_succ,
        Nat.add_comm]

theorem repeatString_eq (s : String) (times : Int64) :
    repeatString ⟨"str_repeat", [.str s, .int times]⟩ =
      if times.toInt < 0 then
        .error (.failed "str_repeat(): argument #2 ($times) must be greater than or equal to 0")
      else if s.utf8ByteSize * times.toInt ≤ maxLength then
        .ok (.str (String.join (List.replicate times.toInt.toNat s)))
      else .error (tooLong "str_repeat") := by
  show (if times < 0 then _ else
    Arguments.checkLength ⟨"str_repeat", [.str s, .int times]⟩
      (fitSize? (s.utf8ByteSize * times.toInt.toNat)) >>= fun _ =>
        Except.ok (Value.str (repeated s times.toInt.toNat))) = _
  rw [checkLength_fitSize, repeated_eq]
  have hsign : times < 0 ↔ times.toInt < 0 := Int64.lt_iff_toInt_lt
  by_cases hneg : times.toInt < 0
  · rw [if_pos (hsign.mpr hneg), if_pos hneg]
    rfl
  · have hsize : s.utf8ByteSize * times.toInt.toNat ≤ maxLength ↔
        s.utf8ByteSize * times.toInt ≤ maxLength := by
      rw [← Int.ofNat_le, Int.natCast_mul, Int.toNat_of_nonneg (Int.not_lt.mp hneg)]
    rw [if_neg (hneg ∘ hsign.mp), if_neg hneg]
    simp only [hsize]
    split <;> rfl

theorem replace_eq {search replacement subject result : String} {hits : Nat}
    (hsearch : search ≠ "") (h : Replaced search replacement subject hits result) :
    replace ⟨"str_replace", [.str search, .str replacement, .str subject]⟩ =
      if search.utf8ByteSize < replacement.utf8ByteSize ∧ maxLength < result.utf8ByteSize then
        .error (tooLong "str_replace")
      else .ok (.str result) := by
  obtain ⟨pieces, hcut, hlength, hjoin⟩ := h.exists_cutAt
  have hempty : search.isEmpty = false := String.isEmpty_eq_false_iff.mpr hsearch
  have hcall : replace ⟨"str_replace", [.str search, .str replacement, .str subject]⟩ =
      if search.utf8ByteSize < replacement.utf8ByteSize then
        Arguments.checkLength ⟨"str_replace", [.str search, .str replacement, .str subject]⟩
          (lengthReplaced search replacement subject hits) >>= fun _ => .ok (.str result)
      else .ok (.str result) := by
    rw [← hjoin, ← Nat.add_sub_cancel (n := hits) (m := 1), ← hlength, ← hcut.splitAll_eq hsearch]
    show (if search.isEmpty then _ else _) = _
    rw [hempty]
    rfl
  rw [hcall]
  by_cases hlonger : search.utf8ByteSize < replacement.utf8ByteSize
  · rw [if_pos hlonger, lengthReplaced_eq h (Nat.le_of_lt hlonger), checkLength_fitSize]
    by_cases hfits : result.utf8ByteSize ≤ maxLength
    · rw [if_pos hfits, if_neg (by omega)]
      rfl
    · rw [if_neg hfits, if_pos ⟨hlonger, Nat.lt_of_not_le hfits⟩]
      rfl
  · rw [if_neg hlonger, if_neg fun h => hlonger h.1]

/-- **The size guard is exact.**  A string is repeated if and only if the number of times is not
negative and the product of its size and that number is within the limit; the result then has
exactly that size.  Replacing is told from what replacing the occurrences of a part, from left to
right, makes of the subject.  Where the replacement is longer than the part, the size worked out
beforehand is that of the result, and the call succeeds if and only if the result is within the
limit.  Where it is not longer, the call always succeeds, with a result not longer than the
subject. -/
theorem size_guard_is_exact :
    (∀ (s : String) (times : Int64) (name : String), canonicalName name = "str_repeat" →
      let result := String.join (List.replicate times.toInt.toNat s)
      standard.invoke name [.str s, .int times] =
          (if times.toInt < 0 then
            .error (.failed "str_repeat(): argument #2 ($times) must be greater than or equal to 0")
          else if s.utf8ByteSize * times.toInt ≤ maxLength then .ok (.str result)
          else .error (tooLong "str_repeat")) ∧
        (0 ≤ times.toInt → (result.utf8ByteSize : Int) = s.utf8ByteSize * times.toInt)) ∧
    ∀ search replacement subject : String, search ≠ "" →
      (∃ hits result, Replaced search replacement subject hits result) ∧
      ∀ hits result, Replaced search replacement subject hits result →
      ∀ name, canonicalName name = "str_replace" →
        let outcome := standard.invoke name [.str search, .str replacement, .str subject]
        (search.utf8ByteSize < replacement.utf8ByteSize →
          lengthReplaced search replacement subject ((splitAll search subject).length - 1)
            = fitSize? result.utf8ByteSize ∧
          outcome = if result.utf8ByteSize ≤ maxLength then .ok (.str result)
            else .error (tooLong "str_replace")) ∧
        (replacement.utf8ByteSize ≤ search.utf8ByteSize →
          outcome = .ok (.str result) ∧ result.utf8ByteSize ≤ subject.utf8ByteSize) := by
  refine ⟨fun s times name hname => ?_, fun search replacement subject hsearch => ⟨?_, ?_⟩⟩
  · refine ⟨(FunctionTable.invoke_of_lookup hname rfl _).trans (repeatString_eq s times), ?_⟩
    intro hnonneg
    rw [size_copies, Int.natCast_mul, Int.toNat_of_nonneg hnonneg]
  · obtain ⟨pieces, hcut⟩ := exists_cutAt hsearch subject
    exact ⟨_, _, hcut.replaced replacement⟩
  · intro hits result h name hname outcome
    have houtcome : outcome = _ :=
      (FunctionTable.invoke_of_lookup hname rfl _).trans (replace_eq hsearch h)
    obtain ⟨pieces, hcut, hlength, -⟩ := h.exists_cutAt
    refine ⟨fun hlonger => ⟨?_, ?_⟩, fun hle => ⟨?_, h.size_le hle⟩⟩
    · rw [hcut.splitAll_eq hsearch, hlength, Nat.add_sub_cancel]
      exact lengthReplaced_eq h (Nat.le_of_lt hlonger)
    · rw [houtcome]
      by_cases hfits : result.utf8ByteSize ≤ maxLength
      · rw [if_pos hfits, if_neg (by omega)]
      · rw [if_neg hfits, if_pos ⟨hlonger, Nat.lt_of_not_le hfits⟩]
    · rw [houtcome, if_neg (by omega)]

/-- Two of the three letters are one occurrence, as the next would overlap it; and a string repeated
as often as an integer can say is refused. -/
theorem overlapping_occurrence_is_replaced_once :
    "aa" ≠ "" ∧ Replaced "aa" "bbb" "aaa" 1 "bbba" ∧
      standard.invoke "\\STR_Replace" [.str "aa", .str "bbb", .str "aaa"] = .ok (.str "bbba") ∧
      standard.invoke "str_repeat" [.str "ab", .int 9223372036854775807]
        = .error (tooLong "str_repeat") := by
  obtain ⟨hrepeat, hreplace⟩ := size_guard_is_exact
  have hsearch : "aa" ≠ "" := by decide
  obtain ⟨⟨hits, result, h⟩, hcalls⟩ := hreplace "aa" "bbb" "aaa" hsearch
  obtain ⟨pieces, hcut, hlength, rfl⟩ := h.exists_cutAt
  have hpieces : splitAll "aa" "aaa" = ["", "a"] := by rfl
  obtain rfl : pieces = ["", "a"] := (hcut.splitAll_eq hsearch).symm.trans hpieces
  obtain rfl : hits = 1 := Nat.succ.inj hlength.symm
  refine ⟨hsearch, h, ?_, ?_⟩
  · have hcall := ((hcalls _ _ h "\\STR_Replace" (by decide)).1 (by decide)).2
    rwa [if_pos (by decide)] at hcall
  · have hcall := (hrepeat "ab" 9223372036854775807 "str_repeat" (by decide)).1
    rwa [if_neg (by decide), if_neg (by decide)] at hcall

end Library

end GuardedExpr
