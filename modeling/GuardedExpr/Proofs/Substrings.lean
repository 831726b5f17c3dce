/-
# Substrings — one pair of bounds, and nothing lost between two cuts

The function `substr` counts in bytes.  Whatever its offset and its length are, both
bounds lie in the string and in order, so there is always something to cut out.  Where
the bounds stand between characters, the bytes from one to the other are the characters
there.  An offset that ends a substring is resolved like one that starts a substring, so
the text up to an offset and the text from it on are the whole string.
-/
import GuardedExpr.Proofs.IntegerArithmetic
import GuardedExpr.Proofs.Placement

namespace GuardedExpr

open Text

/-! ## Cutting at bytes -/

namespace Text

theorem sliceChars_skip (taken front cs : List Char) (first stop : Nat) :
    sliceChars taken (byteLength front + first) (byteLength front + stop) (front ++ cs)
      = sliceChars taken first stop cs := by
  induction front with
  | nil => simp
  | cons c front ih =>
      rw [List.cons_append, sliceChars, byteLength_cons, if_pos (by omega)]
      simp only [Nat.add_assoc, Nat.add_sub_cancel_left]
      exact ih

theorem sliceChars_take (taken part behind : List Char) :
    sliceChars taken 0 (byteLength part) (part ++ behind) = taken.reverse ++ part := by
  induction part generalizing taken with
  | nil =>
      cases behind with
      | nil => simp [sliceChars]
      | cons c behind =>
          have := c.utf8Size_pos
          rw [List.nil_append, sliceChars, if_neg (by omega)]
          simp
  | cons c part ih =>
      have := c.utf8Size_pos
      rw [List.cons_append, sliceChars, byteLength_cons, if_neg (by omega), if_neg (by omega),
        if_neg (by omega), if_neg (by omega), Nat.add_sub_cancel_left, ih]
      simp

/-- Between two characters and two others, the bytes are the characters. -/
theorem sliceBytes_of_append {s : String} {front part behind : List Char}
    (h : s.toList = front ++ part ++ behind) :
    sliceBytes s (byteLength front) (byteLength (front ++ part)) = String.ofList part := by
  have hskip := sliceChars_skip [] front (part ++ behind) 0 (byteLength part)
  rw [Nat.add_zero, ← byteLength_append, sliceChars_take] at hskip
  rw [sliceBytes, h, List.append_assoc, hskip]
  rfl

/-- In ASCII, bytes and characters are counted alike. -/
theorem sliceBytes_of_ascii {s : String} {first stop : Nat} (h : ∀ c ∈ s.toList, c.toNat < 128)
    (hle : first ≤ stop) (hsize : stop ≤ s.utf8ByteSize) :
    sliceBytes s first stop = String.ofList ((s.toList.take stop).drop first) := by
  rw [← byteLength_toList, byteLength_of_ascii h] at hsize
  have hfront : s.toList.take first ++ (s.toList.take stop).drop first = s.toList.take stop := by
    have := List.take_append_drop first (s.toList.take stop)
    rwa [List.take_take, Nat.min_eq_left hle] at this
  have hbytes : ∀ n ≤ s.toList.length, byteLength (s.toList.take n) = n := by
    intro n hn
    rw [byteLength_of_ascii fun c hc => h c (List.mem_of_mem_take hc), List.length_take,
      Nat.min_eq_left hn]
  have hsource : s.toList
      = s.toList.take first ++ (s.toList.take stop).drop first ++ s.toList.drop stop := by
    rw [hfront, List.take_append_drop]
  have hslice := sliceBytes_of_append hsource
  rwa [hfront, hbytes stop hsize, hbytes first (Nat.le_trans hle hsize)] at hslice

end Text

/-! ## The bounds -/

namespace Library

/-- The last argument of a call: left out, null, or a number. -/
inductive LengthArgument
  | omitted
  | null
  | number (n : Int64)

namespace LengthArgument

def values : LengthArgument → List Value
  | omitted => []
  | null => [.null]
  | number n => [.int n]

/-- The length asked for. Null asks for none, like an argument left out. -/
def toInt? : LengthArgument → Option Int
  | omitted | null => none
  | number n => some n.toInt

end LengthArgument

/-- The bounds that an offset and a length stand for in a string of `size` bytes: they are in order
and in the string. What is negative counts from the end, and what leads beyond an end of the string
leads to that end; an end before the start moves up to the start. -/
structure Cuts (size : Nat) (offset : Int) (length : Option Int) (first stop : Nat) : Prop where
  first_le_stop : first ≤ stop
  stop_le_size : stop ≤ size
  first_eq : (first : Int) = if offset < 0 then max 0 (size + offset) else min offset size
  stop_eq : (stop : Int) = length.elim (size : Int) fun n =>
    if n < 0 then max first (size + n) else min (first + n) size

theorem resolveOffset_le (offset : Int) (size : Nat) : resolveOffset offset size ≤ size := by
  unfold resolveOffset
  split <;> omega

theorem resolveOffset_eq (offset : Int) (size : Nat) :
    (resolveOffset offset size : Int)
      = if offset < 0 then max 0 (size + offset) else min offset size := by
  unfold resolveOffset
  split <;> omega

theorem cuts_substringBounds (offset : Int) (length : Option Int) (size : Nat) :
    Cuts size offset length (substringBounds offset length size).1
      (substringBounds offset length size).2 := by
  have hfirst := resolveOffset_le offset size
  cases length with
  | none => exact ⟨hfirst, Nat.le_refl _, resolveOffset_eq offset size, rfl⟩
  | some n =>
      have hstop := resolveOffset_le n size
      have hn := resolveOffset_eq n size
      refine ⟨?_, ?_, resolveOffset_eq offset size, ?_⟩
      all_goals
        simp only [substringBounds, Option.elim_some]
        split <;> omega

/-! ## Calls -/

/-- The function is found under every name that leads to it, and always has a substring to
give. -/
theorem invoke_substr {name : String} (hname : canonicalName name = "substr") (s : String)
    (offset : Int64) (length : LengthArgument) :
    standard.invoke name (.str s :: .int offset :: length.values)
      = .ok (.str (sliceBytes s
          (substringBounds offset.toInt length.toInt? s.utf8ByteSize).1
          (substringBounds offset.toInt length.toInt? s.utf8ByteSize).2)) := by
  have hentry : standard.get? name = some (entry "substr" 2 3 substring).2 := by
    rw [FunctionTable.get?, hname]
    rfl
  rw [FunctionTable.invoke, hentry]
  cases length <;> rfl

/-- An offset ends a substring from the start where it starts the one that goes on from there. -/
theorem substringBounds_zero (n : Int) (size : Nat) :
    substringBounds 0 (some n) size = (0, resolveOffset n size) := by
  have hzero : resolveOffset 0 size = 0 := by simp [resolveOffset]
  rw [substringBounds, hzero, resolveOffset]
  split <;> simp

theorem invoke_substr_at {s : String} {n : Int64} {front back : List Char}
    (h : s.toList = front ++ back)
    (hn : byteLength front = resolveOffset n.toInt s.utf8ByteSize) {name : String}
    (hname : canonicalName name = "substr") :
    standard.invoke name [.str s, .int 0, .int n] = .ok (.str (String.ofList front)) ∧
      standard.invoke name [.str s, .int n] = .ok (.str (String.ofList back)) := by
  constructor
  · have hfront : s.toList = [] ++ front ++ back := h
    have hslice := sliceBytes_of_append hfront
    rw [byteLength_nil, List.nil_append, hn] at hslice
    have hcall := invoke_substr hname s 0 (.number n)
    rwa [LengthArgument.toInt?, Int64.toInt_zero, substringBounds_zero, hslice] at hcall
  · have hback : s.toList = front ++ back ++ [] := by rw [h, List.append_nil]
    have hslice := sliceBytes_of_append hback
    rw [← h, byteLength_toList, hn] at hslice
    have hcall := invoke_substr hname s n .omitted
    rwa [LengthArgument.toInt?, substringBounds, hslice] at hcall

end Library

open Eval in
/-- A dot between two strings joins them. -/
theorem Token.combines_strings {op : Token} (hop : op.kind = .dot) (env : Environment)
    (limit : Nat) (s t : String) :
    op.Combines env limit (.str s) (.str t) (.ok (.str (s ++ t))) := by
  intro depth left right past calls calls' hleft hright
  have hvalue : binaryOperation env op (.str s) (.str t) = pure (.str (s ++ t)) := by
    simp [binaryOperation, hop, concat, textOperand, Environment.stringOf?, Value.scalarText?,
      EvalM.someOrFail]
  have hbinary : binary env (Expr.evaluateWithin env limit depth) left op right = (do
      let v ← Expr.evaluateWithin env limit depth left
      let w ← Expr.evaluateWithin env limit depth right
      binaryOperation env op v w) := by
    rw [binary, hop]
  show (binary env _ left op right).runOn past = _
  rw [hbinary, EvalM.runOn_bind_ok hleft, EvalM.runOn_bind_ok hright, hvalue]
  rfl

open Library in
/-- **Substrings fit together.**  The bounds that the library works out for an offset and a length,
the least and the greatest integers among them, are in order and in the string, so the call has a
string to give: in ASCII the characters from the one bound to the other.  And the substrings before
and behind an offset, wherever it stands between two characters, concatenate to the whole string. -/
theorem substrings_fit_together (s : String) :
    (∀ (offset : Int64) (length : LengthArgument), ∃ first stop,
      substringBounds offset.toInt length.toInt? s.utf8ByteSize = (first, stop) ∧
      Cuts s.utf8ByteSize offset.toInt length.toInt? first stop ∧
      (∀ name, canonicalName name = "substr" →
        standard.invoke name (.str s :: .int offset :: length.values)
          = .ok (.str (sliceBytes s first stop))) ∧
      ((∀ c ∈ s.toList, c.toNat < 128) →
        sliceBytes s first stop = String.ofList ((s.toList.take stop).drop first))) ∧
    ∀ n : Int64, IsBoundary s (resolveOffset n.toInt s.utf8ByteSize) → ∃ front back,
      (∀ name, canonicalName name = "substr" →
        standard.invoke name [.str s, .int 0, .int n] = .ok (.str front) ∧
        standard.invoke name [.str s, .int n] = .ok (.str back)) ∧
      ∀ env limit (op : Token), op.kind = .dot →
        op.Combines env limit (.str front) (.str back) (.ok (.str s)) := by
  constructor
  · intro offset length
    have hcuts := cuts_substringBounds offset.toInt length.toInt? s.utf8ByteSize
    exact ⟨_, _, rfl, hcuts, fun name hname => invoke_substr hname s offset length,
      fun hascii => sliceBytes_of_ascii hascii hcuts.first_le_stop hcuts.stop_le_size⟩
  · rintro n ⟨front, back, hsource, hn⟩
    refine ⟨.ofList front, .ofList back, fun name hname => invoke_substr_at hsource hn hname, ?_⟩
    intro env limit op hop
    have hjoin := Token.combines_strings hop env limit (.ofList front) (.ofList back)
    rwa [← String.ofList_append, ← hsource, String.ofList_toList] at hjoin

/-- The last two bytes of the word are its last two characters, and four bytes stand before them:
three characters. -/
theorem word_is_cut_from_its_end :
    IsBoundary "naïve" (Library.resolveOffset (Int64.toInt (-2)) "naïve".utf8ByteSize) ∧
      Library.standard.invoke "substr" [.str "naïve", .int 0, .int (-2)] = .ok (.str "naï") ∧
      Library.standard.invoke "\\SubStr" [.str "naïve", .int (-2)] = .ok (.str "ve") ∧
      ∀ env limit (op : Token), op.kind = .dot →
        op.Combines env limit (.str "naï") (.str "ve") (.ok (.str "naïve")) := by
  have hcut : IsBoundary "naïve" (Library.resolveOffset (Int64.toInt (-2)) "naïve".utf8ByteSize) :=
    ⟨"naï".toList, "ve".toList, by decide, by decide⟩
  obtain ⟨front, back, hcalls, hjoin⟩ := (substrings_fit_together "naïve").2 (-2) hcut
  have hfront : Library.standard.invoke "substr" [.str "naïve", .int 0, .int (-2)]
      = .ok (.str "naï") := by rfl
  have hback : Library.standard.invoke "\\SubStr" [.str "naïve", .int (-2)]
      = .ok (.str "ve") := by rfl
  obtain ⟨rfl⟩ := (hcalls "substr" (by decide)).1.symm.trans hfront
  obtain ⟨rfl⟩ := (hcalls "\\SubStr" (by decide)).2.symm.trans hback
  exact ⟨hcut, hfront, hback, hjoin⟩

end GuardedExpr
