/-
# Splitting — cutting a text at a separator and joining it again

The library splits in one walk over the characters: a limit on the cuts, the pieces so
far, and the characters of the separator still to be passed over.  What it finds is said
without the walk.  A text is cut at the first occurrence of the separator and what is
left behind it is cut in the same way, up to a rest in which it does not occur:

    s = piece ++ sep ++ rest,  sep nowhere earlier in s,  rest is cut into pieces
    -------------------------------------------------------------------------
    s is cut into piece :: pieces                                     (`CutAt`)

Occurrences overlap in general (`aa` in `aaa`), so which ones are cut at depends on this
order.  The walk passes over the characters of a piece one by one, as the separator
starts at none of them, and then over the separator (`splitChars_of_isFirst`); by
induction over the cuts it finds the pieces, the last of them being what the limit
leaves together (`splitAtMost_eq`).  Joining what is left together is part of joining the
whole, which is why no limit that is not negative changes the text.
-/
import GuardedExpr.Library.Standard
import GuardedExpr.Proofs.OrderedTables
import Mathlib.Data.Nat.Find

namespace GuardedExpr

namespace Text

variable {sep s : String} {pieces : List String}

/-! ## Occurrences -/

/-- The part stands somewhere in the text. -/
def Occurs (part s : String) : Prop := ∃ front behind, s = front ++ part ++ behind

/-- In the text of the three, the part stands nowhere earlier than behind `front`. -/
def IsFirst (part front behind : String) : Prop :=
  ∀ front' behind', front ++ part ++ behind = front' ++ part ++ behind' →
    front.length ≤ front'.length

theorem exists_isFirst (h : Occurs sep s) :
    ∃ front behind, s = front ++ sep ++ behind ∧ IsFirst sep front behind := by
  classical
  have hplaces : ∃ n front behind, s = front ++ sep ++ behind ∧ front.length = n := by
    obtain ⟨front, behind, hs⟩ := h
    exact ⟨_, front, behind, hs, rfl⟩
  obtain ⟨front, behind, hs, hlength⟩ := Nat.find_spec hplaces
  refine ⟨front, behind, hs, fun front' behind' heq => ?_⟩
  rw [hlength]
  exact Nat.find_min' hplaces ⟨front', behind', hs.trans heq, rfl⟩

/-- What stands in front of the first occurrence holds none. -/
theorem IsFirst.not_occurs {front behind : String} (h : IsFirst sep front behind)
    (hsep : sep ≠ "") : ¬ Occurs sep front := by
  rintro ⟨before, after, rfl⟩
  have hle := h before (after ++ sep ++ behind) (by simp only [String.append_assoc])
  have hlength : sep.length ≠ 0 := mt String.length_eq_zero_iff.mp hsep
  simp only [String.length_append] at hle
  omega

/-! ## Cuts -/

/-- The text is cut into the pieces at occurrences of the separator, from left to right: each time
at the first one in what is left. -/
inductive CutAt (sep : String) : String → List String → Prop
  | last {s : String} : ¬ Occurs sep s → CutAt sep s [s]
  | first {piece rest : String} {pieces : List String} :
      IsFirst sep piece rest → CutAt sep rest pieces →
      CutAt sep (piece ++ sep ++ rest) (piece :: pieces)

theorem exists_cutAt (hsep : sep ≠ "") (s : String) : ∃ pieces, CutAt sep s pieces := by
  by_cases hs : Occurs sep s
  · obtain ⟨piece, rest, heq, hfirst⟩ := exists_isFirst hs
    have hlength : sep.length ≠ 0 := mt String.length_eq_zero_iff.mp hsep
    have hshorter : rest.length < s.length := by
      rw [heq, String.length_append, String.length_append]
      omega
    obtain ⟨pieces, hrest⟩ := exists_cutAt hsep rest
    exact ⟨piece :: pieces, heq ▸ .first hfirst hrest⟩
  · exact ⟨[s], .last hs⟩
termination_by s.length

namespace CutAt

theorem ne_nil (h : CutAt sep s pieces) : pieces ≠ [] := by
  cases h <;> exact List.cons_ne_nil _ _

/-- **Joining the pieces gives the text back.** -/
theorem intercalate (h : CutAt sep s pieces) : sep.intercalate pieces = s := by
  induction h with
  | last => exact String.intercalate_singleton
  | first _ hrest ih => rw [String.intercalate_cons_of_ne_nil hrest.ne_nil, ih]

theorem not_occurs (h : CutAt sep s pieces) (hsep : sep ≠ "") :
    ∀ piece ∈ pieces, ¬ Occurs sep piece := by
  induction h with
  | last hs => exact List.forall_mem_singleton.mpr hs
  | first hfirst _ ih => exact List.forall_mem_cons.mpr ⟨hfirst.not_occurs hsep, ih⟩

theorem length_le (h : CutAt sep s pieces) (hsep : sep ≠ "") : pieces.length ≤ s.length + 1 := by
  induction h with
  | last => exact Nat.le_add_left 1 _
  | first _ _ ih =>
      have hlength : sep.length ≠ 0 := mt String.length_eq_zero_iff.mp hsep
      rw [List.length_cons, String.length_append, String.length_append]
      omega

end CutAt

/-! ## A limit on the cuts -/

/-- The pieces of at most so many cuts: those behind the last cut are left together. -/
def gathered (sep : String) (cuts : Nat) (pieces : List String) : List String :=
  if pieces.length ≤ cuts + 1 then pieces
  else pieces.take cuts ++ [sep.intercalate (pieces.drop cuts)]

theorem gathered_of_length_le {cuts : Nat} (h : pieces.length ≤ cuts + 1) :
    gathered sep cuts pieces = pieces := if_pos h

theorem gathered_zero (h : pieces ≠ []) : gathered sep 0 pieces = [sep.intercalate pieces] := by
  unfold gathered
  split
  · next hle =>
      obtain ⟨piece, rfl⟩ : ∃ piece, pieces = [piece] := by
        refine List.length_eq_one_iff.mp ?_
        have := List.length_pos_iff.mpr h
        omega
      rw [String.intercalate_singleton]
  · rfl

theorem gathered_cons (cuts : Nat) (piece : String) (pieces : List String) :
    gathered sep (cuts + 1) (piece :: pieces) = piece :: gathered sep cuts pieces := by
  simp only [gathered, List.length_cons, Nat.add_le_add_iff_right]
  split <;> rfl

theorem length_gathered_le (cuts : Nat) : (gathered sep cuts pieces).length ≤ cuts + 1 := by
  unfold gathered
  split
  · assumption
  · rw [List.length_append, List.length_take, List.length_singleton]
    omega

/-- What was left together is cut or not: the text is the same. -/
theorem intercalate_gathered (cuts : Nat) :
    sep.intercalate (gathered sep cuts pieces) = sep.intercalate pieces := by
  induction cuts generalizing pieces with
  | zero =>
      rcases eq_or_ne pieces [] with rfl | hne
      · rfl
      · rw [gathered_zero hne, String.intercalate_singleton]
  | succ cuts ih =>
      cases pieces with
      | nil => rfl
      | cons piece pieces =>
          rw [gathered_cons]
          rcases eq_or_ne pieces [] with rfl | hne
          · rfl
          · have hsome : gathered sep cuts pieces ≠ [] := by
              unfold gathered
              split
              · exact hne
              · simp
            rw [String.intercalate_cons_of_ne_nil hsome, String.intercalate_cons_of_ne_nil hne, ih]

/-! ## The walk -/

section Walk

variable {part piece rest : List Char} {done : List String} {cuts : Nat}

theorem splitChars_skip (skipped : List Char) :
    splitChars part cuts done piece skipped.length (skipped ++ rest)
      = splitChars part cuts done piece 0 rest := by
  induction skipped with
  | nil => rfl
  | cons c skipped ih => exact ih

theorem splitChars_of_absent (h : cuts = 0 ∨ ¬ part <:+: rest) :
    splitChars part cuts done piece 0 rest
      = (String.ofList (piece.reverse ++ rest) :: done).reverse := by
  induction rest generalizing piece with
  | nil => rw [splitChars, List.append_nil]
  | cons c rest ih =>
      have hcut : (0 < cuts && part.isPrefixOf (c :: rest)) = false := by
        rcases h with rfl | h
        · rfl
        · rw [Bool.and_eq_false_iff, ← Bool.not_eq_true (part.isPrefixOf _),
            List.isPrefixOf_iff_prefix]
          exact .inr fun hstarts => h hstarts.isInfix
      have hrest : cuts = 0 ∨ ¬ part <:+: rest :=
        h.imp_right fun h hin => h (hin.trans (List.suffix_cons c rest).isInfix)
      rw [splitChars, hcut, if_neg Bool.false_ne_true, ih hrest]
      simp

/-- The characters in front of the first occurrence are taken one by one, those of the occurrence
are passed over. -/
theorem splitChars_of_first (hpart : part ≠ []) {front : List Char}
    (h : ∀ front' behind, front ++ part ++ rest = front' ++ part ++ behind →
      front.length ≤ front'.length) :
    splitChars part (cuts + 1) done piece 0 (front ++ part ++ rest)
      = splitChars part cuts (String.ofList (piece.reverse ++ front) :: done) [] 0 rest := by
  induction front generalizing piece with
  | nil =>
      obtain ⟨c, cs, rfl⟩ := List.exists_cons_of_ne_nil hpart
      have hcut : (c :: cs).isPrefixOf (c :: (cs ++ rest)) = true :=
        List.isPrefixOf_iff_prefix.mpr (List.prefix_append (c :: cs) rest)
      rw [List.nil_append, List.cons_append, splitChars, hcut, List.append_nil]
      exact splitChars_skip cs
  | cons c front ih =>
      -- An occurrence at this character would stand earlier than the first one.
      have hcut : part.isPrefixOf (c :: (front ++ part ++ rest)) = false := by
        rw [← Bool.not_eq_true, List.isPrefixOf_iff_prefix]
        rintro ⟨behind, heq⟩
        exact absurd (h [] behind heq.symm) (by simp)
      have hfront : ∀ front' behind, front ++ part ++ rest = front' ++ part ++ behind →
          front.length ≤ front'.length := by
        intro front' behind heq
        exact Nat.le_of_succ_le_succ (h (c :: front') behind (congrArg (c :: ·) heq))
      rw [List.cons_append, List.cons_append, splitChars, hcut, Bool.and_false,
        if_neg Bool.false_ne_true, ih hfront]
      simp

end Walk

theorem occurs_of_isInfix (h : sep.toList <:+: s.toList) : Occurs sep s := by
  obtain ⟨front, behind, heq⟩ := h
  refine ⟨.ofList front, .ofList behind, String.toList_inj.mp ?_⟩
  rw [String.toList_append, String.toList_append, String.toList_ofList, String.toList_ofList, heq]

theorem splitChars_of_isFirst (hsep : sep ≠ "") {piece rest : String} {done : List String}
    {cuts : Nat} (h : IsFirst sep piece rest) :
    splitChars sep.toList (cuts + 1) done [] 0 (piece ++ sep ++ rest).toList
      = splitChars sep.toList cuts (piece :: done) [] 0 rest.toList := by
  have hlists : ∀ front behind,
      piece.toList ++ sep.toList ++ rest.toList = front ++ sep.toList ++ behind →
      piece.toList.length ≤ front.length := by
    intro front behind heq
    have hle := h (.ofList front) (.ofList behind) (String.toList_inj.mp (by simpa using heq))
    rwa [String.length_ofList, ← String.length_toList] at hle
  rw [String.toList_append, String.toList_append,
    splitChars_of_first (by simpa using hsep) hlists, List.reverse_nil, List.nil_append,
    String.ofList_toList]

/-- **The walk finds the pieces.** -/
theorem CutAt.splitChars (h : CutAt sep s pieces) (hsep : sep ≠ "") (cuts : Nat)
    (done : List String) :
    splitChars sep.toList cuts done [] 0 s.toList = done.reverse ++ gathered sep cuts pieces := by
  induction h generalizing cuts done with
  | @last s hs =>
      rw [splitChars_of_absent (.inr fun hin => hs (occurs_of_isInfix hin)),
        gathered_of_length_le (Nat.le_add_left 1 cuts), List.reverse_nil, List.nil_append,
        String.ofList_toList, List.reverse_cons]
  | @first piece rest pieces hfirst hrest ih =>
      cases cuts with
      | zero =>
          -- No cut is left: the walk takes all to the end, which is what the pieces join to.
          have hjoin := (CutAt.first hfirst hrest).intercalate
          rw [splitChars_of_absent (.inl rfl), gathered_zero (List.cons_ne_nil _ _), hjoin,
            List.reverse_nil, List.nil_append, String.ofList_toList, List.reverse_cons]
      | succ cuts =>
          rw [splitChars_of_isFirst hsep hfirst, ih, gathered_cons, List.reverse_cons,
            List.append_assoc, List.singleton_append]

theorem CutAt.splitAtMost_eq (h : CutAt sep s pieces) (hsep : sep ≠ "") (cuts : Nat) :
    splitAtMost cuts sep s = gathered sep cuts pieces := h.splitChars hsep cuts []

theorem CutAt.splitAll_eq (h : CutAt sep s pieces) (hsep : sep ≠ "") :
    splitAll sep s = pieces := by
  rw [splitAll, h.splitAtMost_eq hsep, gathered_of_length_le (h.length_le hsep)]

end Text

/-! ## Calls -/

namespace Library

open Text

variable {sep s : String} {pieces : List String} {limit : Option Int64}

/-- Splitting the text, under every name of the function, gives the pieces in order, in a list under
the keys from zero on: as long as these are integers, the one that pushing the pieces makes. -/
def Explodes (sep s : String) (limit : Option Int64) (pieces : List String) : Prop :=
  ∀ name, canonicalName name = "explode" → ∃ t : Table,
    standard.invoke name (.str sep :: .str s :: (limit.map Value.int).toList) = .ok (.table t) ∧
    t.keys = (List.range pieces.length).map (fun i => .int (Int64.ofNat i)) ∧
    t.values = pieces.map .str ∧
    (pieces.length ≤ 2 ^ 63 → (IndexedTable.ofValues (pieces.map .str)).toTable = t)

/-- Joining the pieces gives the text, whatever the keys of the table are that they are in. -/
def Implodes (sep : String) (pieces : List String) (s : String) : Prop :=
  ∀ name, canonicalName name = "implode" → ∀ t : Table, t.values = pieces.map .str →
    standard.invoke name [.str sep, .table t] = .ok (.str s)

theorem explodes_limited (hsep : sep ≠ "") (s : String) (limit : Option Int64) :
    Explodes sep s limit (explodeLimited sep s (limit.map Int64.toInt)) := by
  intro name hname
  have hempty : sep.isEmpty = false := String.isEmpty_eq_false_iff.mpr hsep
  refine ⟨.ofValues ((explodeLimited sep s (limit.map Int64.toInt)).map .str), ?_, ?_,
    Table.values_ofValues _, fun h => (IndexedTable.toTable_ofValues (by rwa [List.length_map])).2⟩
  · rw [FunctionTable.invoke_of_lookup hname rfl]
    cases limit
    all_goals
      show (if sep.isEmpty then _ else _) = _
      rw [hempty]
      rfl
  · rw [Table.keys_ofValues, List.length_map]

theorem joinable_strings (a : Arguments) (pieces : List String) :
    joinable a (pieces.map .str) = .ok pieces := by
  induction pieces with
  | nil => rfl
  | cons piece pieces ih =>
      rw [joinable] at ih ⊢
      rw [List.map_cons, List.mapM_cons, ih]
      rfl

theorem implodes_intercalate (sep : String) (pieces : List String) :
    Implodes sep pieces (sep.intercalate pieces) := by
  intro name hname t ht
  rw [FunctionTable.invoke_of_lookup hname rfl]
  show (joinable ⟨"implode", [.str sep, .table t]⟩ t.values >>= fun texts =>
    Except.ok (Value.str (sep.intercalate texts))) = _
  rw [ht, joinable_strings]
  rfl

/-- **Joining undoes splitting.**  A separator that is not empty cuts the text at its occurrences
from left to right, each the first one in what is left, so that it stands in none of the pieces;
without a limit these are the pieces in the list.  A limit that is not negative is the greatest
number of pieces (zero counts as one): the list has those of the first cuts, what is behind them
being left together.  A negative one drops as many pieces at the end, all of them if there are
fewer.  The keys count the pieces from zero on, and joining gives the text back unless pieces have
been dropped. -/
theorem implode_undoes_explode {sep : String} (hsep : sep ≠ "") (s : String) :
    ∃ all : List String, CutAt sep s all ∧ (∀ piece ∈ all, ¬ Occurs sep piece) ∧
      Explodes sep s none all ∧ Implodes sep all s ∧
      ∀ n : Int64, ∃ pieces : List String, Explodes sep s (some n) pieces ∧
        if 0 ≤ n.toInt then
          Implodes sep pieces s ∧ (pieces.length : Int) ≤ max n.toInt 1 ∧
            pieces = gathered sep (n.toInt.toNat - 1) all
        else pieces = all.take (all.length - n.toInt.natAbs) := by
  obtain ⟨all, hall⟩ := exists_cutAt hsep s
  have hexplodes := explodes_limited hsep s
  have hjoin := hall.intercalate
  refine ⟨all, hall, hall.not_occurs hsep, ?_, ?_, fun n => ⟨_, hexplodes (some n), ?_⟩⟩
  · have hnone := hexplodes none
    rwa [Option.map_none, explodeLimited, hall.splitAll_eq hsep] at hnone
  · have himplodes := implodes_intercalate sep all
    rwa [hjoin] at himplodes
  · rw [Option.map_some, explodeLimited]
    split
    · rw [hall.splitAtMost_eq hsep]
      refine ⟨?_, ?_, rfl⟩
      · have himplodes := implodes_intercalate sep (gathered sep (n.toInt.toNat - 1) all)
        rwa [intercalate_gathered, hjoin] at himplodes
      · have hlength : (gathered sep (n.toInt.toNat - 1) all).length ≤ n.toInt.toNat - 1 + 1 :=
          length_gathered_le _
        omega
    · rw [hall.splitAll_eq hsep]

/-- Of the two occurrences at the start, the second overlaps the first and is none. -/
theorem overlapping_separators_are_split :
    "aa" ≠ "" ∧ Explodes "aa" "aaabaa" none ["", "ab", ""] ∧
      Explodes "aa" "aaabaa" (some 2) ["", "abaa"] ∧ Implodes "aa" ["", "abaa"] "aaabaa" ∧
      Explodes "aa" "aaabaa" (some (-1)) ["", "ab"] := by
  have hsep : "aa" ≠ "" := by decide
  obtain ⟨all, hcut, -, hnone, -, hlimits⟩ := implode_undoes_explode hsep "aaabaa"
  have hall : splitAll "aa" "aaabaa" = ["", "ab", ""] := by rfl
  obtain rfl : all = ["", "ab", ""] := (hcut.splitAll_eq hsep).symm.trans hall
  obtain ⟨two, htwo, hpos⟩ := hlimits 2
  obtain ⟨dropped, hdropped, hneg⟩ := hlimits (-1)
  rw [if_pos (by decide)] at hpos
  rw [if_neg (by decide)] at hneg
  obtain ⟨hjoin, -, rfl⟩ := hpos
  subst hneg
  exact ⟨hsep, hnone, htwo, hjoin, hdropped⟩

end Library

end GuardedExpr
