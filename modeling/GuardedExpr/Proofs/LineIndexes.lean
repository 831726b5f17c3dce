/-
# Line indexes — byte offsets and positions correspond

The index of a source finds the line of an offset by binary search among the line
starts, which ascend.  A source cut in two has the line starts of its front, none of
them behind the cut, and then those of its back, all of them behind it: so the search
ends at the last start of the front, and what stands between that start and the cut are
the characters of the front behind its last line feed.

Going on by one character leads to a later position, so later offsets have later
positions, and a position belongs to one offset only.
-/
import GuardedExpr.Proofs.ErrorPlaces
import GuardedExpr.Text.LineIndex
import Mathlib.Data.List.DropRight
import Mathlib.Data.Prod.Lex

namespace GuardedExpr

open Text

/-! ## Cutting a text -/

theorem splitAt?_eq_some_iff {offset : Nat} {cs before behind : List Char} :
    splitAt? offset cs = some (before, behind) ↔
      cs = before ++ behind ∧ byteLength before = offset := by
  fun_induction splitAt? offset cs generalizing before behind with
  | case1 cs =>
      constructor
      · rintro ⟨⟩
        exact ⟨rfl, rfl⟩
      · rintro ⟨rfl, hlen⟩
        cases before with
        | nil => rfl
        | cons c before =>
            have := byteLength_pos (List.cons_ne_nil c before)
            omega
  | case2 n =>
      refine ⟨nofun, ?_⟩
      rintro ⟨hnil, hlen⟩
      obtain ⟨rfl, -⟩ := List.nil_eq_append_iff.mp hnil
      simp at hlen
  | case3 n c cs hc ih =>
      simp only [Option.bind_eq_bind, Option.bind_eq_some_iff, Prod.exists, ih, Option.pure_def,
        Option.some.injEq, Prod.mk.injEq]
      constructor
      · rintro ⟨front, _, ⟨rfl, hlen⟩, rfl, rfl⟩
        refine ⟨rfl, ?_⟩
        rw [byteLength_cons]
        omega
      · rintro ⟨hcs, hlen⟩
        cases before with
        | nil => simp at hlen
        | cons d front =>
            obtain ⟨rfl, rfl⟩ := List.cons_eq_cons.mp hcs
            rw [byteLength_cons] at hlen
            exact ⟨front, behind, ⟨rfl, by omega⟩, rfl, rfl⟩
  | case4 n c cs hc =>
      refine ⟨nofun, ?_⟩
      rintro ⟨hcs, hlen⟩
      cases before with
      | nil => simp at hlen
      | cons d front =>
          obtain ⟨rfl, rfl⟩ := List.cons_eq_cons.mp hcs
          rw [byteLength_cons] at hlen
          omega

theorem slice?_eq_some_iff {first stop : Nat} {cs part : List Char} :
    slice? first stop cs = some part ↔
      ∃ front behind, cs = front ++ part ++ behind ∧ byteLength front = first ∧
        byteLength (front ++ part) = stop := by
  simp only [slice?, Option.bind_eq_bind, Option.bind_eq_some_iff, Prod.exists, Option.pure_def,
    Option.some.injEq, splitAt?_eq_some_iff]
  constructor
  · rintro ⟨_, behind, ⟨rfl, hstop⟩, front, _, ⟨rfl, hfirst⟩, rfl⟩
    exact ⟨front, behind, rfl, hfirst, hstop⟩
  · rintro ⟨front, behind, rfl, hfirst, hstop⟩
    exact ⟨_, behind, ⟨rfl, hstop⟩, front, part, ⟨rfl, hfirst⟩, rfl⟩

/-! ## Binary search -/

section Search

variable {xs : Array Nat} {x low high : Nat}

/-- Where `x` can only be: the elements before `low` are smaller, those from `high` on larger. -/
structure Encloses (xs : Array Nat) (x low high : Nat) : Prop where
  below : ∀ i (hi : i < xs.size), i < low → xs[i] < x
  above : ∀ i (hi : i < xs.size), high ≤ i → x < xs[i]

/-- What a search for `x` may answer: an index at which `x` stands, or the one before which all
elements are smaller and from which on all are larger. -/
def Sought.Fits (xs : Array Nat) (x : Nat) : Sought → Prop
  | .hit i => xs[i]? = some x
  | .gap i => i ≤ xs.size ∧ Encloses xs x i i

/-- A smaller element moves the lower end behind it. -/
theorem Encloses.raise (hasc : xs.toList.Pairwise (· < ·)) (h : Encloses xs x low high)
    {middle : Nat} (hm : middle < xs.size) (hlt : xs[middle] < x) :
    Encloses xs x (middle + 1) high where
  below i hi him := by
    rcases Nat.lt_or_eq_of_le (Nat.le_of_lt_succ him) with him | rfl
    · exact (List.pairwise_iff_getElem.mp hasc i middle hi hm him).trans hlt
    · exact hlt
  above := h.above

/-- A larger element moves the upper end to it. -/
theorem Encloses.lower (hasc : xs.toList.Pairwise (· < ·)) (h : Encloses xs x low high)
    {middle : Nat} (hm : middle < xs.size) (hlt : x < xs[middle]) :
    Encloses xs x low middle where
  below := h.below
  above i hi hmi := by
    rcases Nat.lt_or_eq_of_le hmi with hmi | rfl
    · exact hlt.trans (List.pairwise_iff_getElem.mp hasc middle i hm hi hmi)
    · exact hlt

theorem searchBetween_fits (hasc : xs.toList.Pairwise (· < ·)) (hhigh : high ≤ xs.size)
    (hle : low ≤ high) (h : Encloses xs x low high) :
    (searchBetween xs x low high hhigh).Fits xs x := by
  fun_induction searchBetween xs x low high hhigh with
  | case1 low high hhigh hlow middle hm hlt ih =>
      rw [Nat.compare_eq_lt] at hlt
      exact ih (by omega) (h.raise hasc hm hlt)
  | case2 low high hhigh hlow middle hm heq =>
      rw [Nat.compare_eq_eq] at heq
      rw [Sought.Fits, Array.getElem?_eq_getElem hm, heq]
  | case3 low high hhigh hlow middle hm hgt ih =>
      rw [Nat.compare_eq_gt] at hgt
      exact ih (by omega) (h.lower hasc hm hgt)
  | case4 low high hhigh hlow =>
      obtain rfl : low = high := by omega
      exact ⟨hhigh, h⟩

theorem search_fits (hasc : xs.toList.Pairwise (· < ·)) (x : Nat) : (search xs x).Fits xs x :=
  searchBetween_fits hasc _ (Nat.zero_le _)
    ⟨fun _ _ h => absurd h (Nat.not_lt_zero _), fun _ hi h => absurd hi (Nat.not_lt.mpr h)⟩

end Search

/-! ## Line starts -/

namespace LineIndex

section Starts

variable {offset : Nat} {bytes : List UInt8} {cs : List Char}

@[simp] theorem startsBehind_nil (offset : Nat) : startsBehind offset [] = [] := rfl

theorem startsBehind_cons (offset : Nat) (b : UInt8) (bytes : List UInt8) :
    startsBehind offset (b :: bytes)
      = if b = 10 then (offset + 1) :: startsBehind (offset + 1) bytes
        else startsBehind (offset + 1) bytes := by
  simp only [startsBehind, List.zipIdx_cons, List.filter_cons, beq_iff_eq]
  split <;> rfl

theorem startsBehind_append (offset : Nat) (front back : List UInt8) :
    startsBehind offset (front ++ back)
      = startsBehind offset front ++ startsBehind (offset + front.length) back := by
  simp [startsBehind, List.zipIdx_append]

theorem bounds_of_mem_startsBehind {s : Nat} (h : s ∈ startsBehind offset bytes) :
    offset < s ∧ s ≤ offset + bytes.length := by
  simp only [startsBehind, List.mem_map, List.mem_filter, Prod.exists] at h
  obtain ⟨b, i, ⟨hmem, -⟩, rfl⟩ := h
  obtain ⟨hlow, hhigh, -⟩ := List.mem_zipIdx hmem
  omega

theorem pairwise_startsBehind (offset : Nat) (bytes : List UInt8) :
    (startsBehind offset bytes).Pairwise (· < ·) := by
  induction bytes generalizing offset with
  | nil => exact .nil
  | cons b bytes ih =>
      rw [startsBehind_cons]
      split
      · exact .cons (fun s hs => (bounds_of_mem_startsBehind hs).1) (ih _)
      · exact ih _

/-- The bytes of characters in UTF-8. -/
def encode (cs : List Char) : List UInt8 := cs.flatMap String.utf8EncodeChar

theorem data_toUTF8 (source : String) : source.toUTF8.data.toList = encode source.toList := by
  rw [String.toUTF8_eq_toByteArray, ← String.ofList_toList (s := source),
    String.toByteArray_ofList, String.toList_ofList]
  simp [List.utf8Encode, encode]

theorem length_encode (cs : List Char) : (encode cs).length = byteLength cs := by
  simp [encode, byteLength, List.length_flatMap]

/-- The byte of a line feed occurs in no other character: the bytes of a longer one are all
beyond ASCII. -/
theorem eq_lineFeed_of_mem {c : Char} (h : 10 ∈ String.utf8EncodeChar c) : c = '\n' := by
  suffices hval : c.val.toNat = 10 from Char.ext (UInt32.toNat_inj.mp hval)
  unfold String.utf8EncodeChar at h
  simp only at h
  split_ifs at h
  all_goals
    simp only [List.mem_cons, List.not_mem_nil, or_false, ← UInt8.toNat_inj, UInt8.toNat_ofNat',
      UInt8.reduceToNat] at h
    omega

theorem startsBehind_char (offset : Nat) (c : Char) :
    startsBehind offset (String.utf8EncodeChar c) = if c = '\n' then [offset + 1] else [] := by
  split
  · next hc => subst hc; rfl
  · next hc =>
      rw [startsBehind, List.map_eq_nil_iff, List.filter_eq_nil_iff]
      rintro ⟨b, i⟩ hmem hb
      rw [beq_iff_eq] at hb
      exact hc (eq_lineFeed_of_mem (hb ▸ List.fst_mem_of_mem_zipIdx hmem))

/-- The offsets behind the line feeds of characters that start at `offset`. -/
def startsIn (offset : Nat) (cs : List Char) : List Nat := startsBehind offset (encode cs)

theorem startsIn_append (offset : Nat) (front back : List Char) :
    startsIn offset (front ++ back)
      = startsIn offset front ++ startsIn (offset + byteLength front) back := by
  rw [startsIn, encode, List.flatMap_append, startsBehind_append]
  rw [← encode, ← encode, length_encode, startsIn, startsIn]

theorem startsIn_cons (offset : Nat) (c : Char) (cs : List Char) :
    startsIn offset (c :: cs)
      = (if c = '\n' then [offset + 1] else []) ++ startsIn (offset + c.utf8Size) cs := by
  rw [← List.singleton_append, startsIn_append, startsIn, encode, List.flatMap_singleton,
    startsBehind_char]
  simp

theorem length_startsIn (offset : Nat) (cs : List Char) :
    (startsIn offset cs).length = cs.count '\n' := by
  induction cs generalizing offset with
  | nil => rfl
  | cons c cs ih =>
      rw [startsIn_cons, List.length_append, ih, List.count_cons, Nat.add_comm]
      by_cases hc : c = '\n' <;> simp [hc]

theorem bounds_of_mem_startsIn {s : Nat} (h : s ∈ startsIn offset cs) :
    offset < s ∧ s ≤ offset + byteLength cs := by
  have := bounds_of_mem_startsBehind h
  rwa [length_encode] at this

theorem starts_ofText (source : String) :
    (ofText source).starts.toList = 0 :: startsIn 0 source.toList := by
  rw [ofText, data_toUTF8, startsIn]

theorem pairwise_starts (source : String) : (ofText source).starts.toList.Pairwise (· < ·) := by
  rw [starts_ofText]
  exact .cons (fun s hs => (bounds_of_mem_startsIn hs).1) (pairwise_startsBehind 0 _)

/-- The last line start of a text stands behind its last line feed. -/
theorem getElem?_startsIn (cs : List Char) :
    (0 :: startsIn 0 cs)[cs.count '\n']? = some (byteLength (cs.rdropWhile (· != '\n'))) := by
  induction cs using List.reverseRecOn with
  | nil => rfl
  | append_singleton cs c ih =>
      rw [startsIn_append, ← List.cons_append, List.count_append, startsIn_cons, Nat.zero_add]
      by_cases hc : c = '\n'
      · subst hc
        rw [List.rdropWhile_concat_neg _ _ _ (by decide), byteLength_append,
          List.getElem?_append_right (by simp [length_startsIn])]
        simp [length_startsIn]
        rfl
      · rw [List.rdropWhile_concat_pos _ _ _ (by simpa using hc), ← ih]
        simp [hc, startsIn, encode]

end Starts

/-! ## The line and the place of an offset -/

/-- The search answers the last line that starts at the offset or before it. -/
theorem line?_eq_some {index : LineIndex} {offset n : Nat}
    (hasc : index.starts.toList.Pairwise (· < ·)) (hn : n < index.starts.size)
    (h : ∀ i s, index.starts[i]? = some s → (s ≤ offset ↔ i ≤ n)) :
    index.line? offset = some n := by
  have hstart := (h n _ (Array.getElem?_eq_getElem hn)).mpr (Nat.le_refl n)
  have hfits := search_fits hasc offset
  unfold line?
  cases hs : search index.starts offset with
  | hit line =>
      rw [hs, Sought.Fits] at hfits
      -- The starts ascend strictly: one at the offset is the last that is not behind it.
      rcases Nat.lt_or_eq_of_le ((h line _ hfits).mp (Nat.le_refl _)) with hlt | rfl
      · obtain ⟨hline, heq⟩ := Array.getElem?_eq_some_iff.mp hfits
        have := List.pairwise_iff_getElem.mp hasc line n hline hn hlt
        simp only [Array.getElem_toList] at this
        omega
      · rfl
  | gap line =>
      rw [hs, Sought.Fits] at hfits
      obtain ⟨hline, hbelow, habove⟩ := hfits
      -- The offset would be put in right behind line `n`, so the gap is one further on.
      have hlow : n < line := by
        by_contra hnot
        have := habove n hn (Nat.le_of_not_lt hnot)
        omega
      have hhigh : line ≤ n + 1 := by
        by_contra hnot
        have hnext : n + 1 < index.starts.size := by omega
        have := (h (n + 1) _ (Array.getElem?_eq_getElem hnext)).mp (hbelow _ hnext (by omega)).le
        omega
      obtain rfl : line = n + 1 := by omega
      rfl

theorem line?_ofText {source : String} {before behind : List Char}
    (h : source.toList = before ++ behind) :
    (ofText source).line? (byteLength before) = some (before.count '\n') := by
  have hstarts : (ofText source).starts.toList
      = (0 :: startsIn 0 before) ++ startsIn (byteLength before) behind := by
    rw [starts_ofText, h, startsIn_append, Nat.zero_add, List.cons_append]
  have hlen : (0 :: startsIn 0 before).length = before.count '\n' + 1 := by
    rw [List.length_cons, length_startsIn]
  apply line?_eq_some (pairwise_starts source)
  · rw [← Array.length_toList, hstarts, List.length_append, hlen]
    omega
  · intro i s hs
    rw [← Array.getElem?_toList, hstarts, List.getElem?_append, hlen] at hs
    split at hs
    · next hfront =>
        refine iff_of_true ?_ (Nat.le_of_lt_succ hfront)
        rcases List.mem_cons.mp (List.mem_of_getElem? hs) with rfl | hmem
        · exact Nat.zero_le _
        · simpa using (bounds_of_mem_startsIn hmem).2
    · next hback =>
        refine iff_of_false ?_ (by omega)
        exact Nat.not_le.mpr (bounds_of_mem_startsIn (List.mem_of_getElem? hs)).1

/-- At a cut of the source the index gives the line and column of the text before it. -/
theorem locate?_of_append {source : String} {before behind : List Char} (length : Nat)
    (h : source.toList = before ++ behind) :
    (ofText source).locate? source (byteLength before) length
      = some ⟨byteLength before, length, before.count '\n' + 1,
          (before.rtakeWhile (· != '\n')).length + 1⟩ := by
  have hstart : (ofText source).starts[before.count '\n']?
      = some (byteLength (before.rdropWhile (· != '\n'))) := by
    rw [← Array.getElem?_toList, starts_ofText, h, startsIn_append, ← List.cons_append,
      List.getElem?_append_left (by simp [length_startsIn]), getElem?_startsIn]
  have hpassed : slice? (byteLength (before.rdropWhile (· != '\n'))) (byteLength before)
      source.toList = some (before.rtakeWhile (· != '\n')) := by
    rw [slice?_eq_some_iff]
    refine ⟨_, behind, ?_, rfl, ?_⟩
    · rw [List.rdropWhile_append_rtakeWhile, h]
    · rw [List.rdropWhile_append_rtakeWhile]
  simp only [locate?, line?_ofText h, hstart, hpassed, Option.bind_eq_bind, Option.bind_some,
    Option.pure_def]

theorem isSome_locate?_iff {source : String} {offset length : Nat} :
    ((ofText source).locate? source offset length).isSome ↔ IsBoundary source offset := by
  constructor
  · intro h
    obtain ⟨l, hl⟩ := Option.isSome_iff_exists.mp h
    simp only [locate?, Option.bind_eq_bind, Option.bind_eq_some_iff, slice?_eq_some_iff] at hl
    obtain ⟨-, -, first, -, passed, ⟨front, behind, hsource, -, hstop⟩, -⟩ := hl
    exact ⟨front ++ passed, behind, hsource, hstop⟩
  · rintro ⟨before, behind, hsource, rfl⟩
    rw [locate?_of_append length hsource]
    rfl

end LineIndex

/-! ## Places of what is read -/

theorem Position.column_after (cs : List Char) :
    (start.after cs).column = (cs.rtakeWhile (· != '\n')).length + 1 := by
  induction cs using List.reverseRecOn with
  | nil => rfl
  | append_singleton cs c ih =>
      rw [after_append, after_cons, after_nil, advance]
      by_cases hc : c = '\n'
      · subst hc
        rw [if_pos rfl, List.rtakeWhile_concat_neg _ _ _ (by decide)]
        rfl
      · rw [if_neg hc, List.rtakeWhile_concat_pos _ _ _ (by simpa using hc), List.length_append, ih]
        rfl

/-- The place that a boundary has in the index is where a reader stands who has read the text
before it. -/
theorem LineIndex.locate?_eq_locate {source : String} {offset length : Nat}
    (h : IsBoundary source offset) :
    (ofText source).locate? source offset length = some (locate source offset length) := by
  obtain ⟨before, behind, hsource, rfl⟩ := h
  rw [locate?_of_append length hsource, locate, hsource, charsBefore_byteLength,
    Position.line_after, Position.column_after, Position.start, Nat.add_comm 1]

theorem Token.StandsIn.locate?_eq {source : String} {t : Token} (h : t.StandsIn source.toList) :
    (LineIndex.ofText source).locate? source t.location.offset t.location.length
      = some t.location := by
  obtain ⟨hfirst, -, -, hlocate⟩ := h.spec
  rw [LineIndex.locate?_eq_locate hfirst, ← hlocate]

/-- Tokens and parse errors have the places that the index gives them, although the reader counts
lines and columns as it goes. -/
theorem locate?_of_read (source : String) :
    (∀ ts, tokenize source = .ok ts → ∀ t ∈ ts,
      (LineIndex.ofText source).locate? source t.location.offset t.location.length
        = some t.location) ∧
    ∀ limit e, Expr.parse limit source = .error e →
      (LineIndex.ofText source).locate? source e.location.offset e.location.length
        = some e.location := by
  refine ⟨fun ts hts t ht => (standsIn_of_tokenize hts t ht).1.locate?_eq, fun limit e he => ?_⟩
  obtain ⟨t, hstands, hloc, -⟩ := Expr.standsIn_of_parse_error he
  rw [hloc]
  exact hstands.locate?_eq

/-! ## Positions in order -/

/-- The line and the column of a position, lines first. -/
def Position.place (p : Position) : ℕ ×ₗ ℕ := toLex (p.line, p.column)

/-- The line and the column of a location, lines first. -/
def Location.place (l : Location) : ℕ ×ₗ ℕ := toLex (l.line, l.column)

/-- Every character leads to a later place. -/
theorem Position.place_lt_advance (p : Position) (c : Char) : p.place < (p.advance c).place := by
  rw [place, place, Prod.Lex.toLex_lt_toLex, advance]
  split
  · exact .inl (Nat.lt_succ_self _)
  · exact .inr ⟨rfl, Nat.lt_succ_self _⟩

theorem Position.place_le_after (p : Position) (cs : List Char) : p.place ≤ (p.after cs).place := by
  induction cs generalizing p with
  | nil => exact le_rfl
  | cons c cs ih => exact (p.place_lt_advance c).le.trans (ih _)

theorem Position.place_lt_after (p : Position) {cs : List Char} (h : cs ≠ []) :
    p.place < (p.after cs).place := by
  obtain ⟨c, cs, rfl⟩ := List.exists_cons_of_ne_nil h
  exact (p.place_lt_advance c).trans_le ((p.advance c).place_le_after cs)

theorem place_locate_strictMono {source : String} {offset₁ offset₂ : Nat}
    (h₁ : IsBoundary source offset₁) (h₂ : IsBoundary source offset₂) (hlt : offset₁ < offset₂)
    (length₁ length₂ : Nat) :
    (locate source offset₁ length₁).place < (locate source offset₂ length₂).place := by
  obtain ⟨before₁, behind₁, hsource₁, rfl⟩ := h₁
  obtain ⟨before₂, behind₂, hsource₂, rfl⟩ := h₂
  -- The earlier cut leaves a shorter front: the later one goes on with some characters.
  obtain ⟨more, hmore, rfl⟩ : ∃ more, more ≠ [] ∧ before₂ = before₁ ++ more := by
    rcases List.append_eq_append_iff.mp (hsource₁.symm.trans hsource₂) with
      ⟨more, rfl, -⟩ | ⟨more, rfl, -⟩
    · refine ⟨more, ?_, rfl⟩
      rintro rfl
      simp at hlt
    · rw [byteLength_append] at hlt
      omega
  have hfront₁ := charsBefore_byteLength before₁ behind₁
  have hfront₂ := charsBefore_byteLength (before₁ ++ more) behind₂
  rw [← hsource₁] at hfront₁
  rw [← hsource₂] at hfront₂
  have hplace := (Position.start.after before₁).place_lt_after hmore
  rw [← Position.after_append] at hplace
  simp only [locate, hfront₁, hfront₂]
  exact hplace

/-- **Offsets and positions correspond.**  At every cut of a source the line index gives the line
that the line feeds before the cut count, and the column that the characters behind the last of
them count; it answers at the boundaries of the source and nowhere else; and among boundaries the
positions are in the order of the offsets, so that no two share one. -/
theorem offsets_correspond_to_positions (source : String) :
    (∀ before behind length, source.toList = before ++ behind →
      (LineIndex.ofText source).locate? source (byteLength before) length
        = some ⟨byteLength before, length, 1 + before.count '\n',
            1 + (before.rtakeWhile (· != '\n')).length⟩) ∧
    (∀ offset length, ((LineIndex.ofText source).locate? source offset length).isSome ↔
      IsBoundary source offset) ∧
    ∀ offset₁ offset₂ length₁ length₂ l₁ l₂,
      (LineIndex.ofText source).locate? source offset₁ length₁ = some l₁ →
      (LineIndex.ofText source).locate? source offset₂ length₂ = some l₂ →
      (l₁.place < l₂.place ↔ offset₁ < offset₂) := by
  refine ⟨?_, fun _ _ => LineIndex.isSome_locate?_iff, ?_⟩
  · intro before behind length hsource
    rw [LineIndex.locate?_of_append length hsource, Nat.add_comm 1, Nat.add_comm 1]
  · intro offset₁ offset₂ length₁ length₂ l₁ l₂ hl₁ hl₂
    have h₁ := LineIndex.isSome_locate?_iff.mp (Option.isSome_of_eq_some hl₁)
    have h₂ := LineIndex.isSome_locate?_iff.mp (Option.isSome_of_eq_some hl₂)
    obtain rfl := Option.some.inj (hl₁.symm.trans (LineIndex.locate?_eq_locate h₁))
    obtain rfl := Option.some.inj (hl₂.symm.trans (LineIndex.locate?_eq_locate h₂))
    constructor
    · intro hplace
      by_contra hnot
      rcases Nat.lt_or_eq_of_le (Nat.le_of_not_lt hnot) with hlt | rfl
      · exact lt_asymm hplace (place_locate_strictMono h₂ h₁ hlt _ _)
      · exact lt_irrefl _ hplace
    · exact fun hlt => place_locate_strictMono h₁ h₂ hlt _ _

/-- Two line feeds in a row, behind a character of two bytes: the place between them comes before
the one of the variable. -/
theorem empty_line_comes_before_last :
    (LineIndex.ofText "é\n\n $a").locate? "é\n\n $a" 3 0 = some ⟨3, 0, 2, 1⟩ ∧
      (LineIndex.ofText "é\n\n $a").locate? "é\n\n $a" 5 2 = some ⟨5, 2, 3, 2⟩ ∧
      (⟨3, 0, 2, 1⟩ : Location).place < (⟨5, 2, 3, 2⟩ : Location).place := by
  obtain ⟨hlocate, -, horder⟩ := offsets_correspond_to_positions "é\n\n $a"
  have hempty := hlocate ['é', '\n'] ['\n', ' ', '$', 'a'] 0 (by decide)
  have hlast := hlocate ['é', '\n', '\n', ' '] ['$', 'a'] 2 (by decide)
  exact ⟨hempty, hlast, (horder 3 5 0 2 _ _ hempty hlast).mpr (by decide)⟩

end GuardedExpr
