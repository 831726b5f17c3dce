/-
# Highlighting — the source is cut up and nothing of it is lost

The spans of a highlighted source lie end to end from its start to its end, whatever the
tokens are (`tiles_spansFrom`):

    0 = first₁   stop₁ = first₂   …   stopₙ = size

A token that would start before the offset reached, or end behind the source, is passed
over, and what it covers falls into a gap.  So the text is kept by the walk alone, and
that each token has a span of its own is a fact about the scanner: its tokens stand in
order, do not overlap and end in the source, so none of them is passed over
(`span_mem_spansFrom`).  As the spans lie end to end, no other span then shares a byte
with a token.

What is shown are segments, which have a text and no offsets.  `Segment.placedFrom` places
them one behind the other, by the lengths of their texts alone; as the cuts are between
characters, this gives back the spans that they come from (`placedFrom_segments`).
-/
import GuardedExpr.Proofs.ErrorPlaces
import GuardedExpr.Token.Highlight

namespace GuardedExpr

open Text

/-! ## Slices -/

theorem charsBefore_isPrefix {first stop : Nat} (h : first ≤ stop) (cs : List Char) :
    charsBefore first cs <+: charsBefore stop cs := by
  induction cs generalizing first stop with
  | nil => exact List.prefix_rfl
  | cons c cs ih =>
      unfold charsBefore
      split
      · rw [if_pos (by omega), List.prefix_cons_inj]
        exact ih (by omega)
      · exact List.nil_prefix

theorem sliceText_append {source : String} {first middle stop : Nat} (hfirst : first ≤ middle)
    (hstop : middle ≤ stop) :
    sliceText source first middle ++ sliceText source middle stop
      = sliceText source first stop := by
  obtain ⟨front, hfront⟩ := charsBefore_isPrefix hfirst source.toList
  obtain ⟨back, hback⟩ := charsBefore_isPrefix hstop source.toList
  simp only [sliceText]
  rw [← String.ofList_append, ← hback, List.drop_left, ← hfront, List.drop_left, List.append_assoc,
    List.drop_left]

theorem sliceText_self (source : String) (offset : Nat) : sliceText source offset offset = "" := by
  rw [sliceText, List.drop_length]

theorem sliceText_whole (source : String) : sliceText source 0 source.utf8ByteSize = source := by
  have hnone := charsBefore_byteLength [] source.toList
  have hall := charsBefore_byteLength source.toList []
  rw [List.nil_append, byteLength_nil] at hnone
  rw [List.append_nil, byteLength_toList] at hall
  rw [sliceText, hnone, hall, List.length_nil, List.drop_zero, String.ofList_toList]

/-- Between two boundaries there are as many bytes as the offsets say. -/
theorem add_utf8ByteSize_sliceText {source : String} {first stop : Nat}
    (hfirst : IsBoundary source first) (hstop : IsBoundary source stop) (h : first ≤ stop) :
    first + (sliceText source first stop).utf8ByteSize = stop := by
  obtain ⟨front, behind, hsource, rfl⟩ := hfirst
  obtain ⟨whole, rest, hsource', rfl⟩ := hstop
  have hfront : charsBefore (byteLength front) source.toList = front := by
    rw [hsource, charsBefore_byteLength]
  have hwhole : charsBefore (byteLength whole) source.toList = whole := by
    rw [hsource', charsBefore_byteLength]
  obtain ⟨middle, hmiddle⟩ := charsBefore_isPrefix h source.toList
  rw [hfront, hwhole] at hmiddle
  rw [sliceText, hfront, hwhole, ← hmiddle, List.drop_left, ← byteLength_toList,
    String.toList_ofList, byteLength_append]

/-! ## Tilings -/

/-- The spans lie end to end between two offsets. -/
inductive Tiles : Nat → List Span → Nat → Prop
  | nil (offset : Nat) : Tiles offset [] offset
  | cons {s : Span} {ss : List Span} {stop : Nat} :
      s.first ≤ s.stop → Tiles s.stop ss stop → Tiles s.first (s :: ss) stop

/-- The two spans have a byte in common. -/
def Span.Overlaps (s u : Span) : Prop := s.first < u.stop ∧ u.first < s.stop

instance (s u : Span) : Decidable (s.Overlaps u) := inferInstanceAs (Decidable (_ ∧ _))

namespace Tiles

variable {ss us : List Span} {s : Span} {first middle stop : Nat}

theorem singleton (s : Span) (h : s.first ≤ s.stop) : Tiles s.first [s] s.stop := .cons h (.nil _)

theorem le (h : Tiles first ss stop) : first ≤ stop := by
  induction h with
  | nil => exact Nat.le_refl _
  | cons hs _ ih => exact Nat.le_trans hs ih

theorem append (h : Tiles first ss middle) (h' : Tiles middle us stop) :
    Tiles first (ss ++ us) stop := by
  induction h with
  | nil => exact h'
  | cons hs _ ih => exact .cons hs (ih h')

/-- **Spans that lie end to end spell what lies between their ends.** -/
theorem join_segments (h : Tiles first ss stop) (source : String) :
    String.join ((ss.map (Span.segment source)).map Segment.text)
      = sliceText source first stop := by
  induction h with
  | nil offset => exact (sliceText_self source offset).symm
  | cons hs htail ih =>
      rw [List.map_cons, List.map_cons, String.join_cons, ih]
      exact sliceText_append hs htail.le

theorem first_le_of_mem (h : Tiles first ss stop) (hs : s ∈ ss) : first ≤ s.first := by
  induction h with
  | nil => cases hs
  | cons hle _ ih =>
      rcases List.mem_cons.mp hs with rfl | hs
      · exact Nat.le_refl _
      · exact Nat.le_trans hle (ih hs)

theorem first_le_stop_of_mem (h : Tiles first ss stop) (hs : s ∈ ss) : s.first ≤ s.stop := by
  induction h with
  | nil => cases hs
  | cons hle _ ih =>
      rcases List.mem_cons.mp hs with rfl | hs
      · exact hle
      · exact ih hs

theorem pairwise (h : Tiles first ss stop) : ss.Pairwise fun s u => s.stop ≤ u.first := by
  induction h with
  | nil => exact List.Pairwise.nil
  | cons _ htail ih => exact List.pairwise_cons.mpr ⟨fun u hu => htail.first_le_of_mem hu, ih⟩

/-- Only a span itself has its bytes. -/
theorem filter_overlaps (h : Tiles first ss stop) (hs : s ∈ ss) (hpos : s.first < s.stop) :
    ss.filter (fun u => u.Overlaps s) = [s] := by
  -- What stands in front ends before the span starts, what stands behind starts where it ends.
  obtain ⟨front, back, rfl⟩ := List.append_of_mem hs
  obtain ⟨-, hback, hfront⟩ := List.pairwise_append.mp h.pairwise
  have hnone : ∀ us : List Span, (∀ u ∈ us, u.stop ≤ s.first ∨ s.stop ≤ u.first) →
      us.filter (fun u => u.Overlaps s) = [] := by
    intro us hus
    refine List.filter_eq_nil_iff.mpr fun u hu hover => ?_
    obtain ⟨hlow, hhigh⟩ := of_decide_eq_true hover
    rcases hus u hu with hbefore | hbehind <;> omega
  have hself : decide (s.Overlaps s) = true := decide_eq_true ⟨hpos, hpos⟩
  rw [List.filter_append, List.filter_cons, if_pos hself,
    hnone front fun u hu => .inl (hfront u hu s List.mem_cons_self),
    hnone back fun u hu => .inr (List.rel_of_pairwise_cons hback hu), List.nil_append]

end Tiles

/-! ## Segments in their places -/

/-- The segments with the offsets at which they start, when they are shown from an offset on, one
behind the other. -/
def Segment.placedFrom (offset : Nat) : List Segment → List (Nat × Segment)
  | [] => []
  | s :: ss => (offset, s) :: Segment.placedFrom (offset + s.text.utf8ByteSize) ss

/-- A segment at an offset has a byte in common with the token. -/
def Token.Meets (t : Token) (placed : Nat × Segment) : Prop :=
  placed.1 < t.location.stop ∧
    t.location.offset < placed.1 + placed.2.text.utf8ByteSize

instance (t : Token) (placed : Nat × Segment) : Decidable (t.Meets placed) :=
  inferInstanceAs (Decidable (_ ∧ _))

section Placed

variable {source : String} {ss : List Span} {first stop : Nat}

/-- The texts of the segments lead from one span to the next. -/
theorem placedFrom_segments (h : Tiles first ss stop)
    (hcuts : ∀ s ∈ ss, IsBoundary source s.first ∧ IsBoundary source s.stop) :
    Segment.placedFrom first (ss.map (Span.segment source)) =
      ss.map fun s => (s.first, s.segment source) := by
  induction h with
  | nil => rfl
  | @cons s ss stop hle _ ih =>
      obtain ⟨⟨hfirst, hstop⟩, hcuts⟩ := List.forall_mem_cons.mp hcuts
      have hnext : s.first + (s.segment source).text.utf8ByteSize = s.stop :=
        add_utf8ByteSize_sliceText hfirst hstop hle
      rw [List.map_cons, List.map_cons, Segment.placedFrom, hnext, ih hcuts]

theorem meets_segment_iff {s : Span} {t : Token} (hfirst : IsBoundary source s.first)
    (hstop : IsBoundary source s.stop) (hle : s.first ≤ s.stop) :
    t.Meets (s.first, s.segment source) ↔ s.Overlaps t.span := by
  have hend : s.first + (s.segment source).text.utf8ByteSize = s.stop :=
    add_utf8ByteSize_sliceText hfirst hstop hle
  rw [Token.Meets, hend]
  exact Iff.rfl

/-- Where only the span of the token has its bytes, only the segment of the token has them. -/
theorem filter_meets {t : Token} (h : Tiles first ss stop)
    (hcuts : ∀ s ∈ ss, IsBoundary source s.first ∧ IsBoundary source s.stop)
    (ht : ss.filter (fun s => s.Overlaps t.span) = [t.span]) :
    (Segment.placedFrom first (ss.map (Span.segment source))).filter (fun p => t.Meets p) =
      [(t.location.offset, t.span.segment source)] := by
  have hmeets : ∀ s ∈ ss, decide (t.Meets (s.first, s.segment source)) =
      decide (s.Overlaps t.span) := by
    intro s hs
    obtain ⟨hfirst, hstop⟩ := hcuts s hs
    exact decide_eq_decide.mpr (meets_segment_iff hfirst hstop (h.first_le_stop_of_mem hs))
  calc
    _ = (ss.map fun s => (s.first, s.segment source)).filter (fun p => t.Meets p) := by
      rw [placedFrom_segments h hcuts]
    _ = (ss.filter fun s => t.Meets (s.first, s.segment source)).map
          fun s => (s.first, s.segment source) := List.filter_map
    _ = [t.span].map fun s => (s.first, s.segment source) := by
      rw [List.filter_congr hmeets, ht]
    _ = [(t.location.offset, t.span.segment source)] := rfl

end Placed

/-! ## The spans of tokens -/

theorem eq_of_mem_gap {s : Span} {first stop : Nat} (h : s ∈ gap first stop) :
    s = ⟨.plain, first, stop⟩ := by
  unfold gap at h
  split at h
  · exact List.mem_singleton.mp h
  · cases h

theorem tiles_gap {first stop : Nat} (h : first ≤ stop) : Tiles first (gap first stop) stop := by
  unfold gap
  split
  · exact .singleton ⟨.plain, first, stop⟩ h
  · obtain rfl : first = stop := by omega
    exact .nil first

theorem tiles_spansFrom {size offset : Nat} (h : offset ≤ size) (ts : List Token) :
    Tiles offset (spansFrom size offset ts) size := by
  induction ts generalizing offset with
  | nil => exact tiles_gap h
  | cons t ts ih =>
      unfold spansFrom
      split
      · exact ih h
      · next hfits =>
          obtain ⟨hlow, hhigh⟩ := not_or.mp hfits
          have hlength : t.span.first ≤ t.span.stop := Nat.le_add_right _ _
          have hrest := ih (Nat.le_of_not_lt hhigh)
          exact (tiles_gap (Nat.le_of_not_lt hlow)).append (.cons hlength hrest)

theorem tiles_spans (source : String) : Tiles 0 (spans source) source.utf8ByteSize := by
  unfold spans
  split
  · exact .singleton ⟨.plain, 0, source.utf8ByteSize⟩ (Nat.zero_le _)
  · exact tiles_spansFrom (Nat.zero_le _) _

/-- The source is cut nowhere but at its ends and at the ends of tokens. -/
theorem cut_of_mem_spansFrom {P : Nat → Prop} {size offset : Nat} {ts : List Token}
    (hoffset : P offset) (hsize : P size)
    (hts : ∀ t ∈ ts, P t.location.offset ∧ P t.location.stop) :
    ∀ s ∈ spansFrom size offset ts, P s.first ∧ P s.stop := by
  induction ts generalizing offset with
  | nil =>
      intro s hs
      rw [eq_of_mem_gap hs]
      exact ⟨hoffset, hsize⟩
  | cons t ts ih =>
      obtain ⟨ht, hts⟩ := List.forall_mem_cons.mp hts
      unfold spansFrom
      split
      · exact ih hoffset hts
      · intro s hs
        rcases List.mem_append.mp hs with hs | hs
        · rw [eq_of_mem_gap hs]
          exact ⟨hoffset, ht.1⟩
        · rcases List.mem_cons.mp hs with rfl | hs
          · exact ht
          · exact ih ht.2 hts s hs

/-- The tokens stand in order between two offsets and do not overlap. -/
structure Ordered (offset size : Nat) (ts : List Token) : Prop where
  pairwise : ts.Pairwise fun t u => t.location.stop ≤ u.location.offset
  le_offset : ∀ t ∈ ts, offset ≤ t.location.offset
  stop_le : ∀ t ∈ ts, t.location.stop ≤ size

namespace Ordered

variable {offset size : Nat} {t : Token} {ts : List Token}

theorem tail (h : Ordered offset size (t :: ts)) : Ordered t.location.stop size ts where
  pairwise := h.pairwise.of_cons
  le_offset _ hu := List.rel_of_pairwise_cons h.pairwise hu
  stop_le u hu := h.stop_le u (List.mem_cons_of_mem _ hu)

theorem filter (h : Ordered offset size ts) (p : Token → Bool) :
    Ordered offset size (ts.filter p) where
  pairwise := h.pairwise.filter p
  le_offset t ht := h.le_offset t (List.mem_filter.mp ht).1
  stop_le t ht := h.stop_le t (List.mem_filter.mp ht).1

theorem spansFrom_cons (h : Ordered offset size (t :: ts)) :
    spansFrom size offset (t :: ts)
      = gap offset t.location.offset ++ t.span :: spansFrom size t.location.stop ts := by
  have hlow := h.le_offset t List.mem_cons_self
  have hhigh := h.stop_le t List.mem_cons_self
  rw [spansFrom, if_neg (by omega)]

theorem span_mem_spansFrom (h : Ordered offset size ts) (ht : t ∈ ts) :
    t.span ∈ spansFrom size offset ts := by
  induction ts generalizing offset with
  | nil => cases ht
  | cons u ts ih =>
      rw [h.spansFrom_cons, List.mem_append]
      rcases List.mem_cons.mp ht with rfl | ht
      · exact .inr List.mem_cons_self
      · exact .inr (List.mem_cons_of_mem _ (ih h.tail ht))

/-- What is not the span of a token is plain. -/
theorem plain_or_token {s : Span} (h : Ordered offset size ts)
    (hs : s ∈ spansFrom size offset ts) :
    s.tokenClass = .plain ∨ ∃ t ∈ ts, s = t.span := by
  induction ts generalizing offset with
  | nil => exact .inl (by rw [eq_of_mem_gap hs])
  | cons t ts ih =>
      rw [h.spansFrom_cons] at hs
      rcases List.mem_append.mp hs with hs | hs
      · exact .inl (by rw [eq_of_mem_gap hs])
      · rcases List.mem_cons.mp hs with rfl | hs
        · exact .inr ⟨t, List.mem_cons_self, rfl⟩
        · refine (ih h.tail hs).imp_right ?_
          rintro ⟨u, hu, rfl⟩
          exact ⟨u, List.mem_cons_of_mem _ hu, rfl⟩

end Ordered

/-! ## Sources -/

theorem Token.StandsIn.stop_le {source : String} {t : Token} (h : t.StandsIn source.toList) :
    t.location.stop ≤ source.utf8ByteSize := by
  obtain ⟨-, ⟨before, behind, hsource, hstop⟩, -⟩ := h.spec
  rw [← hstop, ← byteLength_toList, hsource, byteLength_append]
  exact Nat.le_add_right _ _

theorem ordered_of_tokenize {source : String} {ts : List Token} (h : tokenize source = .ok ts) :
    Ordered 0 source.utf8ByteSize ts ∧
      ∀ t ∈ ts, t.kind ≠ .eof → t.span.first < t.span.stop := by
  have hstands := standsIn_of_tokenize h
  unfold tokenize at h
  split at h
  · cases h
  · next ps hscan =>
      cases h
      obtain ⟨-, fs, hquoted, -⟩ := Scanner.scan_covers hscan
      obtain ⟨body, hbody, hall⟩ := Piece.place_eq_append hquoted Position.start
      refine ⟨⟨Piece.pairwise_place ps _, fun _ _ => Nat.zero_le _, ?_⟩, ?_⟩
      · exact fun t ht => (hstands t ht).1.stop_le
      · intro t ht hkind
        rw [hbody] at ht
        rcases List.mem_append.mp ht with ht | ht
        · exact Nat.lt_add_of_pos_right (hall t ht).2
        · rw [List.mem_singleton.mp ht] at hkind
          exact absurd rfl hkind

/-- The span of a token has the text of the token. -/
theorem segment_span_of_tokenize {source : String} {ts : List Token} {t : Token}
    (h : tokenize source = .ok ts) (ht : t ∈ ts) :
    t.span.segment source = ⟨t.kind.tokenClass, t.text⟩ := by
  obtain ⟨-, -, hslice, -⟩ := (standsIn_of_tokenize h t ht).1.spec
  exact congrArg (Segment.mk t.kind.tokenClass) hslice

theorem isBoundary_zero (source : String) : IsBoundary source 0 := ⟨[], source.toList, rfl, rfl⟩

theorem isBoundary_size (source : String) : IsBoundary source source.utf8ByteSize :=
  ⟨source.toList, [], (List.append_nil _).symm, byteLength_toList source⟩

/-- No cut of a source goes through a character. -/
theorem isBoundary_of_mem_spans (source : String) :
    ∀ s ∈ spans source, IsBoundary source s.first ∧ IsBoundary source s.stop := by
  unfold spans
  split
  · intro s hs
    rw [List.mem_singleton.mp hs]
    exact ⟨isBoundary_zero source, isBoundary_size source⟩
  · next ts hts =>
      refine cut_of_mem_spansFrom (isBoundary_zero source) (isBoundary_size source) ?_
      intro t ht
      have hspec := (standsIn_of_tokenize hts t (List.mem_filter.mp ht).1).1.spec
      exact ⟨hspec.1, hspec.2.1⟩

/-- **Highlighting preserves the text.**  The texts of the segments, in order, concatenate to the
source.  They are cut out of it at spans that lie end to end, and every cut is between two
characters.  A source that cannot be tokenized is one plain segment.  In one that can, each token
but the end of the input has exactly one segment: of all segments shown, only one has a byte in
common with it, and this one stands in the place of the token, has its text and the class of its
kind.  All other segments are plain. -/
theorem highlighting_preserves_text (source : String) :
    String.join ((highlight source).map Segment.text) = source ∧
    highlight source = (spans source).map (Span.segment source) ∧
    Tiles 0 (spans source) source.utf8ByteSize ∧
    (∀ s ∈ spans source, IsBoundary source s.first ∧ IsBoundary source s.stop) ∧
    (∀ e, tokenize source = .error e → highlight source = [⟨.plain, source⟩]) ∧
    ∀ ts, tokenize source = .ok ts →
      (∀ t ∈ ts, t.kind ≠ .eof →
        (Segment.placedFrom 0 (highlight source)).filter (fun p => t.Meets p) =
          [(t.location.offset, ⟨t.kind.tokenClass, t.text⟩)]) ∧
      ∀ s ∈ highlight source,
        s.tokenClass = .plain ∨ ∃ t ∈ ts, t.kind ≠ .eof ∧ s = ⟨t.kind.tokenClass, t.text⟩ := by
  have htiles := tiles_spans source
  have hcuts := isBoundary_of_mem_spans source
  refine ⟨?_, rfl, htiles, hcuts, ?_, ?_⟩
  · rw [highlight, htiles.join_segments, sliceText_whole]
  · intro e he
    rw [highlight, spans, he, List.map_singleton, Span.segment, sliceText_whole]
  · intro ts hts
    obtain ⟨hordered, hpos⟩ := ordered_of_tokenize hts
    have hsegment := fun t ht => segment_span_of_tokenize hts (t := t) ht
    have hspans : spans source
        = spansFrom source.utf8ByteSize 0 (ts.filter fun t => t.kind != .eof) := by
      rw [spans, hts]
    have hmem : ∀ t, t ∈ ts.filter (fun t => t.kind != .eof) ↔ t ∈ ts ∧ t.kind ≠ .eof := by
      simp
    constructor
    · intro t ht hkind
      have hspan : t.span ∈ spans source := by
        rw [hspans]
        exact (hordered.filter _).span_mem_spansFrom ((hmem t).mpr ⟨ht, hkind⟩)
      rw [highlight, filter_meets htiles hcuts (htiles.filter_overlaps hspan (hpos t ht hkind)),
        hsegment t ht]
    · intro s hs
      obtain ⟨u, hu, rfl⟩ := List.mem_map.mp hs
      rw [hspans] at hu
      rcases (hordered.filter _).plain_or_token hu with hplain | ⟨t, ht, rfl⟩
      · exact .inl hplain
      · obtain ⟨ht, hkind⟩ := (hmem t).mp ht
        exact .inr ⟨t, ht, hkind, hsegment t ht⟩

/-- The text of the string that stands in the call takes two bytes and is a segment of its own: of
all that is shown, nothing else has one of these bytes. -/
theorem text_in_call_is_highlighted :
    (∃ ts, tokenize "f(\"ü\x7b$x\x7d\") and 1" = .ok ts ∧
      (⟨.fragment, "ü", ⟨3, 2, 1, 4⟩⟩ : Token) ∈ ts) ∧ TokenKind.fragment ≠ .eof ∧
    (Segment.placedFrom 0 (highlight "f(\"ü\x7b$x\x7d\") and 1")).filter
      (fun p => (⟨.fragment, "ü", ⟨3, 2, 1, 4⟩⟩ : Token).Meets p) = [(3, ⟨.string, "ü"⟩)] ∧
    highlight "f(\"ü\x7b$x\x7d\") and 1" =
      [⟨.function, "f"⟩, ⟨.plain, "("⟩, ⟨.string, "\""⟩, ⟨.string, "ü"⟩, ⟨.plain, "\x7b"⟩,
       ⟨.variable, "$x"⟩, ⟨.plain, "\x7d"⟩, ⟨.string, "\""⟩, ⟨.plain, ")"⟩, ⟨.plain, " "⟩,
       ⟨.keyword, "and"⟩, ⟨.plain, " "⟩, ⟨.number, "1"⟩] := by
  have hrun : tokenize "f(\"ü\x7b$x\x7d\") and 1" = .ok
      [⟨.identifier, "f", ⟨0, 1, 1, 1⟩⟩, ⟨.lparen, "(", ⟨1, 1, 1, 2⟩⟩,
       ⟨.quote, "\"", ⟨2, 1, 1, 3⟩⟩, ⟨.fragment, "ü", ⟨3, 2, 1, 4⟩⟩,
       ⟨.lbrace, "\x7b", ⟨5, 1, 1, 5⟩⟩, ⟨.variable, "$x", ⟨6, 2, 1, 6⟩⟩,
       ⟨.rbrace, "\x7d", ⟨8, 1, 1, 8⟩⟩, ⟨.quote, "\"", ⟨9, 1, 1, 9⟩⟩,
       ⟨.rparen, ")", ⟨10, 1, 1, 10⟩⟩, ⟨.and, "and", ⟨12, 3, 1, 12⟩⟩,
       ⟨.integer, "1", ⟨16, 1, 1, 16⟩⟩, ⟨.eof, "", ⟨17, 0, 1, 17⟩⟩] := rfl
  obtain ⟨-, hspans, -, -, -, htokens⟩ :=
    highlighting_preserves_text "f(\"ü\x7b$x\x7d\") and 1"
  refine ⟨⟨_, hrun, by decide⟩, by decide, ?_, ?_⟩
  · exact (htokens _ hrun).1 ⟨.fragment, "ü", ⟨3, 2, 1, 4⟩⟩ (by decide) (by decide)
  · rw [hspans, spans, hrun]
    rfl

end GuardedExpr
