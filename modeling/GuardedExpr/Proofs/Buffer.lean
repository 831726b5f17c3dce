/-
# Buffers — when the reader waits for another line

A buffer that is not complete is to be continued.  Whether it is complete is
decided without the parser, by counting brackets among the tokens or by a string
that is not closed; but for the buffers that some continuation makes an expression
the decision is the parser's: the buffer is not complete if and only if the line
break behind it stands in a string or between a bracket and its partner
(`waits_where_the_break_is_enclosed`).

The three ways in which a source continues over a break (`Scanner.Continues`) are
the three cases.  Where nothing is open at the break, the tokens of the buffer are
a front of balanced tokens, and the counts tell whether a group is open there.
-/
import GuardedExpr.Proofs.BalancedReading
import GuardedExpr.Proofs.LineByLine

namespace GuardedExpr

open Text

/-! ## Complete buffers -/

/-- A source that is tokenized is complete if no bracket is open behind it. -/
theorem isComplete_of_tokenize {source : String} {ts : List Token} (h : tokenize source = .ok ts) :
    isComplete source = true ↔ openings ts.dropLast ≤ closings ts.dropLast := by
  obtain ⟨body, eof, rfl, heof, -⟩ := exists_body_of_tokenize h
  rw [List.dropLast_concat, ← openings_concat_eof body heof, ← closings_concat_eof body heof]
  unfold isComplete openDepth?
  rw [h]
  simp only [Option.getD_some, beq_iff_eq]
  exact Nat.sub_eq_zero_iff_le

/-- Without its closing quote a string is to be continued. -/
theorem isComplete_of_openString {source : String} {e : ParseError}
    (h : tokenize source = .error e) (hopen : e.fault.isOpenString = true) :
    isComplete source = false := by
  obtain ⟨fault, location⟩ := e
  unfold isComplete openDepth?
  rw [h]
  cases fault <;> first | rfl | cases hopen

/-! ## Groups over a break -/

section Groups

variable {us vs : List Token} {offset : Nat}

/-- Between a bracket in front of the offset and its partner behind it, the tokens split where
those of the source do. -/
theorem exists_split_of_enclosed (hus : ∀ t ∈ us, t.location.stop ≤ offset)
    (hvs : ∀ t ∈ vs, offset < t.location.offset) (h : Enclosed (us ++ vs) offset) :
    ∃ before o front back k, us = before ++ o :: front ∧ o.kind.closer? = some k ∧
      Balanced (front ++ back) := by
  obtain ⟨before, o, inner, c, behind, hsplit, hpair, hinner, ho, hc⟩ := h
  have hovs : o ∉ vs := by
    intro hmem
    have hstop : o.location.offset + o.location.length ≤ offset := ho
    have := hvs o hmem
    omega
  have hcus : c ∉ us := by
    intro hmem
    have hstop : c.location.offset + c.location.length ≤ offset := hus c hmem
    omega
  rcases List.append_eq_append_iff.mp hsplit with ⟨more, -, hmore⟩ | ⟨more, hmore, hrest⟩
  · exact absurd (by simp [hmore]) hovs
  · rcases more with _ | ⟨o', front⟩
    · have hvs' : o :: (inner ++ c :: behind) = vs := hrest
      exact absurd (hvs' ▸ List.mem_cons_self) hovs
    · obtain ⟨ho', hbehind⟩ := List.cons.inj hrest
      rw [← ho'] at hmore
      rcases List.append_eq_append_iff.mp hbehind with ⟨back, hfront, hback⟩ | ⟨back, hinner', -⟩
      · rcases back with _ | ⟨c', back⟩
        · rw [List.append_nil] at hfront
          exact ⟨before, o, front, [], _, hmore, hpair, by rwa [List.append_nil, hfront]⟩
        · have hc' : c = c' := (List.cons.inj hback).1
          exact absurd (by simp [hmore, hfront, hc']) hcus
      · exact ⟨before, o, front, back, _, hmore, hpair, hinner' ▸ hinner⟩

/-- The offset is enclosed if and only if more brackets have been opened than closed in front of
it. -/
theorem enclosed_iff (hbalanced : Balanced (us ++ vs).dropLast)
    (hus : ∀ t ∈ us, t.location.stop ≤ offset) (hvs : ∀ t ∈ vs, offset < t.location.offset)
    (hne : vs ≠ []) : Enclosed (us ++ vs) offset ↔ closings us < openings us := by
  rw [List.dropLast_append_of_ne_nil hne] at hbalanced
  constructor
  · intro h
    obtain ⟨before, o, front, back, k, rfl, hpair, hinner⟩ := exists_split_of_enclosed hus hvs h
    exact hbalanced.lt_of_enclosed rfl hpair hinner
  · intro hopen
    obtain ⟨before, o, front, back, c, behind, rfl, hback, hpair, hinner⟩ :=
      hbalanced.exists_enclosing rfl hopen
    have hsplit : vs = back ++ c :: (behind ++ [vs.getLast hne]) := by
      rw [← List.cons_append, ← List.append_assoc, ← hback, List.dropLast_concat_getLast]
    refine ⟨before, o, front ++ back, c, behind ++ [vs.getLast hne], ?_, hpair, hinner, ?_, ?_⟩
    · conv_lhs => rw [hsplit]
      simp
    · exact hus o (by simp)
    · exact hvs c (by rw [hsplit]; simp)

end Groups

/-! ## The break behind a buffer -/

/-- **A buffer waits where its break is enclosed.** If a buffer and a line behind it are read as
one expression, then the buffer is not complete if and only if the line break between them is part
of a string, or stands between a bracket and its partner.  A buffer that is an expression already
is complete. -/
theorem waits_where_the_break_is_enclosed (limit : Nat) (buffer line : String) :
    (∀ e, Expr.parse limit (buffer ++ "\n" ++ line) = .ok e →
      ∃ ts, tokenize (buffer ++ "\n" ++ line) = .ok ts ∧
        (isComplete buffer = false ↔
          InString [] ts buffer.utf8ByteSize ∨ Enclosed ts buffer.utf8ByteSize)) ∧
    ∀ e, Expr.parse limit buffer = .ok e → isComplete buffer = true := by
  constructor
  · intro e he
    obtain ⟨ts, hts, hbalanced⟩ := parse_balanced he
    refine ⟨ts, hts, ?_⟩
    have hcode : Scanner.Mode.code.Grounded := trivial
    have hoffset : (Position.start.after buffer.toList).offset = buffer.utf8ByteSize := by
      rw [Position.offset_after, byteLength_toList]
      exact Nat.zero_add _
    rw [tokenize_eq_ok_iff, toList_lineBreak] at hts
    cases Scanner.continues line.toList hcode .start buffer.toList with
    | fault _ _ hmore =>
        rw [show Scanner.Mode.before ('\n' :: line.toList) .code = .code from rfl, hts] at hmore
        cases hmore
    | inString hf hopen hmore =>
        have herror := tokenize_eq buffer
        rw [hf] at herror
        rw [isComplete_of_openString herror hopen, ← hoffset]
        exact iff_of_true rfl (.inl (hmore ts hts))
    | @closed us hus hframes hmore =>
        rw [show Scanner.Mode.before ('\n' :: line.toList) .code = .code from rfl, hts] at hmore
        obtain ⟨vs, hvs, rfl⟩ := exists_of_map_eq_ok hmore.symm
        have hfront : ∀ t ∈ us.dropLast, t.location.stop ≤ buffer.utf8ByteSize := fun t ht =>
          hoffset ▸ Scanner.stop_le_of_mem_tokensFrom hus ht
        have hbehind : ∀ t ∈ vs, buffer.utf8ByteSize < t.location.offset := fun t ht =>
          hoffset ▸ Scanner.offset_le_of_mem_tokensFrom hvs ht
        have hcounts := isComplete_of_tokenize (tokenize_eq_ok_iff.mpr hus)
        have houtside : ¬ InString [] (us.dropLast ++ vs) buffer.utf8ByteSize :=
          not_inString hframes hfront hbehind
        rw [enclosed_iff hbalanced hfront hbehind (Scanner.tokensFrom_ne_nil hvs),
          or_iff_right houtside, ← Nat.not_le, ← hcounts, Bool.not_eq_true]
  · intro e he
    obtain ⟨ts, hts, hbalanced⟩ := parse_balanced he
    rw [isComplete_of_tokenize hts, hbalanced.closings_eq]

/-- Behind `f([1],` the break stands in the parentheses; `f([1])` is an expression. -/
theorem open_call_waits :
    isComplete "f([1]," = false ∧
    (∃ ts, tokenize ("f([1]," ++ "\n" ++ "2)") = .ok ts ∧ (InString [] ts 6 ∨ Enclosed ts 6)) ∧
    isComplete "f([1])" = true := by
  have hwaits : isComplete "f([1]," = false := rfl
  have hparse : (Expr.parse 8 ("f([1]," ++ "\n" ++ "2)")).isOk = true := by decide +kernel
  have hcomplete : (Expr.parse 8 "f([1])").isOk = true := by decide +kernel
  refine ⟨hwaits, ?_, ?_⟩
  · cases he : Expr.parse 8 ("f([1]," ++ "\n" ++ "2)") with
    | error fault =>
        rw [he] at hparse
        cases hparse
    | ok e =>
        obtain ⟨ts, hts, hiff⟩ := (waits_where_the_break_is_enclosed 8 "f([1]," "2)").1 e he
        exact ⟨ts, hts, hiff.mp hwaits⟩
  · cases he : Expr.parse 8 "f([1])" with
    | error fault =>
        rw [he] at hcomplete
        cases hcomplete
    | ok e => exact (waits_where_the_break_is_enclosed 8 "f([1])" "").2 e he

end GuardedExpr
