/-
# Brackets — tokens that are balanced

`Balanced` says of some tokens that every bracket among them has its partner.  In a
balanced text more brackets have been opened than closed at some place if and only
if the place stands between a bracket and its partner
(`Balanced.exists_enclosing`, `Balanced.lt_of_enclosed`), so counting is enough to
know whether one is open.
-/
import GuardedExpr.Token.Balance

namespace GuardedExpr

/-! ## Balanced tokens -/

namespace TokenKind

/-- The partner of an opening bracket. -/
def closer? : TokenKind → Option TokenKind
  | .lparen => some .rparen
  | .lbracket => some .rbracket
  | .lbrace => some .rbrace
  | _ => none

/-- Kinds inside of the input that are no brackets. -/
def isNeutral : TokenKind → Bool
  | .lparen | .lbracket | .lbrace | .rparen | .rbracket | .rbrace | .eof => false
  | _ => true

theorem opens_of_closer? {k close : TokenKind} (h : k.closer? = some close) :
    k.opens = true ∧ k.closes = false ∧ close.opens = false ∧ close.closes = true := by
  cases k <;> cases h <;> exact ⟨rfl, rfl, rfl, rfl⟩

theorem ne_eof_of_isNeutral {k : TokenKind} (h : k.isNeutral = true) : k ≠ .eof := by
  rintro rfl
  cases h

theorem opens_of_isNeutral {k : TokenKind} (h : k.isNeutral = true) :
    k.opens = false ∧ k.closes = false := by
  cases k <;> first | exact ⟨rfl, rfl⟩ | cases h

end TokenKind

/-- Every bracket among the tokens has its partner, and the end of the input is not among them. -/
inductive Balanced : List Token → Prop
  | nil : Balanced []
  | neutral {t : Token} {ts : List Token} :
      t.kind.isNeutral = true → Balanced ts → Balanced (t :: ts)
  | group {o c : Token} {inner ts : List Token} :
      o.kind.closer? = some c.kind → Balanced inner → Balanced ts →
      Balanced (o :: (inner ++ c :: ts))

/-- Balanced tokens up to the partner of a bracket that is open, and balanced ones behind it. -/
def Closes (close : TokenKind) (ts : List Token) : Prop :=
  ∃ inner c behind, ts = inner ++ c :: behind ∧ c.kind = close ∧ Balanced inner ∧ Balanced behind

theorem Balanced.append {ts us : List Token} (h : Balanced ts) (h' : Balanced us) :
    Balanced (ts ++ us) := by
  induction h with
  | nil => exact h'
  | neutral ht _ ih => exact .neutral ht ih
  | @group o c inner ts ho hinner _ _ ih =>
      rw [List.cons_append, List.append_assoc, List.cons_append]
      exact .group ho hinner ih

theorem Closes.append {close : TokenKind} {ts us : List Token} (h : Closes close ts)
    (h' : Balanced us) : Closes close (ts ++ us) := by
  obtain ⟨inner, c, behind, rfl, hc, hinner, hbehind⟩ := h
  exact ⟨inner, c, behind ++ us, by simp, hc, hinner, hbehind.append h'⟩

/-- The bracket and its partner make a group. -/
theorem Closes.group {o : Token} {close : TokenKind} {ts : List Token}
    (ho : o.kind.closer? = some close) (h : Closes close ts) : Balanced (o :: ts) := by
  obtain ⟨inner, c, behind, rfl, rfl, hinner, hbehind⟩ := h
  exact .group ho hinner hbehind

/-- A bracket in front of the offset has its partner behind it. -/
def Enclosed (ts : List Token) (offset : Nat) : Prop :=
  ∃ before o inner c behind, ts = before ++ o :: (inner ++ c :: behind) ∧
    o.kind.closer? = some c.kind ∧ Balanced inner ∧
    o.location.stop ≤ offset ∧ offset < c.location.offset

/-- The brackets that open. -/
def openings (ts : List Token) : Nat := ts.countP (·.kind.opens)

/-- The brackets that close. -/
def closings (ts : List Token) : Nat := ts.countP (·.kind.closes)

section Counts

variable {t o c : Token} {ts us vs inner : List Token}

theorem openings_append (ts us : List Token) : openings (ts ++ us) = openings ts + openings us :=
  List.countP_append

theorem closings_append (ts us : List Token) : closings (ts ++ us) = closings ts + closings us :=
  List.countP_append

theorem openings_neutral (h : t.kind.isNeutral = true) (ts : List Token) :
    openings (t :: ts) = openings ts :=
  List.countP_cons_of_neg (by simp [TokenKind.opens_of_isNeutral h])

theorem closings_neutral (h : t.kind.isNeutral = true) (ts : List Token) :
    closings (t :: ts) = closings ts :=
  List.countP_cons_of_neg (by simp [TokenKind.opens_of_isNeutral h])

theorem openings_opener {k : TokenKind} (h : o.kind.closer? = some k) (ts : List Token) :
    openings (o :: ts) = openings ts + 1 :=
  List.countP_cons_of_pos (by simp [TokenKind.opens_of_closer? h])

theorem closings_opener {k : TokenKind} (h : o.kind.closer? = some k) (ts : List Token) :
    closings (o :: ts) = closings ts :=
  List.countP_cons_of_neg (by simp [TokenKind.opens_of_closer? h])

theorem openings_closer {k : TokenKind} (h : k.closer? = some c.kind) (ts : List Token) :
    openings (c :: ts) = openings ts :=
  List.countP_cons_of_neg (by simp [TokenKind.opens_of_closer? h])

theorem closings_closer {k : TokenKind} (h : k.closer? = some c.kind) (ts : List Token) :
    closings (c :: ts) = closings ts + 1 :=
  List.countP_cons_of_pos (by simp [TokenKind.opens_of_closer? h])

theorem openings_concat_eof (ts : List Token) (h : t.kind = .eof) :
    openings (ts ++ [t]) = openings ts := by
  rw [openings_append]
  exact congrArg (openings ts + ·) (List.countP_cons_of_neg (by simp [h, TokenKind.opens]))

theorem closings_concat_eof (ts : List Token) (h : t.kind = .eof) :
    closings (ts ++ [t]) = closings ts := by
  rw [closings_append]
  exact congrArg (closings ts + ·) (List.countP_cons_of_neg (by simp [h, TokenKind.closes]))

/-- What is balanced closes what it opens. -/
theorem Balanced.closings_eq (h : Balanced ts) : closings ts = openings ts := by
  induction h with
  | nil => rfl
  | neutral ht _ ih => rw [closings_neutral ht, openings_neutral ht, ih]
  | group ho _ _ ih ih' =>
      rw [closings_opener ho, openings_opener ho, closings_append, openings_append,
        closings_closer ho, openings_closer ho, ih, ih']
      rfl

/-- A front of a text with a group stands in the group or goes on behind it. -/
theorem split_group (h : us ++ vs = o :: (inner ++ c :: ts)) :
    us = [] ∨ (∃ front back, us = o :: front ∧ inner = front ++ back ∧ vs = back ++ c :: ts) ∨
      ∃ front, us = o :: (inner ++ c :: front) ∧ ts = front ++ vs := by
  rcases us with _ | ⟨u, us⟩
  · exact .inl rfl
  · rw [List.cons_append, List.cons.injEq] at h
    obtain ⟨rfl, h⟩ := h
    rcases List.append_eq_append_iff.mp h with ⟨back, hinner, hvs⟩ | ⟨front, hus, hts⟩
    · exact .inr (.inl ⟨us, back, rfl, hinner, hvs⟩)
    · rcases front with _ | ⟨c', front⟩
      · exact .inr (.inl ⟨us, [], rfl, by simpa using hus.symm, by simpa using hts.symm⟩)
      · rw [List.cons_append, List.cons.injEq] at hts
        obtain ⟨rfl, hts⟩ := hts
        exact .inr (.inr ⟨front, by rw [hus], hts⟩)

/-- At no place has more been closed than opened. -/
theorem Balanced.closings_le (h : Balanced ts) (hts : us ++ vs = ts) :
    closings us ≤ openings us := by
  induction h generalizing us vs with
  | nil =>
      obtain ⟨rfl, rfl⟩ := List.append_eq_nil_iff.mp hts
      exact Nat.le_refl _
  | @neutral t ts ht _ ih =>
      rcases us with _ | ⟨u, us⟩
      · exact Nat.le_refl _
      · rw [List.cons_append, List.cons.injEq] at hts
        obtain ⟨rfl, hts⟩ := hts
        rw [closings_neutral ht, openings_neutral ht]
        exact ih hts
  | @group o c inner ts ho hinner _ ih ih' =>
      rcases split_group hts with rfl | ⟨front, back, rfl, hfront, -⟩ | ⟨front, rfl, hfront⟩
      · exact Nat.le_refl _
      · have := ih hfront.symm
        rw [closings_opener ho, openings_opener ho]
        omega
      · have := ih' hfront.symm
        have := hinner.closings_eq
        rw [closings_opener ho, openings_opener ho, closings_append, openings_append,
          closings_closer ho, openings_closer ho]
        omega

/-- Where more has been opened than closed, a group is open. -/
theorem Balanced.exists_enclosing (h : Balanced ts) (hts : us ++ vs = ts)
    (hopen : closings us < openings us) : ∃ before o front back c behind,
      us = before ++ o :: front ∧ vs = back ++ c :: behind ∧ o.kind.closer? = some c.kind ∧
      Balanced (front ++ back) := by
  induction h generalizing us vs with
  | nil =>
      obtain ⟨rfl, rfl⟩ := List.append_eq_nil_iff.mp hts
      exact absurd hopen (Nat.lt_irrefl _)
  | @neutral t ts ht _ ih =>
      rcases us with _ | ⟨u, us⟩
      · exact absurd hopen (Nat.lt_irrefl _)
      · rw [List.cons_append, List.cons.injEq] at hts
        obtain ⟨rfl, hts⟩ := hts
        rw [closings_neutral ht, openings_neutral ht] at hopen
        obtain ⟨before, o, front, back, c, behind, rfl, rfl, hpair, hinner⟩ := ih hts hopen
        exact ⟨u :: before, o, front, back, c, behind, rfl, rfl, hpair, hinner⟩
  | @group o c inner ts ho hinner _ _ ih' =>
      rcases split_group hts with rfl | ⟨front, back, rfl, rfl, rfl⟩ | ⟨front, rfl, hfront⟩
      · exact absurd hopen (Nat.lt_irrefl _)
      · exact ⟨[], o, front, back, c, ts, rfl, rfl, ho, hinner⟩
      · have hclosed := hinner.closings_eq
        rw [closings_opener ho, openings_opener ho, closings_append, openings_append,
          closings_closer ho, openings_closer ho] at hopen
        obtain ⟨before, o', front', back, c', behind, rfl, rfl, hpair, hinner'⟩ :=
          ih' hfront.symm (by omega)
        exact ⟨o :: (inner ++ c :: before), o', front', back, c', behind, by simp, rfl, hpair,
          hinner'⟩

/-- In an open group more has been opened than closed. -/
theorem Balanced.lt_of_enclosed {before front back : List Token}
    (h : Balanced ts) (hts : before ++ o :: front ++ vs = ts) {k : TokenKind}
    (ho : o.kind.closer? = some k) (hinner : Balanced (front ++ back)) :
    closings (before ++ o :: front) < openings (before ++ o :: front) := by
  have hbefore : closings before ≤ openings before :=
    h.closings_le (by rw [← hts, List.append_assoc])
  have hfront : closings front ≤ openings front := hinner.closings_le rfl
  rw [closings_append, openings_append, closings_opener ho, openings_opener ho]
  omega

end Counts

end GuardedExpr
