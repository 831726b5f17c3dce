/-
# Numerals — read back from their text, and the longest at the start of any text

A numeral is well formed when its digits are digits, its exponent has some, and there
is one on either side of the point.  Its text is a sign, digits, a point with digits
behind it, and an exponent, and the reader takes one after the other.  Each part ends
where the next one starts, since no part begins as the one in front of it goes on: so
the parts are found again, and nothing of them is left if the text does not go on with
the numeral (`Numeral.Ends`).  The text alone is then read as the float of the numeral;
it is no name of a special number, for these start with letters.

A text that does go on with a numeral starts with a longer one: with one more digit, a
point, or an exponent.  The reader finds the longest one by induction on what is left
(`WellFormed.exists_scan?`), and whatever it finds is a numeral (`wellFormed_of_scan?`).
-/
import GuardedExpr.Number.Numeral

namespace GuardedExpr

open Text

theorem toLower_of_isDigit {c : Char} (h : c.isDigit = true) : c.toLower = c := by
  simp only [Char.isDigit, Bool.and_eq_true, decide_eq_true_eq, ge_iff_le,
    UInt32.le_iff_toNat_le] at h
  unfold Char.toLower
  rw [dif_neg]
  rintro ⟨hlow, -⟩
  rw [ge_iff_le, UInt32.le_iff_toNat_le] at hlow
  exact absurd (Nat.le_trans hlow h.2) (by decide)

/-! ## Well-formed numerals -/

structure Exponent.WellFormed (e : Exponent) : Prop where
  letter : (e.letter == 'e' || e.letter == 'E') = true
  sign : ∀ c ∈ e.sign, Numeral.isSign c = true
  nonempty : e.digits ≠ []
  digits : ∀ c ∈ e.digits, c.isDigit = true

namespace Numeral

structure WellFormed (n : Numeral) : Prop where
  sign : ∀ c ∈ n.sign, isSign c = true
  whole : ∀ c ∈ n.whole, c.isDigit = true
  fraction : ∀ ds ∈ n.fraction, ∀ c ∈ ds, c.isDigit = true
  nonempty : n.whole ≠ [] ∨ n.fraction.getD [] ≠ []
  exponent : ∀ e ∈ n.exponent, e.WellFormed

/-! ## The parts of a text -/

section Parts

theorem isSign_of_isDigit {c : Char} (h : c.isDigit = true) : isSign c = false := by
  rw [Bool.eq_false_iff]
  intro hsign
  rcases Bool.or_eq_true _ _ ▸ hsign with hc | hc <;>
  · rw [beq_iff_eq.mp hc] at h
    cases h

/-- A sign in front of anything that starts with none. -/
theorem scanSign_signChars {sign : Option Char} (h : ∀ c ∈ sign, isSign c = true)
    {rest : List Char} (hrest : ∀ c ∈ rest.head?, isSign c = false) :
    scanSign (signChars sign ++ rest) = (sign, rest) := by
  cases sign with
  | some c => simp [signChars, scanSign, h c rfl]
  | none =>
      cases rest with
      | nil => rfl
      | cons c rest => simp [signChars, scanSign, hrest c rfl]

/-- Digits in front of anything that starts with none. -/
theorem scanDigits_append {ds rest : List Char} (h : ∀ c ∈ ds, c.isDigit = true)
    (hrest : ∀ c ∈ rest.head?, c.isDigit = false) : scanDigits (ds ++ rest) = (ds, rest) := by
  rw [scanDigits, List.takeWhile_append_of_pos h, List.dropWhile_append_of_pos h]
  cases rest with
  | nil => simp
  | cons c rest => simp [hrest c rfl]

variable {exponent : Option Exponent} {fraction : Option (List Char)} {rest : List Char}

/-- An exponent starts with its letter. -/
theorem head?_exponentChars {c : Char} (h : ∀ e ∈ exponent, e.WellFormed)
    (hc : c ∈ (exponentChars exponent ++ rest).head?) :
    c.isDigit = false ∧ c ≠ '.' ∨ exponent = none ∧ c ∈ rest.head? := by
  cases exponent with
  | none => exact .inr ⟨rfl, hc⟩
  | some e =>
      cases hc
      rcases Bool.or_eq_true _ _ ▸ (h e rfl).letter with hc | hc <;>
      · rw [beq_iff_eq.mp hc]
        exact .inl (by decide)

theorem scanExponent_of_none {cs : List Char} (h : (scanExponent cs).1 = none) :
    scanExponent cs = (none, cs) := by
  revert h
  unfold scanExponent
  split
  · dsimp only
    split
    · split
      · exact fun _ => rfl
      · nofun
    · exact fun _ => rfl
  · exact fun _ => rfl

/-- An exponent in front of what does not go on with it. -/
theorem scanExponent_append (h : ∀ e ∈ exponent, e.WellFormed)
    (hdigit : ∀ c ∈ rest.head?, c.isDigit = false)
    (hnone : exponent = none → (scanExponent rest).1 = none) :
    scanExponent (exponentChars exponent ++ rest) = (exponent, rest) := by
  cases exponent with
  | none => exact scanExponent_of_none (hnone rfl)
  | some e =>
      obtain ⟨hletter, hsign, hne, hdigits⟩ := h e rfl
      have hhead : ∀ c ∈ (e.digits ++ rest).head?, isSign c = false := by
        obtain ⟨d, ds, hds⟩ := List.exists_cons_of_ne_nil hne
        rw [hds]
        rintro c ⟨⟩
        exact isSign_of_isDigit (hdigits d (by simp [hds]))
      have hempty : e.digits.isEmpty = false := by simpa using hne
      rw [exponentChars, List.cons_append, List.cons_append, scanExponent, hletter, if_pos rfl,
        List.append_assoc, scanSign_signChars hsign hhead]
      dsimp only
      rw [scanDigits_append hdigits hdigit]
      simp [hempty]

/-- A point with its digits in front of what does not go on with them. -/
theorem scanFraction_append (hf : ∀ ds ∈ fraction, ∀ c ∈ ds, c.isDigit = true)
    (hdigit : ∀ c ∈ rest.head?, c.isDigit = false)
    (hpoint : fraction = none → ∀ c ∈ rest.head?, c ≠ '.') :
    scanFraction (fractionChars fraction ++ rest) = (fraction, rest) := by
  cases fraction with
  | some ds =>
      rw [fractionChars, List.cons_append, scanFraction, scanDigits_append (hf ds rfl) hdigit]
  | none =>
      rw [fractionChars, List.nil_append]
      unfold scanFraction
      split
      · exact absurd rfl (hpoint rfl '.' rfl)
      · rfl

end Parts

/-! ## The whole text -/

/-- The text does not go on with the numeral that it stands behind. -/
structure Ends (n : Numeral) (rest : List Char) : Prop where
  digit : ∀ c ∈ rest.head?, c.isDigit = false
  point : n.fraction = none → n.exponent = none → ∀ c ∈ rest.head?, c ≠ '.'
  exponent : n.exponent = none → (scanExponent rest).1 = none

theorem ends_nil (n : Numeral) : n.Ends [] := ⟨nofun, fun _ _ => nofun, fun _ => rfl⟩

section WellFormed

variable {n : Numeral} {rest : List Char}

/-- The text without its sign. -/
theorem chars_eq (n : Numeral) : n.chars
    = signChars n.sign ++ (n.whole ++ (fractionChars n.fraction ++ exponentChars n.exponent)) := by
  simp only [chars, List.append_assoc]

/-- Behind the sign comes a digit or the point. -/
theorem WellFormed.body_head (h : n.WellFormed) :
    ∃ c more, n.whole ++ (fractionChars n.fraction ++ exponentChars n.exponent) = c :: more ∧
      (c.isDigit = true ∨ c = '.') := by
  cases hwhole : n.whole with
  | cons c ds => exact ⟨c, _, rfl, .inl (h.whole c (by simp [hwhole]))⟩
  | nil =>
      cases hfraction : n.fraction with
      | some ds => exact ⟨'.', _, rfl, .inr rfl⟩
      | none => exact absurd h.nonempty (by simp [hwhole, hfraction])

theorem WellFormed.scanSign_append (h : n.WellFormed) (rest : List Char) :
    scanSign (n.chars ++ rest)
      = (n.sign, n.whole ++ (fractionChars n.fraction ++ (exponentChars n.exponent ++ rest))) := by
  obtain ⟨c, more, hbody, hc⟩ := h.body_head
  have hassoc : n.whole ++ (fractionChars n.fraction ++ (exponentChars n.exponent ++ rest)) =
      c :: (more ++ rest) := by
    rw [← List.cons_append, ← hbody]
    simp only [List.append_assoc]
  have hhead : ∀ d ∈ (c :: (more ++ rest)).head?, isSign d = false := by
    rintro d ⟨⟩
    rcases hc with hc | rfl
    · exact isSign_of_isDigit hc
    · decide
  rw [chars_eq, List.append_assoc, hbody, hassoc]
  exact scanSign_signChars h.sign hhead

/-- **A numeral is read back from its text,** up to where the text does not go on with it. -/
theorem WellFormed.scan?_append (h : n.WellFormed) (hends : n.Ends rest) :
    scan? (n.chars ++ rest) = some (n, rest) := by
  have htail : ∀ d ∈ (exponentChars n.exponent ++ rest).head?, d.isDigit = false := by
    intro d hd
    rcases head?_exponentChars h.exponent hd with hd | ⟨-, hd⟩
    · exact hd.1
    · exact hends.digit d hd
  have hpoint : n.fraction = none → ∀ d ∈ (exponentChars n.exponent ++ rest).head?, d ≠ '.' := by
    intro hnone d hd
    rcases head?_exponentChars h.exponent hd with hd | ⟨hexponent, hd⟩
    · exact hd.2
    · exact hends.point hnone hexponent d hd
  have hbehind : ∀ d ∈ (fractionChars n.fraction ++ (exponentChars n.exponent ++ rest)).head?,
      d.isDigit = false := by
    cases n.fraction with
    | some ds =>
        rintro d ⟨⟩
        decide
    | none => exact htail
  have hsome : (n.whole.isEmpty && (n.fraction.getD []).isEmpty) = false := by
    rw [Bool.and_eq_false_iff, List.isEmpty_eq_false_iff, List.isEmpty_eq_false_iff]
    exact h.nonempty
  unfold scan?
  rw [h.scanSign_append]
  dsimp only
  rw [scanDigits_append h.whole hbehind]
  dsimp only
  rw [scanFraction_append h.fraction htail hpoint]
  dsimp only
  rw [hsome, scanExponent_append h.exponent hends.digit hends.exponent]
  rfl

theorem WellFormed.scan?_chars (h : n.WellFormed) : scan? n.chars = some (n, []) := by
  have hread := h.scan?_append (ends_nil n)
  rwa [List.append_nil] at hread

/-- What starts with a digit or the point is none of the words for special numbers. -/
theorem WellFormed.lower_body_ne (h : n.WellFormed) {s : String}
    (hs : (s.toList.head?.any fun c => !c.isDigit && c != '.') = true) : lower (String.ofList
      (n.whole ++ (fractionChars n.fraction ++ exponentChars n.exponent))) ≠ s := by
  obtain ⟨c, more, hbody, hc⟩ := h.body_head
  rintro rfl
  rw [hbody, lower, String.toList_ofList, String.toList_ofList] at hs
  have hstart : (!c.toLower.isDigit && c.toLower != '.') = true := hs
  rcases hc with hc | rfl
  · rw [toLower_of_isDigit hc, hc] at hstart
    cases hstart
  · cases hstart

/-- **A numeral is read as its float.** -/
theorem WellFormed.readFloat?_chars (h : n.WellFormed) : readFloat? n.chars = some n.toFloat := by
  have hinf := h.lower_body_ne (s := "inf") rfl
  have hinfinity := h.lower_body_ne (s := "infinity") rfl
  have hnan := h.lower_body_ne (s := "nan") rfl
  have hsign := h.scanSign_append []
  simp only [List.append_nil] at hsign
  unfold readFloat?
  rw [hsign]
  dsimp only
  rw [if_neg (not_or.mpr ⟨hinf, hinfinity⟩), if_neg hnan, h.scan?_chars]

end WellFormed

/-! ## What is read -/

section Read

variable {n m : Numeral} {cs rest : List Char}

theorem signChars_scanSign (cs : List Char) :
    signChars (scanSign cs).1 ++ (scanSign cs).2 = cs ∧ ∀ c ∈ (scanSign cs).1, isSign c = true := by
  unfold scanSign
  split
  · split
    · next hsign => exact ⟨rfl, by rintro c ⟨⟩; exact hsign⟩
    · exact ⟨rfl, nofun⟩
  · exact ⟨rfl, nofun⟩

theorem scanDigits_spec (cs : List Char) : (scanDigits cs).1 ++ (scanDigits cs).2 = cs ∧
    ∀ c ∈ (scanDigits cs).1, c.isDigit = true :=
  ⟨List.takeWhile_append_dropWhile, List.all_eq_true.mp List.all_takeWhile⟩

theorem fractionChars_scanFraction (cs : List Char) :
    fractionChars (scanFraction cs).1 ++ (scanFraction cs).2 = cs ∧
      ∀ ds ∈ (scanFraction cs).1, ∀ c ∈ ds, c.isDigit = true := by
  unfold scanFraction
  split
  · next cs =>
      obtain ⟨happend, hdigits⟩ := scanDigits_spec cs
      refine ⟨congrArg ('.' :: ·) happend, ?_⟩
      rintro ds ⟨⟩
      exact hdigits
  · exact ⟨rfl, nofun⟩

theorem exponentChars_scanExponent (cs : List Char) :
    exponentChars (scanExponent cs).1 ++ (scanExponent cs).2 = cs ∧
      ∀ e ∈ (scanExponent cs).1, e.WellFormed := by
  unfold scanExponent
  split
  · next c cs =>
      dsimp only
      split
      · next hletter =>
          obtain ⟨hsign, hsigns⟩ := signChars_scanSign cs
          obtain ⟨happend, hdigits⟩ := scanDigits_spec (scanSign cs).2
          split
          · exact ⟨rfl, nofun⟩
          · next hempty =>
              refine ⟨?_, ?_⟩
              · rw [exponentChars, List.cons_append, List.cons_append, List.append_assoc, happend,
                  hsign]
              · rintro e ⟨⟩
                exact ⟨hletter, hsigns, by simpa using hempty, hdigits⟩
      · exact ⟨rfl, nofun⟩
  · exact ⟨rfl, nofun⟩

/-- **What is read is a numeral,** and what follows is left. -/
theorem wellFormed_of_scan? (h : scan? cs = some (n, rest)) :
    n.WellFormed ∧ n.chars ++ rest = cs := by
  obtain ⟨hsign, hsigns⟩ := signChars_scanSign cs
  obtain ⟨hwhole, hwholes⟩ := scanDigits_spec (scanSign cs).2
  obtain ⟨hfraction, hfractions⟩ := fractionChars_scanFraction (scanDigits (scanSign cs).2).2
  obtain ⟨hexponent, hexponents⟩ :=
    exponentChars_scanExponent (scanFraction (scanDigits (scanSign cs).2).2).2
  unfold scan? at h
  dsimp only at h
  split at h
  · cases h
  · next hempty =>
      cases h
      refine ⟨⟨hsigns, hwholes, hfractions, ?_, hexponents⟩, ?_⟩
      · simpa [Classical.or_iff_not_imp_left] using hempty
      · rw [chars_eq]
        simp only [List.append_assoc]
        rw [hexponent, hfraction, hwhole, hsign]

/-- A digit behind a numeral belongs to the last part that is there. -/
theorem WellFormed.exists_concat {c : Char} (h : n.WellFormed) (hc : c.isDigit = true) :
    ∃ m : Numeral, m.WellFormed ∧ m.chars = n.chars ++ [c] := by
  obtain ⟨sign, whole, fraction, exponent⟩ := n
  obtain ⟨hsign, hwhole, hfraction, hnonempty, hexponent⟩ := h
  cases exponent with
  | some e =>
      obtain ⟨hletter, hsign', hne, hdigits⟩ := hexponent e rfl
      refine ⟨⟨sign, whole, fraction, some ⟨e.letter, e.sign, e.digits ++ [c]⟩⟩,
        ⟨hsign, hwhole, hfraction, hnonempty, ?_⟩, by simp [chars, exponentChars]⟩
      rintro e' ⟨⟩
      exact ⟨hletter, hsign', by simp, by simpa [or_imp, forall_and, hc] using hdigits⟩
  | none =>
      cases fraction with
      | some ds =>
          refine ⟨⟨sign, whole, some (ds ++ [c]), none⟩,
            ⟨hsign, hwhole, ?_, .inr (by simp), nofun⟩,
            by simp [chars, fractionChars, exponentChars]⟩
          rintro ds' ⟨⟩
          simpa [or_imp, forall_and, hc] using hfraction
      | none =>
          refine ⟨⟨sign, whole ++ [c], none, none⟩,
            ⟨hsign, ?_, nofun, .inl (by simp), nofun⟩,
            by simp [chars, fractionChars, exponentChars]⟩
          simpa [or_imp, forall_and, hc] using hwhole

/-- A numeral that the text goes on with is the beginning of a longer one. -/
theorem WellFormed.exists_longer (h : n.WellFormed) (hends : ¬ n.Ends rest) :
    ∃ m : Numeral, ∃ more rest', m.WellFormed ∧ m.chars = n.chars ++ more ∧ more ≠ [] ∧
      rest = more ++ rest' := by
  by_cases hdigit : ∃ c rest', rest = c :: rest' ∧ c.isDigit = true
  · obtain ⟨c, rest', rfl, hc⟩ := hdigit
    obtain ⟨m, hm, hchars⟩ := h.exists_concat hc
    exact ⟨m, [c], rest', hm, hchars, by simp, rfl⟩
  have hdigit : ∀ c ∈ rest.head?, c.isDigit = false := by
    intro c hc
    obtain ⟨rest', rfl⟩ := List.head?_eq_some_iff.mp hc
    exact Bool.eq_false_iff.mpr fun hdig => hdigit ⟨c, rest', rfl, hdig⟩
  obtain ⟨sign, whole, fraction, exponent⟩ := n
  obtain ⟨hsign, hwhole, hfraction, hnonempty, hexponent⟩ := h
  by_cases hpoint : fraction = none ∧ exponent = none ∧ ∃ rest', rest = '.' :: rest'
  · -- A point may stand without digits behind the whole part, which has some.
    obtain ⟨rfl, rfl, rest', rfl⟩ := hpoint
    refine ⟨⟨sign, whole, some [], none⟩, ['.'], rest', ⟨hsign, hwhole, ?_, ?_, nofun⟩,
      by simp [chars, fractionChars, exponentChars], by simp, rfl⟩
    · rintro ds ⟨⟩
      simp
    · simpa using hnonempty
  · have hpoint : fraction = none → exponent = none → ∀ c ∈ rest.head?, c ≠ '.' := by
      rintro hf he c hc rfl
      exact hpoint ⟨hf, he, List.head?_eq_some_iff.mp hc⟩
    have hscan : exponent = none ∧ (scanExponent rest).1 ≠ none := by
      refine Classical.byContradiction fun hnot => hends ⟨hdigit, hpoint, fun hnone => ?_⟩
      exact Classical.byContradiction fun hne => hnot ⟨hnone, hne⟩
    obtain ⟨rfl, hne⟩ := hscan
    obtain ⟨happend, hwell⟩ := exponentChars_scanExponent rest
    obtain ⟨e, he⟩ := Option.ne_none_iff_exists'.mp hne
    rw [he] at happend hwell
    exact ⟨⟨sign, whole, fraction, some e⟩, exponentChars (some e), _,
      ⟨hsign, hwhole, hfraction, hnonempty, hwell⟩, by simp [chars, exponentChars],
      by simp [exponentChars], happend.symm⟩

/-- **The longest numeral at the start of a text is read.** -/
theorem WellFormed.exists_scan? (h : n.WellFormed) (rest : List Char) :
    ∃ m rest', scan? (n.chars ++ rest) = some (m, rest') ∧
      n.chars.length ≤ m.chars.length := by
  induction hlen : rest.length using Nat.strongRecOn generalizing n rest with
  | ind k ih =>
      by_cases hends : n.Ends rest
      · exact ⟨n, rest, h.scan?_append hends, Nat.le_refl _⟩
      · obtain ⟨longer, more, rest', hlonger, hchars, hne, rfl⟩ := h.exists_longer hends
        have hpos : 0 < more.length := List.length_pos_iff.mpr hne
        rw [List.length_append] at hlen
        obtain ⟨m, rest'', hscan, hle⟩ := ih rest'.length (by omega) hlonger rest' rfl
        rw [hchars, List.append_assoc] at hscan
        rw [hchars, List.length_append] at hle
        exact ⟨m, rest'', hscan, by omega⟩

end Read

end Numeral

end GuardedExpr
