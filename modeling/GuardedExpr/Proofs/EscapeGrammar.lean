/-
# Escapes between double quotes — the grammar, and its reader

The text between double quotes is a sequence of items, taken from left to right:

    item   ::=  character            (no backslash)
             |  '\' escape           (the longest escape that there is)
             |  '\'                  (where there is no escape; it means itself)
    escape ::=  one letter or sign of the table `plainEscapes`
             |  1 to 3 octal digits
             |  'x' with 1 or 2 hexadecimal digits
             |  'u{' with hexadecimal digits and '}'

`EscapeText`, `Item.MayStand` and `Decodes` are this grammar; nothing in them refers to
the reader.  A decoding comes to an end before the end of the text only at `\u{`, where
the digits or the brace are missing or the digits name no character (`Breaks`).

The reader agrees with the grammar because each of the three things that a backslash can
be determines what `readEscape` answers, and one of the three is always the case.
-/
import GuardedExpr.Proofs.Placement
import GuardedExpr.Text.Escape
import Mathlib.Data.List.TakeWhile
import Mathlib.Order.WellFounded

namespace GuardedExpr.Literal

open Text

/-! ## The grammar -/

/-- The escapes of one letter or sign, and the characters they mean. -/
def plainEscapes : List (Char × Char) :=
  [('n', '\n'), ('r', '\r'), ('t', '\t'), ('v', '\x0b'), ('e', '\x1b'), ('f', '\x0c'),
   ('\\', '\\'), ('$', '$'), ('"', '"')]

def AreDigits (base : Nat) (ds : List Char) : Prop := ∀ d ∈ ds, isDigitIn base d = true

/-- What may stand behind the backslash of an escape, and the character meant.  Of a number that is
written in octal or hexadecimal digits only the lowest byte counts. -/
inductive EscapeText : List Char → Char → Prop
  | plain {c meant : Char} : (c, meant) ∈ plainEscapes → EscapeText [c] meant
  | octal {ds : List Char} : AreDigits 8 ds → ds ≠ [] → ds.length ≤ 3 →
      EscapeText ds (Char.ofNat (numberIn 8 ds % 256))
  | hex {ds : List Char} : AreDigits 16 ds → ds ≠ [] → ds.length ≤ 2 →
      EscapeText ('x' :: ds) (Char.ofNat (numberIn 16 ds % 256))
  | codepoint {ds : List Char} : AreDigits 16 ds → ds ≠ [] → (numberIn 16 ds).isValidChar →
      EscapeText ('u' :: '\x7b' :: (ds ++ ['\x7d'])) (Char.ofNat (numberIn 16 ds))

/-- What a decoding takes at a time. -/
inductive Item where
  | char (c : Char)
  | escape (text : List Char) (meant : Char)
  /-- A backslash that stands for itself. -/
  | backslash

namespace Item

def text : Item → List Char
  | char c => [c]
  | escape text _ => '\\' :: text
  | backslash => ['\\']

def meant : Item → Char
  | char c => c
  | escape _ meant => meant
  | backslash => '\\'

/-- The item may be taken in front of the rest: escapes go first, and the longest of them. -/
inductive MayStand : Item → List Char → Prop
  | char {c : Char} {rest : List Char} : c ≠ '\\' → MayStand (char c) rest
  | escape {text rest : List Char} {meant : Char} : EscapeText text meant →
      (∀ text' meant', EscapeText text' meant' → text' <+: text ++ rest →
        text'.length ≤ text.length) →
      MayStand (escape text meant) rest
  | backslash {rest : List Char} : (∀ text meant, EscapeText text meant → ¬ text <+: rest) →
      ¬ ['u', '\x7b'] <+: rest → MayStand backslash rest

end Item

/-- `Decodes items cs rest`: from left to right, the items are the text `cs` up to `rest`. -/
inductive Decodes : List Item → List Char → List Char → Prop
  | done {rest : List Char} : Decodes [] rest rest
  | item {i : Item} {items : List Item} {cs rest : List Char} : i.MayStand cs →
      Decodes items cs rest → Decodes (i :: items) (i.text ++ cs) rest

/-- A backslash at which the decoding breaks off. -/
inductive Breaks : List Char → EscapeFault → Prop
  | malformed {ds rest : List Char} : AreDigits 16 ds →
      (∀ c ∈ rest.head?, isDigitIn 16 c = false) → (ds = [] ∨ rest.head? ≠ some '\x7d') →
      Breaks ('\\' :: 'u' :: '\x7b' :: (ds ++ rest)) (.malformedUnicode (String.ofList ds))
  | invalid {ds rest : List Char} : AreDigits 16 ds → ds ≠ [] →
      ¬ (numberIn 16 ds).isValidChar →
      Breaks ('\\' :: 'u' :: '\x7b' :: (ds ++ '\x7d' :: rest))
        (.invalidCodepoint (String.ofList ds))

/-! ## Digits -/

section Digits

variable {base most : Nat} {ds rest : List Char}

theorem AreDigits.concat {c : Char} (hds : AreDigits base ds) (hc : isDigitIn base c = true) :
    AreDigits base (ds ++ [c]) := by
  intro d hd
  rcases List.mem_append.mp hd with hd | hd
  · exact hds d hd
  · rwa [List.mem_singleton.mp hd]

/-- Digits are taken up to a character that is none. -/
theorem takeWhile_digits (hds : AreDigits base ds)
    (hend : ∀ c ∈ rest.head?, isDigitIn base c = false) :
    (ds ++ rest).takeWhile (isDigitIn base) = ds := by
  rw [List.takeWhile_append_of_pos hds]
  cases rest with
  | nil => simp
  | cons c rest => simp [hend c rfl]

theorem readByte_digits (hds : AreDigits base ds) (hne : ds ≠ []) (hlen : ds.length ≤ most)
    (hend : ds.length < most → ∀ c ∈ rest.head?, isDigitIn base c = false) :
    readByte base most (ds ++ rest)
      = some (Char.ofNat (numberIn base ds % 256), ds.length) := by
  have htaken : ((ds ++ rest).take most).takeWhile (isDigitIn base) = ds := by
    rw [List.take_append, List.take_of_length_le hlen]
    refine takeWhile_digits hds fun c hc => ?_
    rw [List.head?_take] at hc
    split at hc
    · cases hc
    · exact hend (by omega) c hc
  unfold readByte
  dsimp only
  rw [htaken, if_neg (by simpa using hne)]
  rfl

theorem readByte_eq_none (hnone : ∀ c ∈ rest.head?, isDigitIn base c = false) :
    readByte base most rest = none := by
  have htaken : (rest.take most).takeWhile (isDigitIn base) = [] := by
    have hnil : AreDigits base [] := by simp [AreDigits]
    refine takeWhile_digits hnil fun c hc => ?_
    rw [List.head?_take] at hc
    split at hc
    · cases hc
    · exact hnone c hc
  unfold readByte
  dsimp only
  rw [htaken]
  rfl

/-- A closing brace is no digit. -/
theorem brace_ends (rest : List Char) :
    ∀ c ∈ ('\x7d' :: rest).head?, isDigitIn 16 c = false := by
  rintro c ⟨⟩
  decide

end Digits

/-! ## The reader -/

section Reader

variable {text rest : List Char} {c meant : Char}

theorem plainEscape_of_mem (h : (c, meant) ∈ plainEscapes) :
    plainEscape c = some meant ∧ c ≠ 'x' ∧ c ≠ 'u' := by
  have htable : ∀ p ∈ plainEscapes, plainEscape p.1 = some p.2 ∧ p.1 ≠ 'x' ∧ p.1 ≠ 'u' := by
    decide
  exact htable _ h

theorem mem_of_plainEscape (h : plainEscape c = some meant) : (c, meant) ∈ plainEscapes := by
  unfold plainEscape at h
  split at h <;> cases h <;> decide

/-- No octal digit starts another escape. -/
theorem plainEscape_of_octal (h : isDigitIn 8 c = true) :
    plainEscape c = none ∧ c ≠ 'x' ∧ c ≠ 'u' := by
  refine ⟨?_, ?_, ?_⟩
  · cases hplain : plainEscape c with
    | none => rfl
    | some meant =>
        have hnone : ∀ p ∈ plainEscapes, isDigitIn 8 p.1 = false := by decide
        rw [hnone _ (mem_of_plainEscape hplain)] at h
        cases h
  · rintro rfl
    exact absurd h (by decide)
  · rintro rfl
    exact absurd h (by decide)

/-- Behind anything else than `x` and `u{`, an escape is plain or octal. -/
theorem readEscape_cons (hx : c ≠ 'x') (hu : ¬ ['u', '\x7b'] <+: c :: rest) :
    readEscape (c :: rest) =
      match plainEscape c with
      | some meant => .ok (some (meant, 1))
      | none => .ok (readByte 8 3 (c :: rest)) := by
  unfold readEscape
  split
  · next hnil => cases hnil
  · next hcons => exact absurd (List.cons.inj hcons).1 hx
  · next more hcons =>
      rw [hcons] at hu
      exact absurd ⟨more, rfl⟩ hu
  · next hcons =>
      cases hcons
      rfl

theorem readCodepoint_digits {ds : List Char} (hds : AreDigits 16 ds)
    (hend : ∀ c ∈ rest.head?, isDigitIn 16 c = false) :
    readCodepoint (ds ++ rest) =
      if ds = [] ∨ rest.head? ≠ some '\x7d' then .error (.malformedUnicode (String.ofList ds))
      else if (numberIn 16 ds).isValidChar then
        .ok (Char.ofNat (numberIn 16 ds), ds.length + 1)
      else .error (.invalidCodepoint (String.ofList ds)) := by
  unfold readCodepoint
  dsimp only
  rw [takeWhile_digits hds hend, List.drop_left]
  simp

theorem notPrefix_of_ne (hc : c ≠ 'u') : ¬ ['u', '\x7b'] <+: c :: rest := by
  rintro ⟨more, hmore⟩
  exact hc (List.cons.inj hmore).1.symm

/-- No escape is longer by the character that follows. -/
theorem Item.MayStand.not_longer (h : (Item.escape text meant).MayStand rest)
    (hc : c ∈ rest.head?) (m : Char) : ¬ EscapeText (text ++ [c]) m := by
  intro hm
  obtain ⟨more, rfl⟩ := List.head?_eq_some_iff.mp hc
  cases h with
  | escape _ hlongest =>
      have hlen := hlongest _ m hm ⟨more, by simp⟩
      rw [List.length_append, List.length_singleton] at hlen
      omega

/-- The reader takes the longest escape. -/
theorem readEscape_escape (h : (Item.escape text meant).MayStand rest) :
    readEscape (text ++ rest) = .ok (some (meant, text.length)) := by
  have hnext : ∀ c ∈ rest.head?, ∀ m, ¬ EscapeText (text ++ [c]) m :=
    fun c hc => h.not_longer hc
  have htext : EscapeText text meant := by
    cases h with
    | escape htext _ => exact htext
  cases htext with
  | plain hmem =>
      obtain ⟨hplain, hx, hu⟩ := plainEscape_of_mem hmem
      rw [List.singleton_append, readEscape_cons hx (notPrefix_of_ne hu), hplain]
      rfl
  | octal hds hne hlen =>
      have hends : text.length < 3 → ∀ c ∈ rest.head?, isDigitIn 8 c = false := by
        intro hshort c hc
        by_contra hdigit
        have hlonger : (text ++ [c]).length ≤ 3 := by
          rw [List.length_append]
          exact hshort
        exact hnext c hc _ (.octal (hds.concat (by simpa using hdigit)) (by simp) hlonger)
      have hbyte : readByte 8 3 (text ++ rest) = _ := readByte_digits hds hne hlen hends
      obtain ⟨d, ds, rfl⟩ := List.exists_cons_of_ne_nil hne
      obtain ⟨hplain, hx, hu⟩ := plainEscape_of_octal (hds d List.mem_cons_self)
      rw [List.cons_append, readEscape_cons hx (notPrefix_of_ne hu), hplain]
      exact congrArg Except.ok hbyte
  | @hex ds hds hne hlen =>
      have hends : ds.length < 2 → ∀ c ∈ rest.head?, isDigitIn 16 c = false := by
        intro hshort c hc
        by_contra hdigit
        have hlonger : (ds ++ [c]).length ≤ 2 := by
          rw [List.length_append]
          exact hshort
        exact hnext c hc _ (.hex (hds.concat (by simpa using hdigit)) (by simp) hlonger)
      have hbyte : readByte 16 2 (ds ++ rest) = _ := readByte_digits hds hne hlen hends
      show Except.ok ((readByte 16 2 (ds ++ rest)).map _) = _
      rw [hbyte]
      rfl
  | @codepoint ds hds hne hvalid =>
      have hread : readCodepoint (ds ++ '\x7d' :: rest) = _ :=
        readCodepoint_digits hds (brace_ends rest)
      rw [if_neg (by simp [hne]), if_pos hvalid] at hread
      show (readCodepoint (ds ++ ['\x7d'] ++ rest)).map _ = _
      rw [List.append_assoc, List.singleton_append, hread]
      simp [Except.map]

/-- Where no escape starts, the reader takes none. -/
theorem readEscape_backslash (h : Item.backslash.MayStand rest) : readEscape rest = .ok none := by
  obtain ⟨hnone, hu⟩ : (∀ text meant, EscapeText text meant → ¬ text <+: rest) ∧
      ¬ ['u', '\x7b'] <+: rest := by
    cases h with
    | backslash hnone hu => exact ⟨hnone, hu⟩
  cases rest with
  | nil => rfl
  | cons c rest =>
      by_cases hx : c = 'x'
      · subst hx
        have hbyte : readByte 16 2 rest = none := readByte_eq_none fun d hd => by
          obtain ⟨more, rfl⟩ := List.head?_eq_some_iff.mp hd
          by_contra hdigit
          have hdigits : AreDigits 16 [d] := by simpa [AreDigits] using hdigit
          exact hnone _ _ (.hex hdigits (by simp) (by simp)) ⟨more, rfl⟩
        show Except.ok ((readByte 16 2 rest).map _) = _
        rw [hbyte]
        rfl
      · have hplain : plainEscape c = none := by
          cases hplain : plainEscape c with
          | none => rfl
          | some meant => exact absurd ⟨rest, rfl⟩ (hnone _ _ (.plain (mem_of_plainEscape hplain)))
        have hbyte : readByte 8 3 (c :: rest) = none := readByte_eq_none fun d hd => by
          cases hd
          by_contra hdigit
          have hdigits : AreDigits 8 [c] := by simpa [AreDigits] using hdigit
          exact hnone _ _ (.octal hdigits (by simp) (by simp)) ⟨rest, rfl⟩
        rw [readEscape_cons hx hu, hplain]
        exact congrArg Except.ok hbyte

/-- Where the decoding breaks off, the reader says why. -/
theorem readEscape_breaks {fault : EscapeFault} (h : Breaks ('\\' :: rest) fault) :
    readEscape rest = .error fault := by
  cases h with
  | @malformed ds rest hds hend hwhy =>
      show (readCodepoint (ds ++ rest)).map _ = _
      rw [readCodepoint_digits hds hend, if_pos hwhy]
      rfl
  | @invalid ds rest hds hne hinvalid =>
      show (readCodepoint (ds ++ '\x7d' :: rest)).map _ = _
      rw [readCodepoint_digits hds (brace_ends rest), if_neg (by simp [hne]), if_neg hinvalid]
      rfl

end Reader

/-! ## Decodings -/

section Cases

theorem exists_longest {p : List Char → Prop} {cs : List Char} (h : ∃ text, p text ∧ text <+: cs) :
    ∃ text, (p text ∧ text <+: cs) ∧
      ∀ text', p text' → text' <+: cs → text'.length ≤ text.length := by
  obtain ⟨text, htext, hmin⟩ := WellFounded.has_min
    (measure fun text : List Char => cs.length - text.length).wf {text | p text ∧ text <+: cs} h
  refine ⟨text, htext, ?_⟩
  intro text' hp hstarts
  have hless : ¬ cs.length - text'.length < cs.length - text.length := hmin text' ⟨hp, hstarts⟩
  have hlen := hstarts.length_le
  have hlen' := htext.2.length_le
  omega

/-- A code point is the longest escape where it stands. -/
theorem codepoint_longest {ds rest : List Char} (hds : AreDigits 16 ds) (text' : List Char)
    (meant' : Char) (h : EscapeText text' meant')
    (hstarts : text' <+: 'u' :: '\x7b' :: (ds ++ ['\x7d']) ++ rest) :
    text'.length ≤ ('u' :: '\x7b' :: (ds ++ ['\x7d'])).length := by
  cases h with
  | plain => simp
  | octal _ _ hlen =>
      simp only [List.length_cons, List.length_append]
      omega
  | hex _ _ hlen =>
      simp only [List.length_cons, List.length_append]
      omega
  | @codepoint ds' hds' =>
      obtain ⟨more, hmore⟩ := hstarts
      have hsame : ds' ++ '\x7d' :: more = ds ++ '\x7d' :: rest := by simpa using hmore
      have htaken := takeWhile_digits hds' (brace_ends more)
      rw [hsame, takeWhile_digits hds (brace_ends rest)] at htaken
      rw [htaken]

/-- A backslash starts an escape, or stands for itself, or breaks the decoding off. -/
theorem backslash_cases (rest : List Char) :
    (∃ text meant after, rest = text ++ after ∧ (Item.escape text meant).MayStand after) ∨
      Item.backslash.MayStand rest ∨ ∃ fault, Breaks ('\\' :: rest) fault := by
  by_cases hu : ['u', '\x7b'] <+: rest
  · obtain ⟨more, rfl⟩ := hu
    obtain ⟨ds, after, rfl, hds, hend⟩ : ∃ ds after, more = ds ++ after ∧ AreDigits 16 ds ∧
        ∀ c ∈ after.head?, isDigitIn 16 c = false := by
      refine ⟨_, _, (List.takeWhile_append_dropWhile (p := isDigitIn 16)).symm, ?_, ?_⟩
      · intro d hd
        exact List.mem_takeWhile_imp hd
      · intro c hc
        have hnot := List.head?_dropWhile_not (isDigitIn 16) more
        rw [Option.mem_def.mp hc] at hnot
        simpa using hnot
    by_cases hwhy : ds = [] ∨ after.head? ≠ some '\x7d'
    · have hbreaks := Breaks.malformed hds hend hwhy
      exact .inr (.inr ⟨_, hbreaks⟩)
    · rw [not_or, not_not] at hwhy
      obtain ⟨after, rfl⟩ := List.head?_eq_some_iff.mp hwhy.2
      by_cases hvalid : (numberIn 16 ds).isValidChar
      · exact .inl ⟨_, _, after, by simp, .escape (.codepoint hds hwhy.1 hvalid)
          (codepoint_longest hds)⟩
      · exact .inr (.inr ⟨_, .invalid hds hwhy.1 hvalid⟩)
  · by_cases h : ∃ text, (∃ meant, EscapeText text meant) ∧ text <+: rest
    · obtain ⟨text, ⟨⟨meant, htext⟩, after, rfl⟩, hlongest⟩ := exists_longest h
      exact .inl ⟨text, meant, after, rfl, .escape htext fun text' meant' h' =>
        hlongest text' ⟨meant', h'⟩⟩
    · have hnone : ∀ text meant, EscapeText text meant → ¬ text <+: rest :=
        fun text meant htext hstarts => h ⟨text, ⟨meant, htext⟩, hstarts⟩
      exact .inr (.inl (.backslash hnone hu))

/-- Every text can be decoded to its end, or to where it breaks off. -/
theorem exists_decodes (cs : List Char) :
    ∃ items rest, Decodes items cs rest ∧ (rest = [] ∨ ∃ fault, Breaks rest fault) := by
  induction hn : cs.length using Nat.strongRecOn generalizing cs with
  | ind n ih =>
      subst hn
      have step : ∀ {i : Item} {after : List Char}, cs = i.text ++ after → i.MayStand after →
          0 < i.text.length → ∃ items rest, Decodes items cs rest ∧
            (rest = [] ∨ ∃ fault, Breaks rest fault) := by
        intro i after hcs hi hpos
        have hshort : after.length < cs.length := by
          rw [hcs, List.length_append]
          omega
        obtain ⟨items, rest, hdecodes, hend⟩ := ih after.length hshort after rfl
        exact ⟨i :: items, rest, hcs ▸ .item hi hdecodes, hend⟩
      cases cs with
      | nil => exact ⟨[], [], .done, .inl rfl⟩
      | cons c cs =>
          by_cases hc : c = '\\'
          · subst hc
            rcases backslash_cases cs with ⟨text, meant, after, rfl, hi⟩ | hi | hbreaks
            · exact step rfl hi (Nat.succ_pos _)
            · exact step rfl hi (Nat.succ_pos _)
            · exact ⟨[], _, .done, .inr hbreaks⟩
          · exact step rfl (.char hc) (Nat.succ_pos _)

end Cases

/-! ## The run -/

section Run

variable {i : Item} {items : List Item} {cs rest : List Char} {fault : EscapeFault}

/-- The characters of an escape are passed over. -/
theorem unquoteDouble_skip (offset : Nat) (text cs : List Char) :
    unquoteDouble offset text.length (text ++ cs)
      = unquoteDouble (offset + byteLength text) 0 cs := by
  induction text generalizing offset with
  | nil => rfl
  | cons c text ih =>
      show unquoteDouble (offset + c.utf8Size) text.length (text ++ cs) = _
      rw [ih, byteLength_cons, Nat.add_assoc]

theorem unquoteDouble_char {c : Char} (hc : c ≠ '\\') (offset : Nat) (cs : List Char) :
    unquoteDouble offset 0 (c :: cs)
      = (unquoteDouble (offset + c.utf8Size) 0 cs).map (c :: ·) := if_neg hc

theorem unquoteDouble_escape {meant : Char} {taken : Nat}
    (h : readEscape cs = .ok (some (meant, taken))) (offset : Nat) :
    unquoteDouble offset 0 ('\\' :: cs)
      = (unquoteDouble (offset + 1) taken cs).map (meant :: ·) := by
  show (if '\\' = '\\' then _ else _) = _
  rw [if_pos rfl, h]
  rfl

theorem unquoteDouble_backslash (h : readEscape cs = .ok none) (offset : Nat) :
    unquoteDouble offset 0 ('\\' :: cs)
      = (unquoteDouble (offset + 1) 0 cs).map ('\\' :: ·) := by
  show (if '\\' = '\\' then _ else _) = _
  rw [if_pos rfl, h]
  rfl

theorem unquoteDouble_fault (h : readEscape cs = .error fault) (offset : Nat) :
    unquoteDouble offset 0 ('\\' :: cs) = .error ⟨fault, offset⟩ := by
  show (if '\\' = '\\' then _ else _) = _
  rw [if_pos rfl, h]

/-- One item is read off the front. -/
theorem Item.MayStand.unquoteDouble_eq (h : i.MayStand cs) (offset : Nat) :
    unquoteDouble offset 0 (i.text ++ cs)
      = (unquoteDouble (offset + byteLength i.text) 0 cs).map (i.meant :: ·) := by
  cases i with
  | char c =>
      have hc : c ≠ '\\' := by
        cases h with
        | char hc => exact hc
      rw [Item.text, byteLength_cons, byteLength_nil, Nat.add_zero]
      exact unquoteDouble_char hc offset cs
  | escape text meant =>
      rw [Item.text, byteLength_cons, ← Nat.add_assoc, ← unquoteDouble_skip]
      exact unquoteDouble_escape (readEscape_escape h) offset
  | backslash => exact unquoteDouble_backslash (readEscape_backslash h) offset

/-- All items are read off the front, and the rest is read from there. -/
theorem Decodes.unquoteDouble_eq (h : Decodes items cs rest) (offset : Nat) :
    unquoteDouble offset 0 cs
      = (unquoteDouble (offset + byteLength (items.flatMap Item.text)) 0 rest).map
          (items.map Item.meant ++ ·) := by
  induction h generalizing offset with
  | done =>
      simp only [List.flatMap_nil, byteLength_nil, Nat.add_zero, List.map_nil, List.nil_append]
      cases unquoteDouble offset 0 _ <;> rfl
  | item hi _ ih =>
      rw [hi.unquoteDouble_eq, ih, List.flatMap_cons, byteLength_append, Nat.add_assoc]
      cases unquoteDouble _ 0 _ <;> rfl

theorem Breaks.unquoteDouble_eq (h : Breaks rest fault) (offset : Nat) :
    unquoteDouble offset 0 rest = .error ⟨fault, offset⟩ := by
  obtain ⟨cs, rfl⟩ : ∃ cs, rest = '\\' :: cs := by
    cases h <;> exact ⟨_, rfl⟩
  exact unquoteDouble_fault (readEscape_breaks h) offset

theorem unescapeDouble_of_decodes {s : String} (h : Decodes items s.toList []) :
    unescapeDouble s = .ok (String.ofList (items.map Item.meant)) := by
  have hnil : ∀ offset, unquoteDouble offset 0 [] = .ok [] := fun _ => rfl
  rw [unescapeDouble, h.unquoteDouble_eq, hnil]
  simp [Except.map]

theorem unescapeDouble_of_breaks {s : String} (h : Decodes items s.toList rest)
    (hbreaks : Breaks rest fault) :
    unescapeDouble s = .error ⟨fault, byteLength (items.flatMap Item.text)⟩ := by
  rw [unescapeDouble, h.unquoteDouble_eq, hbreaks.unquoteDouble_eq, Nat.zero_add]
  rfl

/-- The string meant is that of the decoding. -/
theorem unescapeDouble_eq_ok_iff {s t : String} :
    unescapeDouble s = .ok t ↔
      ∃ items, Decodes items s.toList [] ∧ t.toList = items.map Item.meant := by
  constructor
  · intro h
    obtain ⟨items, rest, hdecodes, rfl | ⟨fault, hbreaks⟩⟩ := exists_decodes s.toList
    · rw [unescapeDouble_of_decodes hdecodes] at h
      cases h
      exact ⟨items, hdecodes, String.toList_ofList⟩
    · rw [unescapeDouble_of_breaks hdecodes hbreaks] at h
      cases h
  · rintro ⟨items, hdecodes, ht⟩
    rw [unescapeDouble_of_decodes hdecodes, ← ht, String.ofList_toList]

/-- The fault is where the decoding breaks off. -/
theorem unescapeDouble_eq_error_iff {s : String} {e : EscapeError} :
    unescapeDouble s = .error e ↔
      ∃ items rest, Decodes items s.toList rest ∧ Breaks rest e.fault ∧
        e.offset = byteLength (items.flatMap Item.text) := by
  constructor
  · intro h
    obtain ⟨items, rest, hdecodes, rfl | ⟨fault, hbreaks⟩⟩ := exists_decodes s.toList
    · rw [unescapeDouble_of_decodes hdecodes] at h
      cases h
    · rw [unescapeDouble_of_breaks hdecodes hbreaks] at h
      cases h
      exact ⟨items, rest, hdecodes, hbreaks, rfl⟩
  · rintro ⟨items, rest, hdecodes, hbreaks, hoffset⟩
    rw [unescapeDouble_of_breaks hdecodes hbreaks, ← hoffset]

end Run

/-! ## Sizes -/

section Sizes

theorem utf8Size_byte (n : Nat) : (Char.ofNat (n % 256)).utf8Size ≤ 2 := by
  have hall : ∀ m < 256, (Char.ofNat m).utf8Size ≤ 2 := by decide +kernel
  exact hall _ (Nat.mod_lt _ (by decide))

theorem length_le_byteLength (cs : List Char) : cs.length ≤ byteLength cs := by
  induction cs with
  | nil => rfl
  | cons c cs ih =>
      have hpos := c.utf8Size_pos
      rw [List.length_cons, byteLength_cons]
      omega

/-- No escape is shorter than the character meant. -/
theorem EscapeText.utf8Size_le {text : List Char} {meant : Char} (h : EscapeText text meant) :
    meant.utf8Size ≤ text.length + 1 := by
  cases h with
  | plain hmem =>
      have hone : ∀ p ∈ plainEscapes, p.2.utf8Size = 1 := by decide
      rw [hone _ hmem]
      simp
  | octal _ hne =>
      have hpos := List.length_pos_iff.mpr hne
      have hbyte := utf8Size_byte (numberIn 8 text)
      omega
  | @hex ds =>
      have hbyte := utf8Size_byte (numberIn 16 ds)
      rw [List.length_cons]
      omega
  | @codepoint ds =>
      have hfour := (Char.ofNat (numberIn 16 ds)).utf8Size_le_four
      simp only [List.length_cons, List.length_append, List.length_nil]
      omega

theorem Item.MayStand.utf8Size_le {i : Item} {rest : List Char} (h : i.MayStand rest) :
    i.meant.utf8Size ≤ byteLength i.text := by
  cases h with
  | char => simp [Item.meant, Item.text]
  | @escape text _ _ htext _ =>
      exact htext.utf8Size_le.trans (length_le_byteLength ('\\' :: text))
  | backslash => decide

theorem Decodes.byteLength_le {items : List Item} {cs rest : List Char}
    (h : Decodes items cs rest) :
    byteLength (items.map Item.meant) + byteLength rest ≤ byteLength cs := by
  induction h with
  | done => simp
  | item hi _ ih =>
      have hitem := hi.utf8Size_le
      rw [List.map_cons, byteLength_cons, byteLength_append]
      omega

end Sizes

end GuardedExpr.Literal
