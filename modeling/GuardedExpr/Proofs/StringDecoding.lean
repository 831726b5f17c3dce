/-
# Decoding of strings — what the tokens of a source mean

The scanner takes the character behind a backslash along, the decoding takes the longest
escape.  The two go different ways through a text, but they agree on where it ends: if
every backslash can be paired with the character behind it (`Paired`), then whatever the
decoding takes off the front leaves a text of the same kind, and a single backslash is
not of this kind.  The scanner sees to it that the texts of fragments and the texts
between quotes are paired.
-/
import GuardedExpr.Proofs.EscapeGrammar
import GuardedExpr.Proofs.UnreadableNumbers

namespace GuardedExpr

open Text Lexeme Literal

/-! ## Pairs -/

/-- Every backslash has a character behind it that it takes along. -/
inductive Paired : List Char → Prop
  | nil : Paired []
  | pair {c : Char} {cs : List Char} : Paired cs → Paired ('\\' :: c :: cs)
  | char {c : Char} {cs : List Char} : c ≠ '\\' → Paired cs → Paired (c :: cs)

namespace Paired

variable {c : Char} {cs ds : List Char}

theorem tail (h : Paired (c :: cs)) (hc : c ≠ '\\') : Paired cs := by
  cases h with
  | pair => exact absurd rfl hc
  | char _ hcs => exact hcs

theorem behind (h : Paired (ds ++ cs)) (hds : '\\' ∉ ds) : Paired cs := by
  induction ds with
  | nil => exact h
  | cons d ds ih =>
      have hd : d ≠ '\\' := fun heq => hds (by simp [heq])
      exact ih (h.tail hd) fun hmem => hds (List.mem_cons_of_mem d hmem)

theorem exists_pair (h : Paired ('\\' :: cs)) : ∃ c ds, cs = c :: ds ∧ Paired ds := by
  cases h with
  | pair hds => exact ⟨_, _, rfl, hds⟩
  | char hc _ => exact absurd rfl hc

theorem of_notMem (h : '\\' ∉ cs) : Paired cs := by
  induction cs with
  | nil => exact .nil
  | cons c cs ih =>
      have hc : c ≠ '\\' := fun heq => h (by simp [heq])
      exact .char hc (ih fun hmem => h (List.mem_cons_of_mem c hmem))

end Paired

theorem not_paired_backslash : ¬ Paired ['\\'] := by
  intro h
  obtain ⟨c, ds, hnil, -⟩ := h.exists_pair
  cases hnil

/-! ## Decodings of paired texts -/

namespace Literal

/-- Behind its first character, an escape has no backslash. -/
theorem EscapeText.exists_cons {text : List Char} {meant : Char} (h : EscapeText text meant) :
    ∃ c more, text = c :: more ∧ '\\' ∉ more := by
  have hdigits : ∀ {base : Nat} {ds : List Char}, AreDigits base ds → '\\' ∉ ds := by
    intro base ds hds hmem
    have hnone : isDigitIn base '\\' = false := rfl
    rw [hds _ hmem] at hnone
    cases hnone
  cases h with
  | plain => exact ⟨_, [], rfl, List.not_mem_nil⟩
  | octal hds hne =>
      obtain ⟨d, ds, rfl⟩ := List.exists_cons_of_ne_nil hne
      exact ⟨d, ds, rfl, fun hmem => hdigits hds (List.mem_cons_of_mem d hmem)⟩
  | hex hds => exact ⟨_, _, rfl, hdigits hds⟩
  | codepoint hds =>
      refine ⟨_, _, rfl, ?_⟩
      simpa using hdigits hds

theorem Item.MayStand.paired {i : Item} {rest : List Char} (h : i.MayStand rest)
    (hpaired : Paired (i.text ++ rest)) : Paired rest := by
  cases h with
  | char hc => exact hpaired.tail hc
  | @escape text _ _ htext _ =>
      obtain ⟨c, more, rfl, hmore⟩ := htext.exists_cons
      obtain ⟨d, ds, hcons, hds⟩ := Paired.exists_pair hpaired
      obtain ⟨rfl, rfl⟩ := List.cons.inj hcons
      exact hds.behind hmore
  | backslash hnone _ =>
      -- The next character is no backslash: two of them are an escape.
      obtain ⟨c, ds, rfl, hds⟩ := Paired.exists_pair hpaired
      refine .char ?_ hds
      rintro rfl
      exact hnone ['\\'] '\\' (.plain (by decide)) ⟨ds, rfl⟩

theorem Decodes.paired {items : List Item} {cs rest : List Char} (h : Decodes items cs rest)
    (hpaired : Paired cs) : Paired rest := by
  induction h with
  | done => exact hpaired
  | item hi _ ih => exact ih (hi.paired hpaired)

end Literal

/-! ## Paired tokens -/

/-- A run takes each backslash with the character behind it. -/
theorem Scanner.IsRun.paired {run : List Char} (h : IsRun run) : Paired run := by
  obtain ⟨cs, hmore, rfl⟩ := h
  fun_induction literalRun cs with
  | case1 => exact .nil
  | case2 c cs ih => exact .pair (ih hmore)
  | case3 => exact .nil
  | case4 c cs hescape _ ih =>
      rw [List.length_cons, List.drop_succ_cons] at hmore
      refine .char ?_ (ih hmore)
      rintro rfl
      cases cs with
      | nil => exact hmore rfl
      | cons c cs => exact hescape c cs rfl rfl

theorem Lexeme.singleQuoted?_paired {cs text : List Char} (h : singleQuoted? cs = some text) :
    ∃ body, text = body ++ ['\''] ∧ Paired body := by
  fun_induction singleQuoted? cs generalizing text with
  | case1 => cases h
  | case2 =>
      cases h
      exact ⟨[], rfl, .nil⟩
  | case3 c cs ih =>
      obtain ⟨more, hmore, rfl⟩ := Option.map_eq_some_iff.mp h
      obtain ⟨body, rfl, hbody⟩ := ih hmore
      exact ⟨_, rfl, .pair hbody⟩
  | case4 c cs _ hescape ih =>
      obtain ⟨more, hmore, rfl⟩ := Option.map_eq_some_iff.mp h
      obtain ⟨body, rfl, hbody⟩ := ih hmore
      refine ⟨c :: body, rfl, .char ?_ hbody⟩
      rintro rfl
      cases cs with
      | nil => cases hmore
      | cons c cs => exact hescape c cs rfl rfl

/-! ## Tokens -/

/-- What a string token has between its quotes, and the text of a fragment. -/
inductive Token.Encloses (t : Token) : List Char → Prop
  | quoted {q : Char} {body : List Char} : t.kind = .string →
      t.text.toList = q :: (body ++ [q]) → Encloses t body
  | fragment : t.kind = .fragment → Encloses t t.text.toList

section Tokens

variable {t : Token}

theorem Lexeme.ReadAs.exists_paired {cs text : List Char} (h : ReadAs cs (.lexeme .string text)) :
    ∃ body, text = '\'' :: (body ++ ['\'']) ∧ Paired body := by
  obtain ⟨cs, more, rfl, hmore⟩ := h.exists_singleQuoted?
  obtain ⟨body, rfl, hbody⟩ := singleQuoted?_paired hmore
  exact ⟨body, rfl, hbody⟩

theorem Token.InCode.exists_paired (h : t.InCode) (hk : t.kind = .string) :
    ∃ body, t.Encloses body ∧ Paired body := by
  rcases h.operand_or_string (by rw [hk]; rfl) with hoperand | ⟨-, run, hrun, htext⟩
  · have hread := hoperand.readAs
    rw [hk] at hread
    obtain ⟨body, htext, hbody⟩ := hread.exists_paired
    exact ⟨body, .quoted hk htext, hbody⟩
  · exact ⟨run, .quoted hk htext, hrun.paired⟩

theorem Token.IsName.paired (h : t.IsName) : Paired t.text.toList := by
  refine .of_notMem fun hmem => ?_
  have hname := h.2 _ hmem
  exact absurd hname (by decide)

/-- No token of code is a fragment. -/
theorem Token.InCode.ne_fragment (h : t.InCode) : t.kind ≠ .fragment := by
  intro hk
  have hmem := h.mem_operators (by rw [hk]; rfl) (by rw [hk]; decide)
  have hnone : ∀ o ∈ operators, o.2 ≠ TokenKind.fragment := by decide
  exact hnone _ hmem hk

/-- A fragment behind an embedded variable is a name. -/
theorem Embedded.isName {us : List Token} (h : Embedded us) (ht : t ∈ us)
    (hk : t.kind = .fragment) : t.IsName := by
  have hne : ∀ {k : TokenKind}, t.kind = k → k = .fragment := fun h => h.symm.trans hk
  cases h with
  | alone hv =>
      obtain rfl := List.mem_singleton.mp ht
      cases hne hv.1
  | offset hv hbracket _ ho hclose =>
      simp only [List.mem_cons, List.not_mem_nil, or_false] at ht
      rcases ht with rfl | rfl | rfl | rfl
      · cases hne hv.1
      · cases hne hbracket
      · cases ho with
        | digits h => cases hne h.1
        | sigil h => cases hne h.1
        | word _ hname => exact hname
      · cases hne hclose
  | negative hv hbracket _ hminus _ hds hclose =>
      simp only [List.mem_cons, List.not_mem_nil, or_false] at ht
      rcases ht with rfl | rfl | rfl | rfl | rfl
      · cases hne hv.1
      · cases hne hbracket
      · cases hne hminus
      · cases hne hds.1
      · cases hne hclose
  | property hv harrow _ hname _ =>
      simp only [List.mem_cons, List.not_mem_nil, or_false] at ht
      rcases ht with rfl | rfl | rfl
      · cases hne hv.1
      · cases hne harrow
      · cases hne hname

/-- A fragment is a run of text, or a name between the brackets behind an embedded variable. -/
theorem Lexed.isRun_or_isName {fs : List Frame} {ts : List Token} (h : Lexed fs ts) (ht : t ∈ ts)
    (hk : t.kind = .fragment) : t.IsRun ∨ t.IsName := by
  have hne : ∀ {k : TokenKind}, t.kind = k → k = .fragment := fun h => h.symm.trans hk
  induction h with
  | eof _ heof =>
      obtain rfl := List.mem_singleton.mp ht
      cases hne heof
  | code _ hcode _ ih =>
      rcases List.mem_cons.mp ht with rfl | ht
      · exact absurd hk hcode.ne_fragment
      · exact ih ht
  | brace _ hbrace _ ih =>
      rcases List.mem_cons.mp ht with rfl | ht
      · rw [hk] at hbrace
        exact absurd hbrace (by decide)
      · exact ih ht
  | opening _ hquote _ _ ih | closing hquote _ ih =>
      rcases List.mem_cons.mp ht with rfl | ht
      · cases hne hquote.1
      · exact ih ht
  | run hrun _ _ ih =>
      rcases List.mem_cons.mp ht with rfl | ht
      · exact .inl hrun
      · exact ih ht
  | hole hbrace _ _ ih =>
      rcases List.mem_cons.mp ht with rfl | ht
      · cases hne hbrace
      · exact ih ht
  | @embedded fs v us ts hvar _ ih =>
      rw [← List.cons_append] at ht
      rcases List.mem_append.mp ht with ht | ht
      · exact .inr (hvar.isName ht hk)
      · exact ih ht

/-- **What a token encloses is paired.** -/
theorem Lexed.exists_paired {fs : List Frame} {ts : List Token} (h : Lexed fs ts) (ht : t ∈ ts)
    (hk : t.kind = .string ∨ t.kind = .fragment) : ∃ body, t.Encloses body ∧ Paired body := by
  rcases hk with hk | hk
  · have hmem : t.kind ∈ [TokenKind.integer, .float, .string] := by simp [hk]
    rcases h.inCode_or_embedded ht hmem with hcode | ⟨-, us, -, -, hus, hin⟩
    · exact hcode.exists_paired hk
    · have hdigits := (hus.isDigits hin hmem).1
      rw [hk] at hdigits
      cases hdigits
  · refine ⟨_, .fragment hk, ?_⟩
    rcases h.isRun_or_isName ht hk with hrun | hname
    · exact hrun.2.2.paired
    · exact hname.paired

end Tokens

/-! ## The decoding of a string -/

/-- **Text between double quotes is decoded by its escapes.**  A text means what its items mean,
taken from left to right with the longest escape each time; it has a fault exactly where such a
decoding comes to a code point that cannot be read, and the fault is placed at the backslash.
What is meant is never longer than the text.  In what the tokens of a source enclose, no
decoding comes to a backslash with nothing behind it. -/
theorem double_quoted_text_is_decoded_by_longest_escapes (s : String) :
    (∀ t, unescapeDouble s = .ok t ↔
      ∃ items, Decodes items s.toList [] ∧ t.toList = items.map Item.meant) ∧
    (∀ e, unescapeDouble s = .error e ↔
      ∃ items rest, Decodes items s.toList rest ∧ Breaks rest e.fault ∧
        e.offset = byteLength (items.flatMap Item.text)) ∧
    (∀ t, unescapeDouble s = .ok t → t.utf8ByteSize ≤ s.utf8ByteSize) ∧
    ∀ source ts t, tokenize source = .ok ts → t ∈ ts → t.kind = .string ∨ t.kind = .fragment →
      ∃ body, t.Encloses body ∧ ∀ items, ¬ Decodes items body ['\\'] := by
  refine ⟨fun t => unescapeDouble_eq_ok_iff, fun e => unescapeDouble_eq_error_iff, ?_, ?_⟩
  · intro t ht
    obtain ⟨items, hdecodes, hmeant⟩ := unescapeDouble_eq_ok_iff.mp ht
    have hle := hdecodes.byteLength_le
    rwa [← hmeant, byteLength_toList, byteLength_toList, byteLength_nil, Nat.add_zero] at hle
  · intro source ts t hsource ht hk
    obtain ⟨body, hbody, hpaired⟩ := (lexed_of_tokenize hsource).exists_paired ht hk
    exact ⟨body, hbody, fun items hdecodes => not_paired_backslash (hdecodes.paired hpaired)⟩

/-- The fault is placed in bytes; the backslash before it, which starts no escape, is kept. -/
example : unescapeDouble "é\\q\\u\x7b\x7d" = .error ⟨.malformedUnicode "", 4⟩ := rfl

end GuardedExpr
