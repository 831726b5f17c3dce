/-
# Lines — tokens of one line and the next

Scanning a source with a line break and more text behind it starts like scanning
the source alone, because no reader looks across the break.  What happens at the
break is decided by how the source ends (`Continues`): where nothing is open, the
text behind the break is scanned as if it stood alone; where a string is open, the
break stands in that string; and any other fault of the source remains one.

Blanks in front of the break and behind it make one piece, so the two runs do not
have the same pieces.  They have the same tokens, which is why everything is stated
for tokens that are placed (`tokensFrom`).
-/
import GuardedExpr.Proofs.LineBreak
import GuardedExpr.Proofs.Placement

namespace GuardedExpr

open Text

/-- A text that goes on over the break takes more bytes than what stands in front of it. -/
theorem lt_byteLength_of_isPrefix {cs text : List Char} (h : cs ++ ['\n'] <+: text) :
    byteLength cs < byteLength text := by
  obtain ⟨more, rfl⟩ := h
  simp only [byteLength_append, byteLength_cons]
  have : 0 < '\n'.utf8Size := Char.utf8Size_pos _
  omega

/-! ## Placing pieces in two parts -/

namespace Piece

variable {ps qs : List Piece} {p : Position} {t : Token}

theorem place_ne_nil (p : Position) (ps : List Piece) : place p ps ≠ [] := by
  induction ps generalizing p with
  | nil => exact List.cons_ne_nil _ _
  | cons q ps ih =>
      cases q with
      | blank text => exact ih (p.after text)
      | lexeme kind text => exact List.cons_ne_nil _ _

theorem dropLast_place_lexeme (p : Position) (kind : TokenKind) (text : List Char)
    (ps : List Piece) : (place p (.lexeme kind text :: ps)).dropLast
      = ⟨kind, String.ofList text, .ofPosition p (byteLength text)⟩
        :: (place (p.after text) ps).dropLast :=
  List.dropLast_cons_of_ne_nil (place_ne_nil (p.after text) ps)

theorem place_append (p : Position) (ps qs : List Piece) :
    place p (ps ++ qs) = (place p ps).dropLast ++ place (p.after (texts ps)) qs := by
  induction ps generalizing p with
  | nil => rfl
  | cons q ps ih =>
      have htexts : p.after (texts (q :: ps)) = (p.after q.text).after (texts ps) :=
        Position.after_append p q.text (texts ps)
      rw [htexts]
      cases q with
      | blank text => exact ih (p.after text)
      | lexeme kind text =>
          rw [dropLast_place_lexeme, List.cons_append, List.cons_append]
          exact congrArg _ (ih (p.after text))

/-- The tokens have the frames that the pieces have. -/
theorem framesBehind_place {fs fs' : List Frame} (h : Quoted fs ps fs') (p : Position) :
    framesBehind fs (place p ps).dropLast = fs' := by
  induction h generalizing p with
  | nil => rfl
  | @cons _ _ q ps _ _ ih =>
      cases q with
      | blank text => exact ih (p.after text)
      | lexeme kind text =>
          rw [dropLast_place_lexeme]
          exact ih (p.after text)

theorem stop_le_of_mem_place (ht : t ∈ (place p ps).dropLast) :
    t.location.stop ≤ (p.after (texts ps)).offset := by
  induction ps generalizing p with
  | nil => cases ht
  | cons q ps ih =>
      have htexts : p.after (texts (q :: ps)) = (p.after q.text).after (texts ps) :=
        Position.after_append p q.text (texts ps)
      rw [htexts]
      cases q with
      | blank text => exact ih ht
      | lexeme kind text =>
          rw [dropLast_place_lexeme] at ht
          rcases List.mem_cons.mp ht with rfl | ht
          · rw [Position.offset_after, Position.offset_after]
            exact Nat.le_add_right _ _
          · exact ih ht

/-- Pieces that take something end behind the place where they start. -/
theorem lt_stop_of_mem_place {fs fs' : List Frame} (h : Quoted fs ps fs') (hne : ps ≠ [])
    (ht : t ∈ place p ps) : p.offset < t.location.stop := by
  cases h with
  | nil => exact absurd rfl hne
  | @cons _ _ q ps hq _ =>
      have htext : 0 < byteLength q.text := byteLength_pos (by cases q <;> exact hq.1)
      have hlater : t ∈ place (p.after q.text) ps → p.offset < t.location.stop := by
        intro ht
        have hoffset := offset_le_of_mem_place ht
        rw [Position.offset_after] at hoffset
        rw [Location.stop]
        omega
      cases q with
      | blank text => exact hlater ht
      | lexeme kind text =>
          rcases List.mem_cons.mp ht with rfl | ht
          · show p.offset < p.offset + byteLength text
            rw [Piece.text] at htext
            omega
          · exact hlater ht

end Piece

/-! ## Modes -/

namespace Scanner

open Piece Lexeme

namespace Mode

/-- Holes stand in strings. -/
def Grounded : Mode → Prop
  | .code => True
  | .hole _ outer => outer.openString? ≠ none ∧ outer.Grounded
  | .text _ outer => outer.Grounded

theorem Grounded.eq_code {mode : Mode} (h : mode.Grounded) (hclosed : mode.openString? = none) :
    mode = .code := by
  cases mode with
  | code => rfl
  | hole braces outer => exact absurd hclosed h.1
  | text opening outer => cases hclosed

/-- The modes that a step at `cs` can lead to. -/
inductive Turns (cs : List Char) : Mode → Mode → Prop
  | stay (mode : Mode) : Turns cs mode mode
  | openBrace (mode : Mode) : Turns cs mode mode.openBrace
  | closeBrace (mode : Mode) : Turns cs mode mode.closeBrace
  | openString (mode : Mode) : Turns cs mode (.text cs mode)
  | closeString (opening : List Char) (outer : Mode) : Turns cs (.text opening outer) outer
  | openHole (opening : List Char) (outer : Mode) :
      Turns cs (.text opening outer) (.hole 0 (.text opening outer))

theorem Grounded.turns {cs : List Char} {mode next : Mode} (h : mode.Grounded)
    (hnext : Turns cs mode next) : next.Grounded := by
  cases hnext with
  | stay | openString | closeString => exact h
  | openBrace => cases mode <;> exact h
  | closeBrace =>
      cases mode with
      | hole braces outer =>
          cases braces with
          | zero => exact h.2
          | succ braces => exact h
      | _ => exact h
  | openHole opening outer => exact ⟨Option.some_ne_none _, h⟩

end Mode

theorem codeStep_turns {mode next : Mode} {cs : List Char} {ps : List Piece}
    (h : codeStep mode cs = .ok (ps, next)) : Mode.Turns cs mode next := by
  unfold codeStep doubleQuoted at h
  dsimp only at h
  split at h
  · cases h
    exact .stay _
  · split at h
    · cases h
      exact .openBrace _
    · cases h
      exact .closeBrace _
    · split at h
      · cases h
      · cases h
        exact .stay _
      · cases h
        exact .openString _
    · obtain ⟨p, -, hnext⟩ := exists_of_map_eq_ok h
      cases hnext
      exact .stay _

theorem textStep_turns {opening : List Char} {outer next : Mode} {cs : List Char}
    {ps : List Piece} (h : textStep opening outer cs = .ok (ps, next)) :
    Mode.Turns cs (.text opening outer) next := by
  unfold textStep at h
  split at h
  · cases h
    exact .closeString _ _
  · cases h
    exact .openHole _ _
  · split at h
    · obtain ⟨ps', -, hnext⟩ := exists_of_map_eq_ok h
      cases hnext
      exact .stay _
    · cases h
      exact .stay _

theorem step_turns {mode next : Mode} {cs : List Char} {ps : List Piece}
    (h : step mode cs = .ok (ps, next)) : Mode.Turns cs mode next := by
  cases mode with
  | text opening outer => exact textStep_turns h
  | _ => exact codeStep_turns h

/-! ## Tokens of a run -/

/-- The tokens of a source that is read from a position on. -/
def tokensFrom (mode : Mode) (p : Position) (cs : List Char) : Except ScanFault (List Token) :=
  (scanFrom mode 0 cs).map (place p)

theorem Taken.texts_ne_nil {mode next : Mode} {cs : List Char} {ps : List Piece}
    (h : Taken mode cs ps next) : texts ps ≠ [] := by
  have hpos := h.quoted.textLength_pos h.ne_nil
  rw [textLength_eq] at hpos
  exact List.length_pos_iff.mp hpos

section Runs

variable {mode next : Mode} {p : Position} {c : Char} {cs front rest : List Char}
  {ps : List Piece}

theorem tokensFrom_of_step (h : step mode (front ++ rest) = .ok (ps, next))
    (hfront : texts ps = front) (hne : front ≠ []) :
    tokensFrom mode p (front ++ rest)
      = (tokensFrom next (p.after front) rest).map ((place p ps).dropLast ++ ·) := by
  unfold tokensFrom
  rw [scanFrom_of_step h hfront hne]
  cases scanFrom next 0 rest with
  | error f => rfl
  | ok qs => exact congrArg Except.ok ((place_append p ps qs).trans (by rw [hfront]))

theorem tokensFrom_ne_nil {ts : List Token} (h : tokensFrom mode p cs = .ok ts) : ts ≠ [] := by
  obtain ⟨ps, -, rfl⟩ := exists_of_map_eq_ok h
  exact place_ne_nil p ps

theorem offset_le_of_mem_tokensFrom {ts : List Token} (h : tokensFrom mode p cs = .ok ts)
    {t : Token} (ht : t ∈ ts) : p.offset ≤ t.location.offset := by
  obtain ⟨ps, -, rfl⟩ := exists_of_map_eq_ok h
  exact offset_le_of_mem_place ht

theorem stop_le_of_mem_tokensFrom {ts : List Token} (h : tokensFrom mode p cs = .ok ts)
    {t : Token} (ht : t ∈ ts.dropLast) : t.location.stop ≤ (p.after cs).offset := by
  obtain ⟨ps, hscan, rfl⟩ := exists_of_map_eq_ok h
  have htexts : texts ps = cs := (scanFrom_covers hscan).1
  exact htexts ▸ stop_le_of_mem_place ht

theorem tokensFrom_of_fault {f : ScanFault} (hne : cs ≠ []) (h : step mode cs = .error f) :
    tokensFrom mode p cs = .error f := by
  obtain ⟨c, cs, rfl⟩ := List.exists_cons_of_ne_nil hne
  unfold tokensFrom scanFrom
  rw [h]
  rfl

/-- The tokens of a run are those of its first step and those of a run behind it. -/
theorem exists_tokensFrom_of_step {ts : List Token} (hne : cs ≠ [])
    (h : step mode cs = .ok (ps, next)) (hts : tokensFrom mode p cs = .ok ts) :
    ∃ rest us, texts ps ++ rest = cs ∧ tokensFrom next (p.after (texts ps)) rest = .ok us ∧
      ts = (place p ps).dropLast ++ us := by
  have htaken := step_takes hne h
  obtain ⟨rest, rfl⟩ := htaken.covers
  rw [tokensFrom_of_step h rfl htaken.texts_ne_nil] at hts
  obtain ⟨us, hus, hsplit⟩ := exists_of_map_eq_ok hts
  exact ⟨rest, us, rfl, hus, hsplit.symm⟩

theorem step_of_code (hcode : mode.frames.head? ≠ some .text) (cs : List Char) :
    step mode cs = codeStep mode cs := by
  cases mode with
  | text opening outer => exact absurd rfl hcode
  | _ => rfl

/-- Blanks in code make no tokens. -/
theorem tokensFrom_blanks (hcode : mode.frames.head? ≠ some .text) (p : Position)
    (cs : List Char) : tokensFrom mode p cs
      = tokensFrom mode (p.after (cs.takeWhile isTokenBlank)) (cs.dropWhile isTokenBlank) := by
  by_cases hnone : cs.takeWhile isTokenBlank = []
  · have hdrop : cs.dropWhile isTokenBlank = cs := by
      conv_rhs => rw [← List.takeWhile_append_dropWhile (p := isTokenBlank) (l := cs), hnone]
      rfl
    rw [hnone, hdrop, Position.after_nil]
  · have hstep : step mode (cs.takeWhile isTokenBlank ++ cs.dropWhile isTokenBlank)
        = .ok ([.blank (cs.takeWhile isTokenBlank)], mode) := by
      rw [List.takeWhile_append_dropWhile, step_of_code hcode]
      unfold codeStep
      rw [if_pos (by simpa using hnone)]
    have hrun := tokensFrom_of_step (p := p) hstep (List.append_nil _) hnone
    rw [List.takeWhile_append_dropWhile] at hrun
    rw [hrun]
    cases tokensFrom mode (p.after (cs.takeWhile isTokenBlank)) (cs.dropWhile isTokenBlank) <;> rfl

theorem tokensFrom_blank (hcode : mode.frames.head? ≠ some .text) (hc : isTokenBlank c = true)
    (p : Position) (cs : List Char) :
    tokensFrom mode p (c :: cs) = tokensFrom mode (p.advance c) cs := by
  rw [tokensFrom_blanks hcode p (c :: cs), tokensFrom_blanks hcode (p.advance c) cs,
    List.takeWhile_cons_of_pos hc, List.dropWhile_cons_of_pos hc, Position.after_cons]

end Runs

end Scanner

/-! ## Breaks in strings -/

theorem framesBehind_append (fs : List Frame) (ts us : List Token) :
    framesBehind fs (ts ++ us) = framesBehind (framesBehind fs ts) us := List.foldl_append

/-- The byte at the offset is part of a string: of the text of one token, or of what stands
between the quotes of a string with embedded expressions. -/
def InString (fs : List Frame) (ts : List Token) (offset : Nat) : Prop :=
  (∃ t ∈ ts, t.kind = .string ∧ t.Covers offset) ∨
  framesBehind fs (ts.filter fun t => t.location.stop ≤ offset) ≠ []

section InStrings

variable {fs : List Frame} {front ts : List Token} {offset : Nat}

theorem InString.behind (h : InString (framesBehind fs front) ts offset)
    (hfront : ∀ t ∈ front, t.location.stop ≤ offset) : InString fs (front ++ ts) offset := by
  rcases h with ⟨t, ht, hstring⟩ | hframes
  · exact .inl ⟨t, List.mem_append_right front ht, hstring⟩
  · right
    have hall : front.filter (fun t => t.location.stop ≤ offset) = front :=
      List.filter_eq_self.mpr fun t ht => decide_eq_true (hfront t ht)
    rwa [List.filter_append, hall, framesBehind_append]

/-- No token ends before the offset, and a frame is open. -/
theorem inString_of_later (hfs : fs ≠ []) (h : ∀ t ∈ ts, offset < t.location.stop) :
    InString fs ts offset := by
  right
  have hnone : ts.filter (fun t => t.location.stop ≤ offset) = [] :=
    List.filter_eq_nil_iff.mpr fun t ht => by simpa using h t ht
  rw [hnone]
  exact hfs

/-- What ends in front of the offset leaves nothing open, and the rest starts behind it. -/
theorem not_inString (hframes : framesBehind fs front = [])
    (hfront : ∀ t ∈ front, t.location.stop ≤ offset) (hts : ∀ t ∈ ts, offset < t.location.offset) :
    ¬ InString fs (front ++ ts) offset := by
  rintro (⟨t, ht, -, hlow, hhigh⟩ | hopen)
  · rcases List.mem_append.mp ht with ht | ht
    · exact Nat.not_lt.mpr (hfront t ht) hhigh
    · exact Nat.not_lt.mpr hlow (hts t ht)
  · have hall : front.filter (fun t => t.location.stop ≤ offset) = front :=
      List.filter_eq_self.mpr fun t ht => decide_eq_true (hfront t ht)
    have hnone : ts.filter (fun t => t.location.stop ≤ offset) = [] := by
      refine List.filter_eq_nil_iff.mpr fun t ht hstop => ?_
      have hstop : t.location.offset + t.location.length ≤ offset := of_decide_eq_true hstop
      have := hts t ht
      omega
    rw [List.filter_append, hall, hnone, List.append_nil] at hopen
    exact hopen hframes

end InStrings

namespace Scanner

open Piece Lexeme

/-! ## What stands behind a break -/

section Breaks

variable (ds : List Char) {mode next : Mode} {p : Position} {cs front rest : List Char}
  {ps : List Piece}

/-- What scanning `cs` tells about scanning it with a line break and `ds` behind it. -/
inductive Continues (mode : Mode) (p : Position) (cs : List Char) : Prop
  /-- Nothing is open: what stands behind the break is scanned on its own. -/
  | closed {ts : List Token} :
      tokensFrom mode p cs = .ok ts → framesBehind mode.frames ts.dropLast = [] →
      tokensFrom (mode.before ('\n' :: ds)) p (cs ++ '\n' :: ds)
        = (tokensFrom .code ((p.after cs).advance '\n') ds).map (ts.dropLast ++ ·) →
      Continues mode p cs
  /-- A string is open: the break stands in it. -/
  | inString {f : ScanFault} :
      tokensFrom mode p cs = .error f → f.fault.isOpenString = true →
      (∀ us, tokensFrom (mode.before ('\n' :: ds)) p (cs ++ '\n' :: ds) = .ok us →
        InString mode.frames us (p.after cs).offset) →
      Continues mode p cs
  /-- Another fault remains. -/
  | fault {f f' : ScanFault} :
      tokensFrom mode p cs = .error f → f.fault.isOpenString = false →
      tokensFrom (mode.before ('\n' :: ds)) p (cs ++ '\n' :: ds) = .error f' →
      Continues mode p cs

/-- Both runs start with the same tokens. -/
theorem Continues.behind {ts : List Token} (h : Continues ds next (p.after front) rest)
    (hrun : tokensFrom mode p (front ++ rest)
      = (tokensFrom next (p.after front) rest).map (ts ++ ·))
    (hrun' : tokensFrom (mode.before ('\n' :: ds)) p (front ++ rest ++ '\n' :: ds)
      = (tokensFrom (next.before ('\n' :: ds)) (p.after front) (rest ++ '\n' :: ds)).map (ts ++ ·))
    (hframes : framesBehind mode.frames ts = next.frames)
    (hstop : ∀ t ∈ ts, t.location.stop ≤ (p.after front).offset) :
    Continues ds mode p (front ++ rest) := by
  have hafter : p.after (front ++ rest) = (p.after front).after rest := Position.after_append ..
  cases h with
  | @closed us hus hclosed hmore =>
      rw [hus] at hrun
      rw [hmore] at hrun'
      refine .closed hrun ?_ ?_
      · rw [List.dropLast_append_of_ne_nil (tokensFrom_ne_nil hus), framesBehind_append, hframes]
        exact hclosed
      · rw [hrun', hafter, List.dropLast_append_of_ne_nil (tokensFrom_ne_nil hus)]
        cases tokensFrom .code (((p.after front).after rest).advance '\n') ds with
        | error f => rfl
        | ok vs => exact congrArg Except.ok (List.append_assoc ts us.dropLast vs).symm
  | inString hf hopen hmore =>
      rw [hf] at hrun
      refine .inString hrun hopen fun us hus => ?_
      rw [hrun'] at hus
      obtain ⟨vs, hvs, rfl⟩ := exists_of_map_eq_ok hus
      have hvs := hmore vs hvs
      rw [← hframes, ← hafter] at hvs
      refine hvs.behind fun t ht => (hstop t ht).trans ?_
      rw [hafter, Position.offset_after (p.after front) rest]
      exact Nat.le_add_right _ _
  | fault hf hclosed hmore =>
      rw [hf] at hrun
      rw [hmore] at hrun'
      exact .fault hrun hclosed hrun'

theorem continues_nil (hmode : mode.Grounded) (p : Position) : Continues ds mode p [] := by
  cases hopen : mode.openString? with
  | none =>
      obtain rfl := hmode.eq_code hopen
      refine .closed rfl rfl ?_
      show tokensFrom .code p ('\n' :: ds)
        = (tokensFrom .code (p.advance '\n') ds).map ([] ++ ·)
      rw [tokensFrom_blank (by simp [Mode.frames]) rfl]
      cases tokensFrom .code (p.advance '\n') ds <;> rfl
  | some opening =>
      have hnil : tokensFrom mode p [] = .error (.unterminated opening) := by
        unfold tokensFrom scanFrom
        rw [hopen]
        rfl
      have hframes : mode.frames ≠ [] := by
        intro hframes
        have htext : .text ∈ mode.frames := Mode.text_mem_frames.mpr (by simp [hopen])
        rw [hframes] at htext
        cases htext
      refine .inString hnil rfl fun us hus => inString_of_later hframes fun t ht => ?_
      obtain ⟨ps, hscan, rfl⟩ := exists_of_map_eq_ok hus
      obtain ⟨htexts, fs, hquoted, -⟩ := scanFrom_covers hscan
      refine lt_stop_of_mem_place hquoted ?_ ht
      rintro rfl
      cases htexts

theorem continues_blank (hcode : mode.frames.head? ≠ some .text) {c : Char}
    (hc : isTokenBlank c = true) (h : Continues ds mode (p.advance c) cs) :
    Continues ds mode p (c :: cs) := by
  have hbefore : (mode.before ('\n' :: ds)).frames.head? ≠ some .text := by
    rwa [Mode.frames_before]
  have hrun := tokensFrom_blank hcode hc p cs
  have hrun' := tokensFrom_blank hbefore hc p (cs ++ '\n' :: ds)
  cases h with
  | closed hts hclosed hmore => exact .closed (hrun.trans hts) hclosed (hrun'.trans hmore)
  | inString hf hopen hmore =>
      exact .inString (hrun.trans hf) hopen fun us hus => hmore us (hrun'.symm.trans hus)
  | fault hf hclosed hmore => exact .fault (hrun.trans hf) hclosed (hrun'.trans hmore)

/-- The text of a string that runs over the break ends behind it, and so does what follows. -/
theorem lt_stop_of_literal {opening : List Char} {outer : Mode}
    (hover : cs ++ ['\n'] <+: literalRun (cs ++ '\n' :: ds)) {us : List Token}
    (hus : tokensFrom (.text opening outer) p (cs ++ '\n' :: ds) = .ok us) :
    ∀ t ∈ us, (p.after cs).offset < t.location.stop := by
  have hne : literalRun (cs ++ '\n' :: ds) ≠ [] := by
    intro hnil
    rw [hnil] at hover
    simpa using hover.length_le
  have hlong := lt_byteLength_of_isPrefix hover
  have hstep : step (.text opening outer) (cs ++ '\n' :: ds) = _ :=
    textStep_of_literalRun opening outer hne
  obtain ⟨rest, vs, -, hvs, rfl⟩ := exists_tokensFrom_of_step (by simp) hstep hus
  rw [Position.offset_after]
  intro t ht
  rcases List.mem_cons.mp ht with rfl | ht
  · exact Nat.add_lt_add_left hlong p.offset
  · have hoffset := offset_le_of_mem_tokensFrom hvs ht
    rw [Position.offset_after, texts, List.flatMap_singleton, Piece.text] at hoffset
    rw [Location.stop]
    omega

/-- What is left in a string is a literal text, so the next piece runs over the break. -/
theorem continues_literal {opening : List Char} {outer : Mode} (hmode : outer.Grounded)
    (p : Position) (hrun : literalRun cs = cs) : Continues ds (.text opening outer) p cs := by
  by_cases hne : cs = []
  · subst hne
    have htext : (Mode.text opening outer).Grounded := hmode
    exact continues_nil ds htext p
  · have hfault : tokensFrom (.text opening outer) p cs = .error (.unterminated opening) := by
      have hstep : step (.text opening outer) cs = _ :=
        textStep_of_literalRun opening outer (by rwa [hrun])
      rw [hrun, ← List.append_nil cs] at hstep
      rw [← List.append_nil cs]
      exact tokensFrom_of_step hstep (by simp [texts, Piece.text]) hne
    refine .inString hfault rfl fun us hus => inString_of_later (List.cons_ne_nil _ _) ?_
    rcases literalRun_lineBreak cs ds with ⟨c, rest, hstop, -⟩ | ⟨-, hover⟩
    · rw [hrun, List.drop_length] at hstop
      cases hstop
    · exact lt_stop_of_literal ds hover hus

theorem continues_step (hmode : mode.Grounded) {c : Char}
    (hstep : StepUnaffected ds (step mode (c :: cs))
      (step (mode.before ('\n' :: ds)) (c :: cs ++ '\n' :: ds)))
    (ih : ∀ (next : Mode) (p : Position) (rest : List Char), next.Grounded →
      rest.length ≤ cs.length → Continues ds next p rest) :
    Continues ds mode p (c :: cs) := by
  generalize hmore : step (mode.before ('\n' :: ds)) (c :: cs ++ '\n' :: ds) = r' at hstep
  cases hr : step mode (c :: cs) with
  | error f =>
      rw [hr] at hstep
      cases hstep with
      | error hf =>
          exact .fault (tokensFrom_of_fault (List.cons_ne_nil c cs) hr) hf
            (tokensFrom_of_fault (List.cons_ne_nil c _) hmore)
  | ok s =>
      obtain ⟨ps, next⟩ := s
      rw [hr] at hstep
      cases hstep
      have htaken := step_takes (List.cons_ne_nil c cs) hr
      have hne := htaken.texts_ne_nil
      have hcs := htaken.texts_append
      rw [← hcs] at hr
      rw [← hcs, List.append_assoc] at hmore
      rw [← hcs]
      have hlater := ih next (p.after (texts ps)) _ (hmode.turns (step_turns hr))
        (List.length_drop.trans_le (Nat.sub_le _ (textLength ps - 1)))
      refine hlater.behind ds (tokensFrom_of_step hr rfl hne) ?_
        (framesBehind_place htaken.quoted p) fun t ht => stop_le_of_mem_place ht
      rw [List.append_assoc]
      exact tokensFrom_of_step hmore rfl hne

/-- A string starts that is still open at the break. -/
theorem continues_string {c : Char} {cs : List Char}
    (hstep : StaysOpen (c :: cs) ds mode (step mode (c :: cs))
      (step (mode.before ('\n' :: ds)) (c :: cs ++ '\n' :: ds))) :
    Continues ds mode p (c :: cs) := by
  obtain ⟨f, hf, hopen, hall⟩ := hstep
  refine .inString (tokensFrom_of_fault (List.cons_ne_nil c cs) hf) hopen fun us hus => ?_
  have hne : c :: cs ++ '\n' :: ds ≠ [] := List.cons_ne_nil c _
  cases hs : step (mode.before ('\n' :: ds)) (c :: cs ++ '\n' :: ds) with
  | error f' =>
      rw [tokensFrom_of_fault hne hs] at hus
      cases hus
  | ok s =>
      obtain ⟨ps, next⟩ := s
      have hframes := framesBehind_place (step_takes hne hs).quoted p
      rw [Mode.frames_before] at hframes
      obtain ⟨rest, vs, hrest, hvs, rfl⟩ := exists_tokensFrom_of_step hne hs hus
      cases hall _ hs with
      | whole htext =>
          have hlong := lt_byteLength_of_isPrefix htext
          refine .inl ⟨_, List.mem_append_left vs List.mem_cons_self, rfl, ?_, ?_⟩
          · rw [Position.offset_after]
            exact Nat.le_add_right _ _
          · rw [Position.offset_after]
            exact Nat.add_lt_add_left hlong p.offset
      | @quote tail hcs hrun =>
          obtain ⟨rfl, rfl⟩ := List.cons.inj hcs
          obtain rfl : rest = cs ++ '\n' :: ds := (List.cons.inj hrest).2
          have hlater : ∀ t ∈ vs, (p.after ('"' :: cs)).offset < t.location.stop := by
            rcases literalRun_lineBreak cs ds with ⟨d, rest, hstop, -⟩ | ⟨-, hover⟩
            · rw [hrun, List.drop_length] at hstop
              cases hstop
            · exact lt_stop_of_literal ds hover hvs
          refine InString.behind (inString_of_later ?_ hlater) ?_
          · rw [hframes]
            exact List.cons_ne_nil _ _
          · intro t ht
            have hstop := stop_le_of_mem_place ht
            rw [Position.after_cons, Position.offset_after]
            exact hstop.trans (Nat.le_add_right _ _)

/-- **A line break ends the line.** -/
theorem continues (hmode : mode.Grounded) (p : Position) (cs : List Char) :
    Continues ds mode p cs := by
  induction hn : cs.length using Nat.strongRecOn generalizing mode p cs with
  | ind n ih =>
      subst hn
      rcases cs with _ | ⟨c, cs⟩
      · exact continues_nil ds hmode p
      · have hsteps : ∀ (next : Mode) (p : Position) (rest : List Char), next.Grounded →
            rest.length ≤ cs.length → Continues ds next p rest := fun next p rest hnext hlen =>
          ih rest.length (Nat.lt_succ_of_le hlen) hnext p rest rfl
        by_cases hcode : mode.frames.head? = some .text
        · cases mode with
          | code => cases hcode
          | hole braces outer => cases hcode
          | text opening outer =>
              rcases textStep_lineBreak (c :: cs) ds opening outer with hstep | hrun
              · exact continues_step ds hmode hstep hsteps
              · have houter : outer.Grounded := hmode
                exact continues_literal ds houter p hrun
        · cases hc : isTokenBlank c with
          | true => exact continues_blank ds hcode hc (hsteps mode _ cs hmode (Nat.le_refl _))
          | false =>
              have hbefore : (mode.before ('\n' :: ds)).frames.head? ≠ some .text := by
                rwa [Mode.frames_before]
              have hstep := codeStep_lineBreak cs ds mode hc
              rw [← step_of_code hcode, ← step_of_code hbefore] at hstep
              rcases hstep with hstep | hstep
              · exact continues_step ds hmode hstep hsteps
              · exact continues_string ds hstep

end Breaks

end Scanner

end GuardedExpr
