/-
# Placement — tokens stand where their text stands

Placing the pieces of a source gives every token the offset that the pieces before
it add up to.  As the pieces are the whole source, the text of a token is the
slice at its offset, and what no token covers are the blanks between the pieces.
-/
import GuardedExpr.Proofs.Scanning

namespace GuardedExpr

open Text

/-! ## Bytes -/

namespace Text

@[simp] theorem byteLength_nil : byteLength [] = 0 := rfl

@[simp] theorem byteLength_cons (c : Char) (cs : List Char) :
    byteLength (c :: cs) = c.utf8Size + byteLength cs := by simp [byteLength]

@[simp] theorem byteLength_append (cs ds : List Char) :
    byteLength (cs ++ ds) = byteLength cs + byteLength ds := by simp [byteLength]

theorem byteLength_ofList (cs : List Char) : (String.ofList cs).utf8ByteSize = byteLength cs := by
  induction cs with
  | nil => rfl
  | cons c cs ih =>
      rw [byteLength_cons, ← ih, ← List.singleton_append, String.ofList_append,
        String.utf8ByteSize_append]
      simp

theorem byteLength_toList (s : String) : byteLength s.toList = s.utf8ByteSize := by
  rw [← byteLength_ofList, String.ofList_toList]

theorem byteLength_pos {cs : List Char} (h : cs ≠ []) : 0 < byteLength cs := by
  obtain ⟨c, cs, rfl⟩ := List.exists_cons_of_ne_nil h
  have := c.utf8Size_pos
  rw [byteLength_cons]
  omega

/-- ASCII characters take one byte each. -/
theorem byteLength_of_ascii {cs : List Char} (h : ∀ c ∈ cs, c.toNat < 128) :
    byteLength cs = cs.length := by
  induction cs with
  | nil => rfl
  | cons c cs ih =>
      have hc : c.utf8Size = 1 := by
        rw [Char.utf8Size_eq_one_iff, UInt32.le_iff_toNat_le]
        exact Nat.le_of_lt_succ (h c List.mem_cons_self)
      rw [byteLength_cons, hc, ih fun d hd => h d (List.mem_cons_of_mem c hd), List.length_cons,
        Nat.add_comm]

theorem byteLength_of_blanks {cs : List Char} (h : ∀ c ∈ cs, isTokenBlank c = true) :
    byteLength cs = cs.length := by
  refine byteLength_of_ascii fun c hc => ?_
  have := h c hc
  simp only [isTokenBlank, Bool.or_eq_true, beq_iff_eq] at this
  rcases this with (((rfl | rfl) | rfl) | rfl) | rfl <;> decide

/-- Among blanks every byte is a character. -/
theorem exists_blank_at {before text : List Char} {offset : Nat}
    (h : ∀ c ∈ text, isTokenBlank c = true) (hlow : byteLength before ≤ offset)
    (hhigh : offset < byteLength (before ++ text)) :
    ∃ front c behind, before ++ text = front ++ c :: behind ∧ byteLength front = offset ∧
      isTokenBlank c = true := by
  have hlen := byteLength_of_blanks h
  rw [byteLength_append] at hhigh
  obtain ⟨n, hn⟩ : ∃ n, offset = byteLength before + n := Nat.exists_eq_add_of_le hlow
  obtain ⟨c, more, hdrop⟩ : ∃ c more, text.drop n = c :: more :=
    List.exists_cons_of_ne_nil (by rw [Ne, List.drop_eq_nil_iff]; omega)
  have htext : text = text.take n ++ c :: more := by rw [← hdrop, List.take_append_drop]
  refine ⟨before ++ text.take n, c, more, ?_, ?_, h c (htext ▸ by simp)⟩
  · rw [List.append_assoc, ← htext]
  · rw [byteLength_append, byteLength_of_blanks fun c hc => h c (List.mem_of_mem_take hc),
      List.length_take]
    omega

end Text

theorem Position.offset_after (p : Position) (cs : List Char) :
    (p.after cs).offset = p.offset + byteLength cs := by
  induction cs generalizing p with
  | nil => rfl
  | cons c cs ih =>
      rw [after_cons, ih, byteLength_cons, ← Nat.add_assoc]
      congr 1
      unfold advance
      split <;> rfl

theorem charsBefore_byteLength (before behind : List Char) :
    charsBefore (byteLength before) (before ++ behind) = before := by
  induction before with
  | nil =>
      cases behind with
      | nil => rfl
      | cons c cs =>
          have := c.utf8Size_pos
          simp only [List.nil_append, byteLength_nil, charsBefore]
          rw [if_neg (by omega)]
  | cons c cs ih => simp [charsBefore, ih]

/-! ## Tokens in a source -/

/-- The offset stands between two characters of the source or at one of its ends. -/
def IsBoundary (source : String) (offset : Nat) : Prop :=
  ∃ before behind, source.toList = before ++ behind ∧ byteLength before = offset

namespace Token

/-- The byte at the offset belongs to the token. -/
def Covers (t : Token) (offset : Nat) : Prop :=
  t.location.offset ≤ offset ∧ offset < t.location.stop

/-- The token is a part of the text, and its location is where this part stands. -/
def StandsIn (cs : List Char) (t : Token) : Prop :=
  ∃ before behind, cs = before ++ t.text.toList ++ behind ∧
    t.location = .ofPosition (Position.start.after before) (byteLength t.text.toList)

theorem StandsIn.spec {source : String} {t : Token} (h : t.StandsIn source.toList) :
    IsBoundary source t.location.offset ∧ IsBoundary source t.location.stop ∧
      sliceText source t.location.offset t.location.stop = t.text ∧
      t.location = locate source t.location.offset t.location.length := by
  obtain ⟨before, behind, hsource, hloc⟩ := h
  have hoffset : t.location.offset = byteLength before := by
    rw [hloc]
    simp [Location.ofPosition, Position.offset_after, Position.start]
  have hlength : t.location.length = byteLength t.text.toList := by rw [hloc]; rfl
  have hstop : t.location.stop = byteLength (before ++ t.text.toList) := by
    rw [Location.stop, hoffset, hlength, byteLength_append]
  have hfirst : charsBefore t.location.offset source.toList = before := by
    rw [hoffset, hsource, List.append_assoc, charsBefore_byteLength]
  refine ⟨⟨before, t.text.toList ++ behind, ?_, hoffset.symm⟩, ⟨_, behind, hsource, hstop.symm⟩,
    ?_, ?_⟩
  · rw [hsource, List.append_assoc]
  · rw [sliceText, hfirst, hstop, hsource, charsBefore_byteLength, List.drop_left,
      String.ofList_toList]
  · rw [locate, hfirst, hlength, hoffset, hloc]
    simp [Location.ofPosition, Position.offset_after, Position.start]

end Token

/-- The frames that are open behind some tokens. -/
def framesBehind (fs : List Frame) (ts : List Token) : List Frame :=
  ts.foldl (fun fs t => t.kind.framesAfter fs) fs

/-! ## Placing pieces -/

namespace Piece

open Scanner

theorem standsIn_of_mem_place {ps : List Piece} {before : List Char} {t : Token}
    (ht : t ∈ place (Position.start.after before) ps) : t.StandsIn (before ++ texts ps) := by
  induction ps generalizing before with
  | nil =>
      cases List.mem_singleton.mp ht
      exact ⟨before, [], by simp [texts], rfl⟩
  | cons p ps ih =>
      have hsplit : before ++ texts (p :: ps) = (before ++ p.text) ++ texts ps := by
        rw [List.append_assoc]
        rfl
      cases p with
      | blank text =>
          rw [hsplit]
          refine ih ?_
          rwa [Position.after_append]
      | lexeme kind text =>
          rcases List.mem_cons.mp ht with rfl | ht
          · exact ⟨before, texts ps, by simp [hsplit, Piece.text], by simp⟩
          · rw [hsplit]
            refine ih ?_
            rwa [Position.after_append]

theorem offset_le_of_mem_place {ps : List Piece} {p : Position} {t : Token} (ht : t ∈ place p ps) :
    p.offset ≤ t.location.offset := by
  induction ps generalizing p with
  | nil =>
      cases List.mem_singleton.mp ht
      exact Nat.le_refl _
  | cons q ps ih =>
      have hnext : ∀ text, t ∈ place (p.after text) ps → p.offset ≤ t.location.offset := by
        intro text ht
        have := ih ht
        rw [Position.offset_after] at this
        omega
      cases q with
      | blank text => exact hnext text ht
      | lexeme kind text =>
          rcases List.mem_cons.mp ht with rfl | ht
          · exact Nat.le_refl _
          · exact hnext text ht

theorem pairwise_place (ps : List Piece) (p : Position) :
    (place p ps).Pairwise fun t u => t.location.stop ≤ u.location.offset := by
  induction ps generalizing p with
  | nil => exact List.pairwise_singleton _ _
  | cons q ps ih =>
      cases q with
      | blank text => exact ih _
      | lexeme kind text =>
          refine List.pairwise_cons.mpr ⟨?_, ih _⟩
          intro u hu
          have := offset_le_of_mem_place hu
          rwa [Position.offset_after] at this

/-- The end of the input stands behind everything and only there. -/
theorem place_eq_append {fs fs' : List Frame} {ps : List Piece} (h : Quoted fs ps fs')
    (p : Position) : ∃ body,
      place p ps = body ++ [⟨.eof, "", .ofPosition (p.after (texts ps)) 0⟩] ∧
      ∀ t ∈ body, t.kind ≠ .eof ∧ 1 ≤ t.location.length := by
  induction h generalizing p with
  | nil => exact ⟨[], rfl, by simp⟩
  | @cons _ _ q ps hq _ ih =>
      obtain ⟨body, hbody, hall⟩ := ih (p.after q.text)
      rw [← Position.after_append] at hbody
      cases q with
      | blank text => exact ⟨body, hbody, hall⟩
      | lexeme kind text =>
          refine ⟨_ :: body, congrArg _ hbody, List.forall_mem_cons.mpr ⟨⟨hq.2, ?_⟩, hall⟩⟩
          exact byteLength_pos hq.1

/-- No token of what comes later ends before the offset. -/
theorem filter_place_eq_nil {offset : Nat} {p : Position} (h : offset < p.offset)
    (ps : List Piece) : (place p ps).filter (fun t => t.location.stop ≤ offset) = [] := by
  refine List.filter_eq_nil_iff.mpr ?_
  intro t ht hstop
  have hstop : t.location.offset + t.location.length ≤ offset := of_decide_eq_true hstop
  have := offset_le_of_mem_place ht
  omega

/-- What no token covers is blank, and no text of a string is open there. -/
theorem blank_of_uncovered {fs fs' : List Frame} {ps : List Piece} (h : Quoted fs ps fs')
    {before : List Char} {offset : Nat} (hlow : byteLength before ≤ offset)
    (hhigh : offset < byteLength (before ++ texts ps))
    (hfree : ∀ t ∈ place (Position.start.after before) ps, ¬ t.Covers offset) :
    ∃ front c behind, before ++ texts ps = front ++ c :: behind ∧ byteLength front = offset ∧
      isTokenBlank c = true ∧
      (framesBehind fs ((place (Position.start.after before) ps).filter
        fun t => t.location.stop ≤ offset)).head? ≠ some .text := by
  induction h generalizing before with
  | nil =>
      rw [texts, List.flatMap_nil, List.append_nil] at hhigh
      omega
  | @cons fs fs' q ps hq hps ih =>
      have hsplit : before ++ texts (q :: ps) = (before ++ q.text) ++ texts ps := by
        rw [List.append_assoc]
        rfl
      rw [hsplit] at hhigh ⊢
      have hstart : ∀ cs, (Position.start.after cs).offset = byteLength cs := by
        simp [Position.offset_after, Position.start]
      rcases Nat.lt_or_ge offset (byteLength (before ++ q.text)) with hin | hbehind
      · cases q with
        | blank text =>
            obtain ⟨-, hblank, hframe⟩ := hq
            obtain ⟨front, c, behind, hfront, hoffset, hc⟩ := exists_blank_at hblank hlow hin
            refine ⟨front, c, behind ++ texts ps, ?_, hoffset, hc, ?_⟩
            · rw [Piece.text, hfront, List.append_assoc, List.cons_append]
            · rw [place, filter_place_eq_nil]
              · exact hframe
              · rwa [← Position.after_append, hstart]
        | lexeme kind text =>
            refine absurd ⟨?_, ?_⟩ (hfree _ List.mem_cons_self)
            · show (Position.start.after before).offset ≤ offset
              rwa [hstart]
            · show offset < (Position.start.after before).offset + byteLength text
              rwa [hstart, ← byteLength_append]
      · cases q with
        | blank text =>
            rw [place, ← Position.after_append] at hfree ⊢
            exact ih hbehind hhigh hfree
        | lexeme kind text =>
            rw [place, ← Position.after_append] at hfree ⊢
            have hstop : (Location.ofPosition (Position.start.after before) (byteLength text)).stop
                ≤ offset := by
              rw [Location.stop, Location.ofPosition, hstart]
              simpa [Piece.text] using hbehind
            rw [List.filter_cons_of_pos (by simpa using hstop)]
            exact ih hbehind hhigh fun t ht => hfree t (List.mem_cons_of_mem _ ht)

end Piece

/-- **Tokenizing loses nothing.**  The tokens of a source stand in order and do not overlap.  Each
is the slice at its location, between characters, and its line and column are those of its
offset.  The end of the input comes last and nowhere else; the other tokens take at least a byte.
A byte that no token covers is a blank, and the tokens before it leave no text of a string open. -/
theorem tokenize_is_lossless {source : String} {ts : List Token} (h : tokenize source = .ok ts) :
    (∃ body eof, ts = body ++ [eof] ∧
      (∀ t ∈ body, t.kind ≠ .eof ∧ 1 ≤ t.location.length) ∧
      eof.kind = .eof ∧ eof.location.offset = source.utf8ByteSize ∧ eof.location.length = 0) ∧
    ts.Pairwise (fun t u => t.location.stop ≤ u.location.offset) ∧
    (∀ t ∈ ts, IsBoundary source t.location.offset ∧ IsBoundary source t.location.stop ∧
      sliceText source t.location.offset t.location.stop = t.text ∧
      t.location = locate source t.location.offset t.location.length) ∧
    ∀ offset < source.utf8ByteSize, (∀ t ∈ ts, ¬ t.Covers offset) →
      ∃ front c behind, source.toList = front ++ c :: behind ∧ byteLength front = offset ∧
        isTokenBlank c = true ∧
        (framesBehind [] (ts.filter fun t => t.location.stop ≤ offset)).head? ≠ some .text := by
  unfold tokenize at h
  split at h
  · cases h
  · next ps hscan =>
      cases h
      obtain ⟨htexts, fs, hquoted, -⟩ := Scanner.scan_covers hscan
      refine ⟨?_, Piece.pairwise_place ps _, ?_, ?_⟩
      · obtain ⟨body, hbody, hall⟩ := Piece.place_eq_append hquoted Position.start
        refine ⟨body, _, hbody, hall, rfl, ?_, rfl⟩
        rw [Location.ofPosition, Position.offset_after, htexts, byteLength_toList]
        exact Nat.zero_add _
      · intro t ht
        have hstands : t.StandsIn ([] ++ Piece.texts ps) := Piece.standsIn_of_mem_place ht
        rw [List.nil_append, htexts] at hstands
        exact hstands.spec
      · intro offset hoffset hfree
        have hlow : byteLength [] ≤ offset := Nat.zero_le offset
        have hblank := Piece.blank_of_uncovered hquoted hlow
          (by rwa [List.nil_append, htexts, byteLength_toList]) hfree
        rwa [List.nil_append, htexts] at hblank

/-- In `"é{$a . "$b"}"` the second string stands in the first, and the blanks around the dot in a
hole of it. -/
theorem nested_string_is_lossless :
    ∃ ts, tokenize "\"é\x7b$a . \"$b\"\x7d\"" = .ok ts ∧
      ts.map Token.text = ["\"", "é", "\x7b", "$a", ".", "\"", "$b", "\"", "\x7d", "\"", ""] ∧
      (∀ t ∈ ts, sliceText "\"é\x7b$a . \"$b\"\x7d\"" t.location.offset t.location.stop = t.text) ∧
      framesBehind [] (ts.filter fun t => t.location.stop ≤ 6) = [.hole 0, .text] ∧
      (framesBehind [] (ts.filter fun t => t.location.stop ≤ 6)).head? ≠ some .text := by
  have hrun : tokenize "\"é\x7b$a . \"$b\"\x7d\"" = .ok
      [⟨.quote, "\"", ⟨0, 1, 1, 1⟩⟩, ⟨.fragment, "é", ⟨1, 2, 1, 2⟩⟩,
       ⟨.lbrace, "\x7b", ⟨3, 1, 1, 3⟩⟩, ⟨.variable, "$a", ⟨4, 2, 1, 4⟩⟩,
       ⟨.dot, ".", ⟨7, 1, 1, 7⟩⟩, ⟨.quote, "\"", ⟨9, 1, 1, 9⟩⟩,
       ⟨.variable, "$b", ⟨10, 2, 1, 10⟩⟩, ⟨.quote, "\"", ⟨12, 1, 1, 12⟩⟩,
       ⟨.rbrace, "\x7d", ⟨13, 1, 1, 13⟩⟩, ⟨.quote, "\"", ⟨14, 1, 1, 14⟩⟩,
       ⟨.eof, "", ⟨15, 0, 1, 15⟩⟩] := rfl
  obtain ⟨-, -, htext, hblank⟩ := tokenize_is_lossless hrun
  refine ⟨_, hrun, rfl, fun t ht => (htext t ht).2.2.1, by decide, ?_⟩
  obtain ⟨-, -, -, -, -, -, hframes⟩ := hblank 6 (by decide) (by
    simp [Token.Covers, Location.stop])
  exact hframes

end GuardedExpr
