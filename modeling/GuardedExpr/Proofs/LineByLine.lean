/-
# Line by line — the tokens of a source with more lines

A source that is tokenized keeps its tokens when a line break and more text are put
behind it, and the text gets the tokens it has on its own, further on by the bytes
and lines in front of it (`tokenize_goes_line_by_line`).  A fault of the text is
found as well.  Its place is computed from what it leaves of the source, so the
faults have to be known to keep a part of the text (`scanFrom_rest`).
-/
import GuardedExpr.Proofs.Lines

namespace GuardedExpr

open Text

namespace Scanner

open Piece Lexeme

/-! ## Faults -/

theorem read_rest {cs : List Char} {f : ScanFault} (h : read cs = .error f) : f.rest = cs := by
  unfold Lexeme.read number radixNumber decimalNumber singleQuotedString operator at h
  dsimp only at h
  repeat' split at h
  all_goals cases h <;> rfl

theorem embeddedOffset_rest {cs : List Char} {f : ScanFault} (h : embeddedOffset cs = .error f) :
    f.rest = cs := by
  unfold embeddedOffset at h
  repeat' split at h
  all_goals cases h <;> rfl

theorem embeddedVariable_rest {cs : List Char} {f : ScanFault}
    (h : embeddedVariable cs = .error f) : f.rest <:+ cs := by
  unfold embeddedVariable at h
  dsimp only at h
  split at h
  · next rest hrest =>
      have hsuffix : rest <:+ cs :=
        (List.suffix_cons '[' rest).trans (hrest ▸ List.drop_suffix _ cs)
      split at h
      · next f' hoffset =>
          cases h
          rwa [embeddedOffset_rest hoffset]
      · split at h
        · cases h
        · cases h
          exact (List.drop_suffix _ rest).trans hsuffix
  · split at h <;> cases h
  · cases h

theorem step_rest {mode : Mode} {cs : List Char} {f : ScanFault} (h : step mode cs = .error f) :
    f.rest <:+ cs := by
  have hcode : ∀ mode, codeStep mode cs = .error f → f.rest <:+ cs := by
    intro mode h
    unfold codeStep doubleQuoted at h
    dsimp only at h
    split at h
    · cases h
    · split at h
      · cases h
      · cases h
      · split at h <;> cases h
        exact List.suffix_refl _
      · exact ⟨[], read_rest (eq_error_of_map_eq_error h)⟩
  cases mode with
  | text opening outer =>
      change textStep opening outer cs = .error f at h
      unfold textStep at h
      split at h
      · cases h
      · cases h
      · split at h
        · exact embeddedVariable_rest (eq_error_of_map_eq_error h)
        · cases h
  | _ => exact hcode _ h

/-- The strings that are open start in the source. -/
def Mode.StandsIn (source : List Char) : Mode → Prop
  | .code => True
  | .hole _ outer => outer.StandsIn source
  | .text opening outer => opening <:+ source ∧ outer.StandsIn source

theorem Mode.StandsIn.turns {source cs : List Char} {mode next : Mode} (h : mode.StandsIn source)
    (hcs : cs <:+ source) (hnext : Turns cs mode next) : next.StandsIn source := by
  cases hnext with
  | stay => exact h
  | openBrace => cases mode <;> exact h
  | closeBrace =>
      cases mode with
      | hole braces outer => cases braces <;> exact h
      | _ => exact h
  | openString => exact ⟨hcs, h⟩
  | closeString => exact h.2
  | openHole => exact h

theorem Mode.StandsIn.openString? {source opening : List Char} {mode : Mode}
    (h : mode.StandsIn source) (hopen : mode.openString? = some opening) : opening <:+ source := by
  induction mode with
  | code => cases hopen
  | hole braces outer ih => exact ih h hopen
  | text opening' outer =>
      cases hopen
      exact h.1

theorem scanFrom_rest {source cs : List Char} {mode : Mode} {skip : Nat} {f : ScanFault}
    (hmode : mode.StandsIn source) (hcs : cs <:+ source) (h : scanFrom mode skip cs = .error f) :
    f.rest <:+ source := by
  induction cs generalizing mode skip with
  | nil =>
      unfold scanFrom at h
      split at h
      · next opening hopen =>
          cases h
          exact hmode.openString? hopen
      · cases h
  | cons c cs ih =>
      have hrest : cs <:+ source := (List.suffix_cons c cs).trans hcs
      cases skip with
      | succ skip => exact ih hmode hrest h
      | zero =>
          unfold scanFrom at h
          dsimp only at h
          split at h
          · next f' hstep =>
              cases h
              exact (step_rest hstep).trans hcs
          · next ps next hstep =>
              split at h
              · next f' hrun =>
                  cases h
                  exact ih (hmode.turns hcs (step_turns hstep)) hrest hrun
              · cases h

end Scanner

/-! ## Shifted places -/

/-- The place some bytes and lines further on. -/
def Position.shifted (bytes lines : Nat) (p : Position) : Position :=
  { p with offset := p.offset + bytes, line := p.line + lines }

def Location.shifted (bytes lines : Nat) (l : Location) : Location :=
  { l with offset := l.offset + bytes, line := l.line + lines }

def Token.shifted (bytes lines : Nat) (t : Token) : Token :=
  { t with location := t.location.shifted bytes lines }

def ParseError.shifted (bytes lines : Nat) (e : ParseError) : ParseError :=
  { e with location := e.location.shifted bytes lines }

section Shifts

variable (bytes lines : Nat)

theorem Position.advance_shifted (p : Position) (c : Char) :
    (p.shifted bytes lines).advance c = (p.advance c).shifted bytes lines := by
  unfold advance shifted
  split
  · simp only [Position.mk.injEq, and_true]
    omega
  · simp only [Position.mk.injEq, and_true]
    omega

theorem Position.after_shifted (p : Position) (cs : List Char) :
    (p.shifted bytes lines).after cs = (p.after cs).shifted bytes lines := by
  induction cs generalizing p with
  | nil => rfl
  | cons c cs ih => rw [after_cons, after_cons, advance_shifted, ih]

theorem Piece.place_shifted (p : Position) (ps : List Piece) :
    place (p.shifted bytes lines) ps = (place p ps).map (Token.shifted bytes lines) := by
  induction ps generalizing p with
  | nil => rfl
  | cons q ps ih =>
      cases q with
      | blank text =>
          rw [place, Position.after_shifted]
          exact ih (p.after text)
      | lexeme kind text =>
          rw [place, Position.after_shifted, ih, place]
          rfl

theorem Position.line_after (p : Position) (cs : List Char) :
    (p.after cs).line = p.line + cs.count '\n' := by
  induction cs generalizing p with
  | nil => rfl
  | cons c cs ih =>
      rw [after_cons, ih, advance, List.count_cons]
      split
      · next hc =>
          subst hc
          simp only [beq_self_eq_true, if_true]
          omega
      · next hc => simp [hc]

/-- A line starts like the first one, so many bytes and lines further on. -/
theorem Position.advance_lineBreak (cs : List Char) :
    (start.after cs).advance '\n' = start.shifted (byteLength cs + 1) (cs.count '\n' + 1) := by
  have hoffset := Position.offset_after start cs
  have hline := Position.line_after start cs
  rw [advance, if_pos rfl, hoffset, hline]
  simp only [shifted, start, Position.mk.injEq, and_true]
  exact ⟨rfl, rfl⟩

end Shifts

/-- A fault behind a line break is the one of the text behind it, at a shifted place. -/
theorem ScanFault.toParseError_lineBreak {f : ScanFault} (cs : List Char) {ds : List Char}
    (h : f.rest <:+ ds) : f.toParseError (cs ++ '\n' :: ds)
      = (f.toParseError ds).shifted (byteLength cs + 1) (cs.count '\n' + 1) := by
  have hlen := h.length_le
  have htake : (cs ++ '\n' :: ds).take ((cs ++ '\n' :: ds).length - f.rest.length)
      = cs ++ '\n' :: ds.take (ds.length - f.rest.length) := by
    have hcount : (cs ++ '\n' :: ds).length - f.rest.length
        = cs.length + (ds.length - f.rest.length + 1) := by
      rw [List.length_append, List.length_cons]
      omega
    rw [hcount, List.take_length_add_append, List.take_succ_cons]
  have hplace : Position.start.after (cs ++ '\n' :: ds.take (ds.length - f.rest.length))
      = (Position.start.after (ds.take (ds.length - f.rest.length))).shifted (byteLength cs + 1)
        (cs.count '\n' + 1) := by
    rw [Position.after_append, Position.after_cons, Position.advance_lineBreak,
      Position.after_shifted]
  unfold toParseError
  rw [htake, hplace]
  rfl

theorem tokenize_eq (source : String) :
    tokenize source = match Scanner.tokensFrom .code .start source.toList with
      | .ok ts => .ok ts
      | .error f => .error (f.toParseError source.toList) := by
  unfold tokenize Scanner.tokensFrom Scanner.scan
  cases Scanner.scanFrom .code 0 source.toList <;> rfl

theorem tokenize_eq_ok_iff {source : String} {ts : List Token} :
    tokenize source = .ok ts ↔ Scanner.tokensFrom .code .start source.toList = .ok ts := by
  rw [tokenize_eq]
  cases Scanner.tokensFrom .code .start source.toList <;> simp

theorem toList_lineBreak (source more : String) :
    (source ++ "\n" ++ more).toList = source.toList ++ '\n' :: more.toList := by
  rw [String.toList_append, String.toList_append, List.append_assoc]
  rfl

/-- A fault of the scanner keeps the source from the fault on. -/
theorem Scanner.tokensFrom_rest {p : Position} {cs : List Char} {f : ScanFault}
    (h : tokensFrom .code p cs = .error f) : f.rest <:+ cs := by
  have hcode : Mode.code.StandsIn cs := trivial
  exact scanFrom_rest hcode (List.suffix_refl cs) (eq_error_of_map_eq_error h)

/-- The tokens of a text that stands further on. -/
theorem Scanner.tokensFrom_shifted (bytes lines : Nat) (mode : Mode) (p : Position)
    (cs : List Char) : tokensFrom mode (p.shifted bytes lines) cs
      = (tokensFrom mode p cs).map (List.map (Token.shifted bytes lines)) := by
  unfold tokensFrom
  cases scanFrom mode 0 cs with
  | error f => rfl
  | ok ps => exact congrArg Except.ok (Piece.place_shifted bytes lines p ps)

/-- **Tokenizing goes line by line.** If a source is tokenized, then with a line break and more
text behind it the tokens are its own without the end of the input, and then those of the text, so
many bytes and lines further on. If the text is not tokenized, its fault is found, at the place
that is shifted in this way. -/
theorem tokenize_goes_line_by_line {source : String} {ts : List Token}
    (h : tokenize source = .ok ts) (more : String) :
    tokenize (source ++ "\n" ++ more) = match tokenize more with
      | .ok us => .ok (ts.dropLast ++ us.map
          (Token.shifted (source.utf8ByteSize + 1) (source.toList.count '\n' + 1)))
      | .error e => .error
          (e.shifted (source.utf8ByteSize + 1) (source.toList.count '\n' + 1)) := by
  have hclosed := tokenize_eq_ok_iff.mp h
  rw [tokenize_eq, tokenize_eq, toList_lineBreak]
  have hcode : Scanner.Mode.code.Grounded := trivial
  cases Scanner.continues more.toList hcode .start source.toList with
  | inString hf | fault hf =>
      rw [hclosed] at hf
      cases hf
  | closed hts _ hmore =>
      obtain rfl : ts = _ := Except.ok.inj (hclosed.symm.trans hts)
      rw [Position.advance_lineBreak, Scanner.tokensFrom_shifted, byteLength_toList] at hmore
      rw [show Scanner.Mode.before ('\n' :: more.toList) .code = .code from rfl] at hmore
      rw [hmore]
      cases hrun : Scanner.tokensFrom .code .start more.toList with
      | ok us => rfl
      | error f =>
          have hrest : f.rest <:+ more.toList := Scanner.tokensFrom_rest hrun
          rw [← byteLength_toList]
          exact congrArg Except.error (ScanFault.toParseError_lineBreak source.toList hrest)

/-- Behind `"é$a" .` and an empty line the variable `$b` stands in the third line; a string that
is not closed there is a fault in the third line. -/
theorem third_line_is_tokenized :
    tokenize "\"é$a\" .\n\n $b" = .ok
      [⟨.quote, "\"", ⟨0, 1, 1, 1⟩⟩, ⟨.fragment, "é", ⟨1, 2, 1, 2⟩⟩,
       ⟨.variable, "$a", ⟨3, 2, 1, 3⟩⟩, ⟨.quote, "\"", ⟨5, 1, 1, 5⟩⟩, ⟨.dot, ".", ⟨7, 1, 1, 7⟩⟩,
       ⟨.variable, "$b", ⟨11, 2, 3, 2⟩⟩, ⟨.eof, "", ⟨13, 0, 3, 4⟩⟩] ∧
    tokenize "\"é$a\" .\n\n 'b" = .error ⟨.unterminatedString "'", ⟨11, 1, 3, 2⟩⟩ := by
  have hrun : tokenize "\"é$a\" .\n" = .ok
      [⟨.quote, "\"", ⟨0, 1, 1, 1⟩⟩, ⟨.fragment, "é", ⟨1, 2, 1, 2⟩⟩,
       ⟨.variable, "$a", ⟨3, 2, 1, 3⟩⟩, ⟨.quote, "\"", ⟨5, 1, 1, 5⟩⟩, ⟨.dot, ".", ⟨7, 1, 1, 7⟩⟩,
       ⟨.eof, "", ⟨9, 0, 2, 1⟩⟩] := rfl
  have hvariable : tokenize " $b"
      = .ok [⟨.variable, "$b", ⟨1, 2, 1, 2⟩⟩, ⟨.eof, "", ⟨3, 0, 1, 4⟩⟩] := rfl
  have hopen : tokenize " 'b" = .error ⟨.unterminatedString "'", ⟨1, 1, 1, 2⟩⟩ := rfl
  constructor
  · have hlines := tokenize_goes_line_by_line hrun " $b"
    rw [hvariable] at hlines
    exact hlines
  · have hlines := tokenize_goes_line_by_line hrun " 'b"
    rw [hopen] at hlines
    exact hlines

end GuardedExpr
