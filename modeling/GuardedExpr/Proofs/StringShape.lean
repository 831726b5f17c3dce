/-
# String shape — how the tokens of strings nest

The tokens of a source are a word of this grammar, in which strings and code hold one
another to any depth:

    source    (token | brace | string)* eof
    string    quote parts quote             with a simple group or a hole among the parts
    parts     (fragment | simple group | hole)*
    hole      { code }
    code      (token | { code } | string)*

A token stands for one that is no brace, quote, fragment or end of the input.  Braces
outside of strings need not match, so they are in the first line one by one.  A simple
group is a variable with one offset or property at most (`Embedded`).

`Lexed fs ts` tells where the single tokens may stand, given the frames that are open;
read from the end, it says how each frame is closed (`Shaped`).
-/
import GuardedExpr.Proofs.Legible

namespace GuardedExpr

/-- Kinds that stand in code, are no braces and start no string. -/
def TokenKind.isOfCode (k : TokenKind) : Bool := k.isPlain && k != .fragment

mutual

/-- Code in which every brace has its partner. -/
inductive IsCode : List Token → Prop
  | nil : IsCode []
  | token {t : Token} {ts : List Token} : t.kind.isOfCode = true → IsCode ts → IsCode (t :: ts)
  | braces {l r : Token} {us ts : List Token} : l.kind = .lbrace → IsCode us →
      r.kind = .rbrace → IsCode ts → IsCode (l :: (us ++ r :: ts))
  | string {us ts : List Token} : IsString us → IsCode ts → IsCode (us ++ ts)

/-- An opening quote, parts among which something is embedded, and the closing quote. -/
inductive IsString : List Token → Prop
  | quoted {l r : Token} {us : List Token} : l.kind = .quote → IsParts true us →
      r.kind = .quote → IsString (l :: (us ++ [r]))

/-- The parts of a string, and whether something is embedded among them. -/
inductive IsParts : Bool → List Token → Prop
  | nil : IsParts false []
  | fragment {t : Token} {ts : List Token} {embeds : Bool} : t.kind = .fragment →
      IsParts embeds ts → IsParts embeds (t :: ts)
  | group {us ts : List Token} {embeds : Bool} : Embedded us → IsParts embeds ts →
      IsParts true (us ++ ts)
  | hole {l r : Token} {us ts : List Token} {embeds : Bool} : l.kind = .lbrace → IsCode us →
      r.kind = .rbrace → IsParts embeds ts → IsParts true (l :: (us ++ r :: ts))

end

/-- The tokens of a source. -/
inductive IsSource : List Token → Prop
  | eof {t : Token} : t.kind = .eof → IsSource [t]
  | token {t : Token} {ts : List Token} : t.kind.isOfCode = true → IsSource ts → IsSource (t :: ts)
  | brace {t : Token} {ts : List Token} : t.kind ∈ [TokenKind.lbrace, .rbrace] → IsSource ts →
      IsSource (t :: ts)
  | string {us ts : List Token} : IsString us → IsSource ts → IsSource (us ++ ts)

theorem IsCode.append {us ts : List Token} (hus : IsCode us) (hts : IsCode ts) :
    IsCode (us ++ ts) := by
  match hus with
  | .nil => exact hts
  | .token ht hus => exact .token ht (hus.append hts)
  | .braces hl hin hr hus =>
      rw [List.cons_append, List.append_assoc, List.cons_append]
      exact .braces hl hin hr (hus.append hts)
  | .string hin hus =>
      rw [List.append_assoc]
      exact .string hin (hus.append hts)

theorem IsSource.append_code {us ts : List Token} (hus : IsCode us) (hts : IsSource ts) :
    IsSource (us ++ ts) := by
  match hus with
  | .nil => exact hts
  | .token ht hus => exact .token ht (hts.append_code hus)
  | .braces hl hin hr hus =>
      rw [List.cons_append, List.append_assoc, List.cons_append]
      refine .brace (by simp [hl]) (IsSource.append_code hin ?_)
      exact .brace (by simp [hr]) (hts.append_code hus)
  | .string hin hus =>
      rw [List.append_assoc]
      exact .string hin (hts.append_code hus)

/-- Where a hole or a group comes behind fragments, something is embedded. -/
theorem IsParts.embeds {embeds : Bool} {us rest : List Token} {r : Token} (hus : IsParts embeds us)
    (hr : r.kind = .quote) (hahead : HoleAhead (us ++ r :: rest)) : embeds = true := by
  have hnone : ∀ {t : Token}, t.kind ∈ [TokenKind.quote, .fragment] → ¬ t.StartsHole := by
    rintro t ht (hkind | hkind) <;>
    · rw [hkind] at ht
      exact absurd ht (by decide)
  match hus with
  | .nil =>
      cases hahead with
      | here hstart => exact absurd hstart (hnone (by simp [hr]))
      | behind hkind =>
          rw [hr] at hkind
          cases hkind
  | .fragment ht hus =>
      cases hahead with
      | here hstart => exact absurd hstart (hnone (by simp [ht]))
      | behind _ hahead => exact hus.embeds hr hahead
  | .group .. => rfl
  | .hole .. => rfl

/-! ## Frames that are closed -/

/-- Tokens up to the end of the input that close the frames one after the other. -/
inductive Shaped : List Frame → List Token → Prop
  | source {ts : List Token} : IsSource ts → Shaped [] ts
  | hole {fs : List Frame} {us rest : List Token} {r : Token} : IsCode us → r.kind = .rbrace →
      Shaped fs rest → Shaped (.hole 0 :: fs) (us ++ r :: rest)
  | braces {fs : List Frame} {braces : Nat} {us rest : List Token} {r : Token} : IsCode us →
      r.kind = .rbrace → Shaped (.hole braces :: fs) rest →
      Shaped (.hole (braces + 1) :: fs) (us ++ r :: rest)
  | text {fs : List Frame} {us rest : List Token} {r : Token} {embeds : Bool} :
      IsParts embeds us → r.kind = .quote → Shaped fs rest → Shaped (.text :: fs) (us ++ r :: rest)

section Frames

variable {fs : List Frame} {ts us : List Token} {t : Token}

/-- More code in front leaves the frames as they are. -/
theorem Shaped.append_code (hus : IsCode us) (hcode : fs.head? ≠ some .text)
    (hts : Shaped fs ts) : Shaped fs (us ++ ts) := by
  cases hts with
  | source hts => exact .source (hts.append_code hus)
  | hole hin hr hrest =>
      rw [← List.append_assoc]
      exact .hole (hus.append hin) hr hrest
  | braces hin hr hrest =>
      rw [← List.append_assoc]
      exact .braces (hus.append hin) hr hrest
  | text => exact absurd rfl hcode

theorem Shaped.lbrace (ht : t.kind = .lbrace) (hcode : fs.head? ≠ some .text)
    (hts : Shaped (t.kind.framesAfter fs) ts) : Shaped fs (t :: ts) := by
  rw [ht] at hts
  match fs, hcode with
  | [], _ =>
      cases hts with
      | source hts => exact .source (.brace (by simp [ht]) hts)
  | .hole n :: fs, _ =>
      cases hts with
      | @braces _ _ us rest r hus hr hrest =>
          -- the brace that closes this one ends the code of the frame no more
          rw [← List.cons_append]
          have hgroup : IsCode (t :: (us ++ [r])) := .braces ht hus hr .nil
          have hshape := hrest.append_code hgroup (by simp)
          simpa using hshape

theorem Shaped.rbrace (ht : t.kind = .rbrace) (hcode : fs.head? ≠ some .text)
    (hts : Shaped (t.kind.framesAfter fs) ts) : Shaped fs (t :: ts) := by
  rw [ht] at hts
  match fs, hcode with
  | [], _ =>
      cases hts with
      | source hts => exact .source (.brace (by simp [ht]) hts)
  | .hole 0 :: fs, _ => exact .hole .nil ht hts
  | .hole (n + 1) :: fs, _ => exact .braces .nil ht hts

/-- A string in code: from its opening quote to the quote that closes the frame. -/
theorem Shaped.opening (ht : t.kind = .quote) (hahead : HoleAhead ts)
    (hcode : fs.head? ≠ some .text) (hts : Shaped (.text :: fs) ts) : Shaped fs (t :: ts) := by
  cases hts with
  | @text _ us rest r embeds hus hr hrest =>
      obtain rfl : embeds = true := hus.embeds hr hahead
      have hstring : IsCode (t :: (us ++ [r])) := by
        rw [← List.append_nil (t :: (us ++ [r]))]
        exact .string (.quoted ht hus hr) .nil
      have hshape := hrest.append_code hstring hcode
      simpa using hshape

/-- One more part of a string in front. -/
theorem Shaped.part (hpart : ∀ {embeds us}, IsParts embeds us →
      ∃ embeds', IsParts embeds' (ts ++ us)) {rest : List Token}
    (hrest : Shaped (.text :: fs) rest) : Shaped (.text :: fs) (ts ++ rest) := by
  cases hrest with
  | text hus hr hrest =>
      obtain ⟨embeds', hparts⟩ := hpart hus
      rw [← List.append_assoc]
      exact .text hparts hr hrest

theorem Token.InCode.isOfCode (h : t.InCode) : t.kind.isOfCode = true := by
  rw [TokenKind.isOfCode, h.isPlain, Bool.true_and, bne_iff_ne]
  cases h with
  | operand h =>
      intro hkind
      have hword := h.isWord (by simp [hkind])
      rw [hkind] at hword
      cases hword
  | string h => simp [h.1]
  | operator h =>
      have hall : ∀ o ∈ Lexeme.operators, o.2 ≠ .fragment := by decide
      exact hall _ h
  | cast h => simp [h]

theorem framesBehind_cons (fs : List Frame) (t : Token) (ts : List Token) :
    framesBehind fs (t :: ts) = framesBehind (t.kind.framesAfter fs) ts := rfl

theorem framesBehind_of_isPlain (h : ∀ t ∈ us, t.kind.isPlain = true) (fs : List Frame) :
    framesBehind fs us = fs := by
  induction us with
  | nil => rfl
  | cons t us ih =>
      rw [List.forall_mem_cons] at h
      rw [framesBehind_cons, TokenKind.framesAfter_of_isPlain h.1, ih h.2]

theorem Token.IsOffset.isPlain (h : t.IsOffset) : t.kind.isPlain = true := by
  cases h with
  | digits h => rw [h.1]; rfl
  | sigil h => rw [h.1]; rfl
  | word h => rw [h]; rfl

/-- No token of a group opens or closes anything. -/
theorem Embedded.isPlain (h : Embedded us) : ∀ t ∈ us, t.kind.isPlain = true := by
  cases h with
  | alone hv => simp [hv.1, TokenKind.isPlain]
  | offset hv hbracket _ ho hclose =>
      have hplain := ho.isPlain
      simp only [List.forall_mem_cons, hv.1, hbracket, hplain, hclose]
      exact ⟨rfl, rfl, trivial, rfl, by simp⟩
  | negative hv hbracket _ hminus _ hds hclose =>
      simp [hv.1, hbracket, hminus, hds.1, hclose, TokenKind.isPlain]
  | property hv harrow _ hname => simp [hv.1, harrow, hname, TokenKind.isPlain]

/-- **Lexed tokens are shaped** where all frames are closed at the end. -/
theorem Lexed.shaped (h : Lexed fs ts) (hclosed : framesBehind fs ts = []) : Shaped fs ts := by
  induction h with
  | eof _ heof =>
      rw [framesBehind_cons, heof] at hclosed
      obtain rfl : _ = [] := hclosed
      exact .source (.eof heof)
  | code hcode hin _ ih =>
      rw [framesBehind_cons, TokenKind.framesAfter_of_isPlain hin.isPlain] at hclosed
      have htoken : IsCode [_] := .token hin.isOfCode .nil
      exact (ih hclosed).append_code htoken hcode
  | brace hcode hbrace _ ih =>
      simp only [List.mem_cons, List.not_mem_nil, or_false] at hbrace
      rcases hbrace with hkind | hkind
      · exact .lbrace hkind hcode (ih hclosed)
      · exact .rbrace hkind hcode (ih hclosed)
  | @opening fs t ts hcode hquote hahead _ ih =>
      rw [framesBehind_cons, hquote.1, TokenKind.framesAfter_quote hcode] at hclosed
      exact .opening hquote.1 hahead hcode (ih hclosed)
  | closing hquote _ ih =>
      rw [framesBehind_cons, hquote.1] at hclosed
      exact .text .nil hquote.1 (ih hclosed)
  | run hrun _ _ ih =>
      rw [framesBehind_cons, hrun.1] at hclosed
      have hpart : ∀ {embeds us}, IsParts embeds us → ∃ embeds', IsParts embeds' ([_] ++ us) :=
        fun hus => ⟨_, .fragment hrun.1 hus⟩
      exact (ih hclosed).part hpart
  | @hole fs t v ts hbrace _ _ ih =>
      rw [framesBehind_cons, hbrace] at hclosed
      have hrest : Shaped (.hole 0 :: .text :: fs) (v :: ts) := ih hclosed
      generalize v :: ts = ts at hrest
      cases hrest with
      | @hole _ us rest r hin hr hrest =>
          have hshape : Shaped (.text :: fs) ((t :: (us ++ [r])) ++ rest) := by
            refine hrest.part fun {_ ps} hps => ⟨true, ?_⟩
            have hparts : IsParts true (t :: (us ++ r :: ps)) := .hole hbrace hin hr hps
            simpa using hparts
          simpa using hshape
  | @embedded fs v us ts hus _ ih =>
      rw [← List.cons_append] at hclosed ⊢
      rw [framesBehind_append, framesBehind_of_isPlain hus.isPlain] at hclosed
      exact (ih hclosed).part fun hps => ⟨true, .group hus hps⟩

end Frames

/-! ## Sources -/

/-- Every hole is open in the text of a string. -/
inductive Framed : List Frame → Prop
  | nil : Framed []
  | text {fs : List Frame} : Framed fs → Framed (.text :: fs)
  | hole {fs : List Frame} (braces : Nat) : Framed fs → Framed (.hole braces :: .text :: fs)

theorem Framed.framesAfter {fs : List Frame} (h : Framed fs) (k : TokenKind) :
    Framed (k.framesAfter fs) := by
  unfold TokenKind.framesAfter
  split
  · cases h with
    | text h => exact h
  · exact .text h
  · cases h with
    | text h => exact .hole 0 h
  · cases h with
    | hole _ h => exact .hole _ h
  · cases h with
    | hole _ h => exact .text h
  · cases h with
    | hole _ h => exact .hole _ h
  · exact h

theorem Framed.framesBehind {fs : List Frame} (h : Framed fs) (ts : List Token) :
    Framed (framesBehind fs ts) := by
  induction ts generalizing fs with
  | nil => exact h
  | cons t ts ih => exact ih (h.framesAfter t.kind)

/-- Without text of a string nothing is open. -/
theorem Framed.eq_nil {fs : List Frame} (h : Framed fs) (htext : .text ∉ fs) : fs = [] := by
  cases h with
  | nil => rfl
  | text => exact absurd List.mem_cons_self htext
  | hole => exact absurd (List.mem_cons_of_mem _ List.mem_cons_self) htext

/-- All that is opened in a source is closed. -/
theorem framesBehind_of_tokenize {source : String} {ts : List Token}
    (h : tokenize source = .ok ts) : framesBehind [] ts = [] := by
  unfold tokenize at h
  split at h
  · cases h
  · next ps hscan =>
      cases h
      obtain ⟨-, fs, hquoted, hclosed⟩ := Scanner.scan_covers hscan
      have hbehind := Piece.framesBehind_place hquoted .start
      have hframed : Framed fs := hbehind ▸ Framed.nil.framesBehind _
      obtain rfl := hframed.eq_nil hclosed
      obtain ⟨body, hbody, -⟩ := Piece.place_eq_append hquoted Position.start
      rw [hbody, List.dropLast_concat] at hbehind
      rw [hbody, framesBehind_append, hbehind]
      rfl

/-- **The tokens of a source nest** as the grammar says. -/
theorem isSource_of_tokenize {source : String} {ts : List Token} (h : tokenize source = .ok ts) :
    IsSource ts := by
  have hshaped := (lexed_of_tokenize h).shaped (framesBehind_of_tokenize h)
  cases hshaped with
  | source hts => exact hts

end GuardedExpr
