/-
# Progress — the counting parser ends, and does what the grammar says

A routine that opens a level leads to routines with one level less to go, and one that
opens none calls only routines that are tighter; a loop goes on only behind a token that
it has passed.  So every run ends.  The proof is by induction on the levels to go, then
on the list of rules, and for the loops over arguments, elements and parts of a string
on the tokens that are left.
-/
import GuardedExpr.Proofs.Tracking

namespace GuardedExpr

open Grammar

/-- No rule has the end of the input for an operator. -/
theorem Grammar.eof_notMem_kinds {r : Rule} (hr : r ∈ rules) : .eof ∉ r.kinds := by
  have hall : ∀ r ∈ rules, TokenKind.eof ∉ r.kinds := by decide
  exact hall r hr

namespace Routine

variable {limit c depth : Nat} {σ : Scope} {α : Type}

/-- With `c` levels open and `depth` to go, the runs of a routine follow its parser. -/
def Agrees (limit c depth : Nat) (r : Routine σ α) : Prop :=
  ∀ tr, tr.At c →
    Tracks limit σ r.advances (fun calls => r.execute limit calls) (r.parser limit depth) tr

/-- One call of a routine for what it does. -/
theorem agrees_of_body {r : Routine σ α}
    (h : ∀ tr, tr.At c →
      Tracks limit σ r.advances (fun calls => r.body limit fun r' => r'.execute limit calls)
        (r.parser limit depth) tr) :
    Agrees limit c depth r := fun tr ht => (h tr ht).of_succ fun _ => rfl

theorem Agrees.expression (h : Agrees limit c depth expression) {tr : Trail} (ht : tr.At c) :
    Tracks limit .kept true (fun calls => Routine.expression.execute limit calls)
      (Grammar.expression (ofDepth limit depth)) tr := by
  have htracks := h tr ht
  cases depth with
  | zero => exact htracks
  | succ depth => exact htracks

/-- What is known of the routines one level further in. -/
structure Deeper (limit c depth : Nat) : Prop where
  total : c + depth = limit
  agrees : ∀ depth', depth = depth' + 1 →
    ∀ {σ : Scope} {α : Type} (r : Routine σ α), r.InGrammar → Agrees limit (c + 1) depth' r

theorem leftNested_agrees {r : Routine .raised Expr} (h : Agrees limit c depth r) :
    Agrees limit c depth (.leftNested r) :=
  agrees_of_body fun tr ht => (h tr ht).leftNested

section Level

variable (h : Deeper limit c depth)
include h

/-- One more level for a routine. -/
theorem nested_agrees {r : Routine .kept Expr} (hr : r.InGrammar) :
    Agrees limit c depth (.nested r) := by
  apply agrees_of_body
  intro tr ht
  have htotal := h.total
  cases depth with
  | zero => exact .tooDeep ht (by omega)
  | succ depth =>
      exact .nested ht (by omega) (h.agrees depth rfl r hr _ (ht.count _))

theorem expression_tracks {tr : Trail} (ht : tr.At c) :
    Tracks limit .kept true (fun calls => expression.execute limit calls)
      (Grammar.expression (ofDepth limit depth)) tr :=
  Agrees.expression (nested_agrees h trivial) ht

theorem nestedLevel_tracks {rs : List Rule} (hrs : rs ⊆ rules) {tr : Trail} (ht : tr.At c) :
    Tracks limit .kept true (fun calls => (nested (.level rs)).execute limit calls)
      ((ofDepth limit depth).level rs) tr := by
  have hnested := nested_agrees h (r := .level rs) hrs tr ht
  cases depth with
  | zero => exact hnested
  | succ depth => exact hnested

/-- One more level in a loop, where the grammar goes on with the parsers of the next level. -/
theorem descend_tracks {moves : Bool} {p : Nat → Counting α} (q : Inner → Parser α)
    (hq : q (exhausted limit) = tooDeep limit) {tr : Trail} (ht : tr.At c)
    (hdeeper : ∀ depth', depth = depth' + 1 →
      Tracks limit .raised moves p (q (around (ofDepth limit depth'))) (tr.count (c + 1))) :
    Tracks limit .raised moves (fun calls => Counting.descend limit >>= fun _ => p calls)
      (q (ofDepth limit depth)) tr := by
  have htotal := h.total
  cases depth with
  | zero =>
      show Tracks _ _ _ _ (q (exhausted limit)) _
      rw [hq]
      exact .tooDeep ht (by omega)
  | succ depth => exact .descend ht (by omega) (hdeeper depth rfl)

/-! ### Lists -/

theorem argumentItems_tracks : ∀ (most : Nat) {tr : Trail}, tr.At c → tr.left < most →
    Tracks limit .kept false (fun calls => execute limit calls .argumentItems)
      (Grammar.argumentItems (ofDepth limit depth) most) tr
  | 0, _, _, hmost => absurd hmost (Nat.not_lt_zero _)
  | most + 1, tr, ht, hmost => by
    refine Tracks.of_succ ?_ fun _ => rfl
    refine .peek (.ite (fun _ => .done []) fun _ => ?_)
    refine .optional (by decide) ht fun mark tr₁ ht₁ hleft₁ => ?_
    refine .moving ht₁ (expression_tracks h ht₁) fun value tr₂ ht₂ hleft₂ => ?_
    -- the expression has passed a token, so the bound suffices for the rest
    exact .moreItems ht₂ fun tr₃ ht₃ hleft₃ => argumentItems_tracks most ht₃ (by omega)

theorem arguments_agrees : Agrees limit c depth .arguments := by
  apply agrees_of_body
  intro tr ht
  have hitems := argumentItems_tracks h _ ht (Nat.lt_succ_self _)
  exact (Tracks.closing (by nofun) ht hitems).congr (fun _ => rfl) rfl

theorem elementItems_tracks (close : TokenKind) :
    ∀ (most : Nat) {tr : Trail}, tr.At c → tr.left < most →
      Tracks limit .kept false (fun calls => execute limit calls (.elementItems close))
        (Grammar.elementItems (ofDepth limit depth) close most) tr
  | 0, _, _, hmost => absurd hmost (Nat.not_lt_zero _)
  | most + 1, tr, ht, hmost => by
    refine Tracks.of_succ ?_ fun _ => rfl
    refine .peek (.ite (fun _ => .done []) fun _ => ?_)
    have hmore : ∀ (element : Element) {tr' : Trail}, tr'.At c → tr'.left < tr.left →
        Tracks limit .kept false _
          (moreItems element (Grammar.elementItems (ofDepth limit depth) close most)) tr' :=
      fun element tr' ht' hleft' => .moreItems ht' fun tr₁ ht₁ hleft₁ =>
        elementItems_tracks close most ht₁ (by omega)
    refine .moving ht (expression_tracks h ht) fun first tr₁ ht₁ hleft₁ => ?_
    refine .accept (by decide) ht₁ ?_ (hmore (.item first) ht₁ (by omega))
    have hpass := tr₁.left_pass_le
    refine .moving ht₁.pass (expression_tracks h ht₁.pass) fun value tr₂ ht₂ hleft₂ => ?_
    exact hmore (.pair first value) ht₂ (by omega)

theorem arrayElements_agrees {close : TokenKind} (hclose : close ≠ .eof) (expected : String) :
    Agrees limit c depth (.arrayElements close expected) := by
  apply agrees_of_body
  intro tr ht
  have hitems := elementItems_tracks h close _ ht (Nat.lt_succ_self _)
  exact (Tracks.closing hclose ht hitems).congr (fun _ => rfl) rfl

/-! ### Strings -/

omit h in
theorem embeddedOffset_tracks {tr : Trail} (ht : tr.At c) :
    Tracks limit .kept false (fun _ => Counting.embeddedOffset) Grammar.embeddedOffset tr := by
  refine .next ht nofun ?_
  cases hkind : tr.stream.current.kind with
  | minus => exact .expect (by nofun) _ ht.pass fun _ => .done _
  | integer | fragment | «variable» => exact .done _
  | _ => exact .fail _

omit h in
theorem embeddedVariable_tracks (var : Token) {tr : Trail} (ht : tr.At c) :
    Tracks limit .kept false (fun _ => Counting.embeddedVariable var)
      (Grammar.embeddedVariable var) tr := by
  refine .accept (by decide) ht ?_ ?_
  · exact .closing (by nofun) ht.pass (embeddedOffset_tracks ht.pass)
  · refine .accept (by decide) ht ?_ (.done _)
    exact .expect (by nofun) _ ht.pass fun _ => .done _

theorem partItems_tracks : ∀ (most : Nat) {tr : Trail}, tr.At c → tr.left < most →
    Tracks limit .kept false (fun calls => execute limit calls .partItems)
      (Grammar.partItems (ofDepth limit depth) most) tr
  | 0, _, _, hmost => absurd hmost (Nat.not_lt_zero _)
  | most + 1, tr, ht, hmost => by
    refine Tracks.of_succ ?_ fun _ => rfl
    refine .peek ?_
    cases hkind : tr.stream.current.kind with
    | fragment =>
        have hpass := ht.left_pass_lt (hkind ▸ by nofun)
        exact .next ht nofun (.map ht.pass (partItems_tracks most ht.pass (by omega)))
    | «variable» =>
        have hpass := ht.left_pass_lt (hkind ▸ by nofun)
        refine .next ht nofun ?_
        refine .later ht.pass (embeddedVariable_tracks _ ht.pass) fun part tr₁ ht₁ hleft₁ => ?_
        exact .map ht₁ (partItems_tracks most ht₁ (by omega))
    | lbrace =>
        have hpass := ht.left_pass_lt (hkind ▸ by nofun)
        refine .next ht nofun ?_
        refine .moving ht.pass (expression_tracks h ht.pass) fun part tr₁ ht₁ hleft₁ => ?_
        refine .expect (by nofun) _ ht₁ fun _ => ?_
        have hpass₁ := tr₁.left_pass_le
        exact .map ht₁.pass (partItems_tracks most ht₁.pass (by omega))
    | _ => exact .done []

theorem interpolation_agrees (opening : Token) : Agrees limit c depth (.interpolation opening) := by
  apply agrees_of_body
  intro tr ht
  have hitems := partItems_tracks h _ ht (Nat.lt_succ_self _)
  exact (Tracks.closing (by nofun) ht hitems).congr (fun _ => rfl) rfl

/-! ### Operands -/

theorem primary_agrees : Agrees limit c depth .primary := by
  apply agrees_of_body
  intro tr ht
  refine .peek ?_
  have hpasses : ∀ {kind}, tr.stream.current.kind = kind → kind ≠ .eof →
    true = true → tr.stream.current.kind ≠ .eof := fun heq hne _ => heq ▸ hne
  cases hkind : tr.stream.current.kind with
  | integer | float | string | bool | null | «variable» =>
      exact .next ht (hpasses hkind (by nofun)) (.done _)
  | lparen =>
      refine .next ht (hpasses hkind (by nofun)) ?_
      exact .closing (by nofun) ht.pass (expression_tracks h ht.pass)
  | quote =>
      refine .next ht (hpasses hkind (by nofun)) ?_
      exact (interpolation_agrees h _ _ ht.pass).still
  | lbracket =>
      refine .next ht (hpasses hkind (by nofun)) ?_
      exact .map ht.pass (arrayElements_agrees h (by nofun) _ _ ht.pass).still
  | array =>
      refine .next ht (hpasses hkind (by nofun)) ?_
      refine .expect (by nofun) _ ht.pass fun _ => ?_
      exact .map ht.pass.pass (arrayElements_agrees h (by nofun) _ _ ht.pass.pass).still
  | identifier =>
      refine .next ht (hpasses hkind (by nofun)) ?_
      exact .peek (.ite (fun _ => .done _) fun _ => .unexpected _)
  | _ => exact .unexpected _

theorem memberName_agrees (op : Token) (isStatic : Bool) :
    Agrees limit c depth (.memberName op isStatic) := by
  apply agrees_of_body
  intro tr ht
  refine .peek (.ite (fun hword => ?_) fun _ => ?_)
  · refine .next ht (fun _ heof => ?_) (.done _)
    rw [heof] at hword
    cases hword
  refine .ite (fun hvariable => ?_) fun _ => ?_
  · refine .next ht (fun _ heof => ?_) (.done _)
    simp [heof] at hvariable
  refine .ite (fun hbrace => ?_) fun _ => .unexpected _
  refine .next ht (fun _ heof => ?_) ?_
  · simp [heof] at hbrace
  · exact .closing (by nofun) ht.pass (expression_tracks h ht.pass)

theorem member_agrees (target : Expr) (op : Token) (isStatic : Bool) :
    Agrees limit c depth (.member target op isStatic) := by
  apply agrees_of_body
  intro tr ht
  refine .moving ht (memberName_agrees h op isStatic tr ht) fun name tr₁ ht₁ _ => ?_
  exact .accept (by decide) ht₁ (.map ht₁.pass (arguments_agrees h _ ht₁.pass).still) (.done _)

/-- An operand of the same level, with its suffixes one level further in. -/
theorem moreSuffixes_agrees (e : Expr) : Agrees limit c depth (.moreSuffixes e) := by
  apply agrees_of_body
  intro tr ht
  refine .peek (.ite (fun _ => ?_) fun _ => .done e)
  refine descend_tracks h (fun inner => inner.suffix e) rfl ht fun depth' hdepth => ?_
  refine .next (ht.count _) nofun ?_
  have hpass := (ht.count (c + 1)).pass
  -- all suffixes go on with the loop, one level further in
  have hmember : ∀ isStatic, Tracks limit .kept true _ _ _ := fun isStatic =>
    h.agrees depth' hdepth (.member e tr.stream.current isStatic) trivial _ hpass
  have hmore : ∀ whole {tr₁ : Trail}, tr₁.At (c + 1) → Tracks limit .raised false _ _ tr₁ :=
    fun whole tr₁ ht₁ => h.agrees depth' hdepth (.moreSuffixes whole) trivial tr₁ ht₁
  cases (tr.count (c + 1)).stream.current.kind with
  | doubleColon => exact .later hpass (hmember true) fun whole _ ht₁ _ => hmore whole ht₁
  | arrow => exact .later hpass (hmember false) fun whole _ ht₁ _ => hmore whole ht₁
  | lbracket =>
      refine .later hpass ((h.agrees depth' hdepth expression trivial).expression hpass)
        fun offset _ ht₁ _ => ?_
      refine .expect (by nofun) _ ht₁ fun _ => ?_
      exact .later ht₁.pass (.done _) fun whole _ ht₂ _ => hmore whole ht₂
  | _ =>
      refine .later hpass (h.agrees depth' hdepth .arguments trivial _ hpass)
        fun args _ ht₁ _ => ?_
      exact .later ht₁ (.done _) fun whole _ ht₂ _ => hmore whole ht₂

theorem operand_agrees : Agrees limit c depth .operand := by
  apply agrees_of_body
  intro tr ht
  exact .moving ht (primary_agrees h tr ht) fun e _ ht₁ _ => moreSuffixes_agrees h e _ ht₁

/-! ### Chains -/

theorem moreInstanceOf_agrees (value : Expr) : Agrees limit c depth (.moreInstanceOf value) := by
  apply agrees_of_body
  intro tr ht
  refine .accept (by decide) ht ?_ (.done value)
  refine descend_tracks h (fun inner => inner.classOperand value tr.stream.current) rfl ht.pass
    fun depth' hdepth => ?_
  have hcount := ht.pass.count (c + 1)
  have hmore : ∀ cls {tr₁ : Trail}, tr₁.At (c + 1) → Tracks limit .raised false _ _ tr₁ :=
    fun cls _ ht₁ => h.agrees depth' hdepth
      (.moreInstanceOf (.instanceOf value tr.stream.current cls)) trivial _ ht₁
  refine .accept (by decide) hcount ?_ ?_
  · exact .later hcount.pass (.done _) fun cls _ ht₁ _ => hmore cls ht₁
  · exact .later hcount (h.agrees depth' hdepth (.leftNested .operand) trivial _ hcount)
      fun cls _ ht₁ _ => hmore cls ht₁

theorem instanceOf_agrees : Agrees limit c depth .instanceOf := by
  apply agrees_of_body
  intro tr ht
  exact .moving ht (leftNested_agrees (operand_agrees h) tr ht)
    fun value _ ht₁ _ => moreInstanceOf_agrees h value _ ht₁

theorem moreChain_agrees {ops : List TokenKind} {tighter : List Rule} (left : Expr)
    (hops : .left ops ∈ rules) (htighter : tighter ⊆ rules) :
    Agrees limit c depth (.moreChain ops tighter left) := by
  apply agrees_of_body
  intro tr ht
  refine .accept (eof_notMem_kinds hops) ht ?_ (.done left)
  refine descend_tracks h (fun inner => inner.chain ops tighter left tr.stream.current) rfl ht.pass
    fun depth' hdepth => ?_
  have hcount := ht.pass.count (c + 1)
  refine .later hcount (h.agrees depth' hdepth (.level tighter) htighter _ hcount)
    fun right _ ht₁ _ => ?_
  exact h.agrees depth' hdepth (.moreChain ops tighter (.binary left tr.stream.current right))
    ⟨hops, htighter⟩ _ ht₁

theorem chain_agrees {ops : List TokenKind} {tighter : List Rule} (hops : .left ops ∈ rules)
    (htighter : tighter ⊆ rules) (hlevel : Agrees limit c depth (.level tighter)) :
    Agrees limit c depth (.chain ops tighter) := by
  apply agrees_of_body
  intro tr ht
  exact .moving ht (hlevel tr ht) fun e _ ht₁ _ => moreChain_agrees h e hops htighter _ ht₁

/-! ### Levels -/

theorem unary_agrees : Agrees limit c depth unary := by
  apply agrees_of_body
  intro tr ht
  have hoperand := (nestedLevel_tracks h (List.nil_subset _) ht.pass).still
  refine .accept (by decide) ht (.map ht.pass hoperand) ?_
  refine .accept (by decide) ht ?_ (leftNested_agrees (instanceOf_agrees h) tr ht)
  -- the cast has been passed, its text is still that of the token here
  dsimp only
  cases CastType.ofText? tr.stream.current.text with
  | none => exact .fail _
  | some type => exact .map ht.pass hoperand

/-- The rules of a list, one looser than the other. -/
theorem level_agrees : ∀ {rs : List Rule}, rs ⊆ rules → Agrees limit c depth (.level rs)
  | [], _ => unary_agrees h
  | .left ops :: tighter, hrs => by
    obtain ⟨hops, htighter⟩ := List.cons_subset.mp hrs
    -- the rules below are read with the same number of levels to go
    have hchain := chain_agrees h hops htighter (level_agrees htighter)
    exact agrees_of_body fun tr ht => leftNested_agrees hchain tr ht
  | .right op :: tighter, hrs => by
    obtain ⟨hop, htighter⟩ := List.cons_subset.mp hrs
    apply agrees_of_body
    intro tr ht
    refine .moving ht (level_agrees htighter tr ht) fun e tr₁ ht₁ _ => ?_
    refine .accept (eof_notMem_kinds hop) ht₁ ?_ (.done e)
    exact .map ht₁.pass (nestedLevel_tracks h hrs ht₁.pass).still
  | .ternary :: tighter, hrs => by
    obtain ⟨-, htighter⟩ := List.cons_subset.mp hrs
    apply agrees_of_body
    intro tr ht
    refine .moving ht (level_agrees htighter tr ht) fun e tr₁ ht₁ _ => ?_
    refine .accept (by decide) ht₁ ?_ (.done e)
    refine .later ht₁.pass (nestedLevel_tracks h hrs ht₁.pass) fun yes _ ht₂ _ => ?_
    refine .expect (by nofun) _ ht₂ fun _ => ?_
    exact .map ht₂.pass (nestedLevel_tracks h hrs ht₂.pass).still

theorem assignment_agrees : Agrees limit c depth .assignment := by
  apply agrees_of_body
  intro tr ht
  have hlevel := level_agrees h (List.reverse_subset.mpr fun _ => id) tr ht
  refine .moving ht hlevel fun target tr₁ ht₁ _ => ?_
  refine .accept (by decide) ht₁ ?_ (.done target)
  exact .map ht₁.pass (expression_tracks h ht₁.pass).still

theorem source_agrees : Agrees limit c depth .source := by
  apply agrees_of_body
  intro tr ht
  refine .moving ht (expression_tracks h ht) fun e tr₁ ht₁ _ => ?_
  exact .peek (.ite (fun _ => .done e) fun _ => .unexpected _)

/-- Every routine, from what is known of those one level further in. -/
theorem agrees_of_deeper : ∀ {σ : Scope} {α : Type} (r : Routine σ α), r.InGrammar →
    Agrees limit c depth r
  | _, _, .nested _, hr => nested_agrees h hr
  | _, _, .leftNested r, hr => leftNested_agrees (agrees_of_deeper r hr)
  | _, _, .source, _ => source_agrees h
  | _, _, .assignment, _ => assignment_agrees h
  | _, _, .level _, hrs => level_agrees h hrs
  | _, _, .chain .., hr => chain_agrees h hr.1 hr.2 (level_agrees h hr.2)
  | _, _, .moreChain _ _ left, hr => moreChain_agrees h left hr.1 hr.2
  | _, _, .instanceOf, _ => instanceOf_agrees h
  | _, _, .moreInstanceOf value, _ => moreInstanceOf_agrees h value
  | _, _, .operand, _ => operand_agrees h
  | _, _, .moreSuffixes e, _ => moreSuffixes_agrees h e
  | _, _, .primary, _ => primary_agrees h
  | _, _, .memberName op isStatic, _ => memberName_agrees h op isStatic
  | _, _, .member target op isStatic, _ => member_agrees h target op isStatic
  | _, _, .arguments, _ => arguments_agrees h
  | _, _, .argumentItems, _ => fun _ ht =>
    (argumentItems_tracks h _ ht (Nat.lt_succ_self _)).congr (fun _ => rfl) rfl
  | _, _, .arrayElements _ expected, hclose => arrayElements_agrees h hclose expected
  | _, _, .elementItems close, _ => fun _ ht =>
    (elementItems_tracks h close _ ht (Nat.lt_succ_self _)).congr (fun _ => rfl) rfl
  | _, _, .interpolation opening, _ => interpolation_agrees h opening
  | _, _, .partItems, _ => fun _ ht =>
    (partItems_tracks h _ ht (Nat.lt_succ_self _)).congr (fun _ => rfl) rfl

end Level

/-- The run of every routine ends, as the grammar says. -/
theorem agrees : ∀ (depth c : Nat), c + depth = limit →
    ∀ {σ : Scope} {α : Type} (r : Routine σ α), r.InGrammar → Agrees limit c depth r
  | 0, c, hlimit, _, _, r, hr =>
    agrees_of_deeper ⟨hlimit, fun _ hdepth => absurd hdepth (Nat.succ_ne_zero _).symm⟩ r hr
  | depth + 1, c, hlimit, _, _, r, hr => by
    refine agrees_of_deeper ⟨hlimit, fun depth' hdepth => ?_⟩ r hr
    obtain rfl := Nat.succ.inj hdepth
    exact agrees depth (c + 1) (by omega)

end Routine

/-! ## Closing tokens -/

namespace TokenStream

variable {s : TokenStream}

/-- What is left of tokens with an end has this end. -/
theorem ends_of_toList {body : List Token} {eof : Token} (h : s.toList = body ++ [eof])
    (heof : eof.kind = .eof) : s.Ends := by
  rcases s.remaining.eq_nil_or_concat with hnil | ⟨init, last, hsplit⟩
  · cases hnil
  · rw [List.concat_eq_append] at hsplit
    have hlists : (s.passed.reverse ++ init) ++ [last] = body ++ [eof] := by
      rw [List.append_assoc, ← hsplit]
      exact h
    obtain ⟨-, hlast⟩ := List.append_inj' hlists rfl
    cases hlast
    exact ⟨init, eof, hsplit, heof⟩

/-- The token that is passed is the last one passed. -/
theorem previous?_advance (h : s.advance.Ends) (hkind : s.current.kind ≠ .eof) :
    s.advance.previous? = some s.current := by
  obtain ⟨passed, current, ahead⟩ := s
  rw [advance, if_neg hkind] at h ⊢
  cases ahead with
  | nil =>
      obtain ⟨-, hremaining⟩ := h.advance hkind
      cases (List.cons.inj hremaining).2
  | cons t ahead => rfl

end TokenStream

/-- Behind a closing token, this is the last token passed. -/
theorem Parser.previous?_of_expect {α β : Type} {p : Parser α} {k : α → β} {kind : TokenKind}
    {expected : String} {s s' : TokenStream} {b : β} (hkind : kind ≠ .eof) (hs' : s'.Ends)
    (h : (do
      let a ← p
      let _ ← expect kind expected
      pure (k a) : Parser β) s = .ok (b, s')) :
    ∃ t, s'.previous? = some t ∧ t.kind = kind := by
  obtain ⟨a, s₁, -, h⟩ := exists_of_bind h
  obtain ⟨t, s₂, hexpect, h⟩ := exists_of_bind h
  cases h
  by_cases hcurrent : s₁.current.kind = kind
  · rw [expect_of_kind hcurrent] at hexpect
    cases hexpect
    exact ⟨_, TokenStream.previous?_advance hs' (hcurrent ▸ hkind), hcurrent⟩
  · rw [expect_of_ne hcurrent] at hexpect
    cases hexpect

namespace Routine

variable {limit depth : Nat}

/-- A routine that closes a list has passed the closing token last. -/
theorem previous?_of_closer {σ : Scope} {α : Type} {r : Routine σ α} (hr : r.InGrammar)
    {s s' : TokenStream} {a : α} (hs' : s'.Ends) (h : r.parser limit depth s = .ok (a, s'))
    {kind : TokenKind} (hkind : r.closer? = some kind) :
    ∃ t, s'.previous? = some t ∧ t.kind = kind := by
  cases r
  case arguments =>
    cases hkind
    exact Parser.previous?_of_expect (by nofun) hs' h
  case arrayElements close expected =>
    cases hkind
    exact Parser.previous?_of_expect hr hs' h
  case interpolation opening =>
    cases hkind
    exact Parser.previous?_of_expect (by nofun) hs' h
  all_goals cases hkind

/-- A whole input is read as `Expr.ofStream` reads it. -/
theorem parser_source (s : TokenStream) :
    (Routine.source.parser limit limit s).map Prod.fst = Expr.ofStream limit s := by
  simp only [parser, bind, Parser.andThen, Expr.ofStream]
  cases Grammar.expression (ofDepth limit limit) s with
  | error e => rfl
  | ok result =>
      obtain ⟨e, s'⟩ := result
      by_cases hend : s'.current.kind = .eof
      · simp only [Parser.peek, TokenStream.atEnd, hend, beq_self_eq_true, if_true]
        rfl
      · simp only [Parser.peek, TokenStream.atEnd, if_neg hend, beq_iff_eq]
        rfl

end Routine

/-! ## The parser -/

section

variable {limit : Nat} {body : List Token} {eof : Token} {tr : Trail}

theorem Trail.start_inBounds (limit : Nat) (ts : List Token) (hts : ts ≠ []) :
    (Trail.start ts).InBounds limit ts := by
  obtain ⟨t, ts, rfl⟩ := List.exists_cons_of_ne_nil hts
  refine ⟨fun st hst => ?_, List.pairwise_singleton _ _⟩
  obtain rfl := List.mem_singleton.mp hst
  exact ⟨rfl, Nat.zero_le _, Nat.zero_le _⟩

theorem Trail.InBounds.at_depth (h : tr.InBounds limit (body ++ [eof])) (heof : eof.kind = .eof) :
    tr.At tr.depth :=
  ⟨rfl, TokenStream.ends_of_toList (h.states tr.now List.mem_cons_self).tokens heof⟩

/-- A run that starts in bounds has an outcome. -/
theorem Routine.tracks {σ : Scope} {α : Type} {r : Routine σ α} (hr : r.InGrammar)
    (h : tr.InBounds limit (body ++ [eof])) (heof : eof.kind = .eof) :
    Tracks limit σ r.advances (fun calls => r.execute limit calls)
      (r.parser limit (limit - tr.depth)) tr := by
  have hdepth : tr.depth ≤ limit := (h.states tr.now List.mem_cons_self).depth
  exact agrees _ _ (Nat.add_sub_cancel' hdepth) r hr tr (h.at_depth heof)

end

/-- **The parser makes progress and balances its counter.**  In front of tokens that end with the
end of the input, every routine ends, in whatever state a run may be: from some number of calls on
the outcome is always the same, and it is that of the grammar.  The run goes there in steps: all the
way the cursor has not turned back nor gone behind the first end, and the counter has not passed the
limit.  Whatever the outcome, the counter is back where it stood, but for the loops that leave this
to `leftNested`.  A routine that succeeds has passed a token, if it is no loop, and one that closes a
list has passed the closing token last.  A whole input ends as `Expr.ofTokens` says. -/
theorem parser_progresses_and_balances (limit : Nat) (body : List Token) (eof : Token)
    (heof : eof.kind = .eof) :
    (∀ (σ : Scope) (α : Type) (r : Routine σ α), r.InGrammar →
      ∀ tr : Trail, tr.InBounds limit (body ++ [eof]) →
        ∃ out tr',
          (∃ enough, ∀ calls ≥ enough, r.execute limit calls tr = some (out, tr')) ∧
          tr.Leads limit tr' ∧ tr'.InBounds limit (body ++ [eof]) ∧
          (σ = .kept → tr'.depth = tr.depth) ∧
          r.parser limit (limit - tr.depth) tr.stream = out.map (fun a => (a, tr'.stream)) ∧
          ∀ a, out = .ok a →
            tr.stream.position + r.advances.toNat ≤ tr'.stream.position ∧
            ∀ kind, r.closer? = some kind →
              ∃ t, tr'.stream.previous? = some t ∧ t.kind = kind) ∧
    ∃ tr,
      (∃ enough, ∀ calls ≥ enough,
        Routine.source.execute limit calls (.start (body ++ [eof])) =
          some (Expr.ofTokens limit (body ++ [eof]), tr)) ∧
      tr.InBounds limit (body ++ [eof]) ∧ tr.depth = 0 := by
  constructor
  · intro σ α r hr tr htr
    obtain ⟨out, tr', h⟩ := Routine.tracks hr htr heof
    have htr' := h.leads.inBounds htr
    refine ⟨out, tr', h.ends, h.leads, htr', ?_, h.agrees, fun a hout => ⟨h.moves a hout, ?_⟩⟩
    · rintro rfl
      exact h.depth
    · intro kind hkind
      obtain rfl := hout
      exact Routine.previous?_of_closer hr (htr'.at_depth heof).ends h.agrees hkind
  · have htr := Trail.start_inBounds limit (body ++ [eof]) (by simp)
    obtain ⟨out, tr', h⟩ := Routine.tracks (r := .source) trivial htr heof
    have hagrees : Routine.source.parser limit limit (.ofList (body ++ [eof])) =
      out.map fun e => (e, tr'.stream) := h.agrees
    have hout : Expr.ofTokens limit (body ++ [eof]) = out := by
      rw [Expr.ofTokens, ← Routine.parser_source, hagrees]
      cases out <;> rfl
    rw [hout]
    exact ⟨tr', h.ends, h.leads.inBounds htr, h.depth⟩

/-- The tokens of `f($a)`. -/
def callTokens : List Token :=
  [⟨.identifier, "f", ⟨0, 1, 1, 1⟩⟩, ⟨.lparen, "(", ⟨1, 1, 1, 2⟩⟩,
   ⟨.variable, "$a", ⟨2, 2, 1, 3⟩⟩, ⟨.rparen, ")", ⟨4, 1, 1, 5⟩⟩, ⟨.eof, "", ⟨5, 0, 1, 6⟩⟩]

/-- Behind the parenthesis of the call, with two levels open. -/
def insideCall : Trail := ⟨⟨(TokenStream.ofList callTokens).advance.advance, 2⟩, []⟩

/-- The arguments of `f($a)`, read with two of three levels open, end behind the parenthesis with
two levels open.  With a limit of two the variable is too deep: the whole input ends in an error,
with no level open. -/
theorem call_within_three_levels :
    tokenize "f($a)" = .ok callTokens ∧
      (∃ after,
        (∃ enough, ∀ calls ≥ enough, Routine.arguments.execute 3 calls insideCall =
          some (.ok [⟨false, .variable ⟨.variable, "$a", ⟨2, 2, 1, 3⟩⟩⟩], after)) ∧
        after.depth = 2 ∧ 3 ≤ after.stream.position ∧
        ∃ t, after.stream.previous? = some t ∧ t.kind = .rparen) ∧
      ∃ after,
        (∃ enough, ∀ calls ≥ enough, Routine.source.execute 2 calls (.start callTokens) =
          some (.error ⟨.tooDeep "$a" 2, ⟨2, 2, 1, 3⟩⟩, after)) ∧
        after.depth = 0 := by
  refine ⟨rfl, ?_, ?_⟩
  · have hbounds : insideCall.InBounds 3 callTokens := by
      refine ⟨fun st hst => ?_, List.pairwise_singleton _ _⟩
      obtain rfl := List.mem_singleton.mp hst
      exact ⟨rfl, by decide, by decide⟩
    obtain ⟨out, after, hends, -, -, hdepth, hagrees, hok⟩ :=
      (parser_progresses_and_balances 3 callTokens.dropLast _ rfl).1 .kept _ .arguments trivial
        insideCall hbounds
    have hparser : Routine.arguments.parser 3 1 insideCall.stream =
        .ok ([⟨false, .variable ⟨.variable, "$a", ⟨2, 2, 1, 3⟩⟩⟩],
          insideCall.stream.advance.advance) := rfl
    cases out with
    | error e => cases hparser.symm.trans hagrees
    | ok args =>
        obtain ⟨rfl, -⟩ := Prod.mk.inj (Except.ok.inj (hparser.symm.trans hagrees))
        obtain ⟨hposition, hcloser⟩ := hok _ rfl
        exact ⟨after, hends, hdepth rfl, hposition, hcloser .rparen rfl⟩
  · obtain ⟨-, after, hends, -, hdepth⟩ :=
      parser_progresses_and_balances 2 callTokens.dropLast ⟨.eof, "", ⟨5, 0, 1, 6⟩⟩ rfl
    exact ⟨after, hends, hdepth⟩

end GuardedExpr
