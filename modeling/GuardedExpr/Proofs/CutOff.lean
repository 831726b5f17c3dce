/-
# Limits are cut-offs

A limit takes nothing but depth: what a parser or an evaluation does with fewer
levels to go, it does with more of them in the same way, or it ends at the limit.
`IsCutOff` is this relation between two computations.  It is kept by sequencing,
because a limit that is met ends everything, and so it goes up from the innermost
level, where everything is cut off, to whole parsers and whole evaluations.
-/
import GuardedExpr.Engine
import GuardedExpr.Proofs.Composition

namespace GuardedExpr

/-! ## Evaluations -/

namespace EvalM

variable {α β : Type}

/-- `x` is `y`, cut off: it does the same, with the same calls, or ends at a limit. -/
def IsCutOff (x y : EvalM α) : Prop :=
  ∀ past, (∃ err calls, x.runOn past = (.error err, calls) ∧ err.fault.isLimit = true) ∨
    y.runOn past = x.runOn past

theorem IsCutOff.refl (x : EvalM α) : x.IsCutOff x := fun _ => .inr rfl

theorem isCutOff_bind {x y : EvalM α} {f g : α → EvalM β} (h : x.IsCutOff y)
    (hf : ∀ a, (f a).IsCutOff (g a)) : (x >>= f).IsCutOff (y >>= g) := by
  intro past
  rcases h past with ⟨err, calls, hx, hlimit⟩ | hxy
  · exact .inl ⟨err, calls, runOn_bind_error hx, hlimit⟩
  · rcases hx : x.runOn past with ⟨err | a, calls⟩
    · rw [runOn_bind_error hx, runOn_bind_error (hxy.trans hx)]
      exact .inr rfl
    · rw [runOn_bind_ok hx, runOn_bind_ok (hxy.trans hx)]
      exact hf a calls

end EvalM

namespace Eval

open EvalM

variable {env : Environment} {eval eval' : Expr → EvalM Value}

theorem isCutOff_arguments {args : List Argument}
    (h : ∀ x ∈ args.map Argument.value, (eval x).IsCutOff (eval' x)) :
    (arguments eval args).IsCutOff (arguments eval' args) := by
  induction args with
  | nil => exact .refl _
  | cons arg rest ih =>
      obtain ⟨byRef, value⟩ := arg
      rw [List.map_cons, List.forall_mem_cons] at h
      obtain ⟨hvalue, hrest⟩ := h
      unfold arguments
      split
      · exact .refl _
      · refine isCutOff_bind hvalue fun v => ?_
        exact isCutOff_bind (ih hrest) fun vs => .refl _

theorem isCutOff_request {offer : Offer} {absent used : Location} {args : List Argument}
    (h : ∀ x ∈ args.map Argument.value, (eval x).IsCutOff (eval' x)) :
    (request env eval offer absent used args).IsCutOff
      (request env eval' offer absent used args) := by
  refine isCutOff_bind (.refl _) fun there => ?_
  split
  · exact isCutOff_bind (isCutOff_arguments h) fun vs => .refl _
  · exact .refl _

theorem Composed.isCutOff {e : Expr} {α : Type} {f : (Expr → EvalM Value) → EvalM α}
    (h : Composed env e f) (heval : ∀ x ∈ e.visited, (eval x).IsCutOff (eval' x)) :
    (f eval).IsCutOff (f eval') := by
  induction h with
  | own _ => exact .refl _
  | operand hx => exact heval _ hx
  | request _ _ hargs => exact isCutOff_request fun x hx => heval x (hargs.visited hx)
  | bind _ _ ihf ihg => exact isCutOff_bind ihf ihg

end Eval

/-- With fewer levels to go, an evaluation is cut off. -/
theorem Expr.isCutOff_evaluateWithin (env : Environment) (limit limit' : Nat) {depth depth' : Nat}
    (hdepth : depth ≤ depth') (e : Expr) :
    (e.evaluateWithin env limit depth).IsCutOff (e.evaluateWithin env limit' depth') := by
  induction depth generalizing depth' e with
  | zero =>
      intro past
      exact .inl ⟨_, _, rfl, rfl⟩
  | succ depth ih =>
      obtain ⟨d, rfl⟩ : ∃ d, depth' = d + 1 := ⟨depth' - 1, by omega⟩
      refine (Eval.composed_node env e).isCutOff fun x _ => ?_
      exact ih (Nat.le_of_succ_le_succ hdepth) x

/-! ## Parsers -/

namespace Parser

variable {α β : Type}

/-- `p` is `q`, cut off: it does the same or ends at a limit. -/
def IsCutOff (p q : Parser α) : Prop :=
  ∀ s, (∃ e, p s = .error e ∧ e.fault.isLimit = true) ∨ q s = p s

theorem IsCutOff.refl (p : Parser α) : IsCutOff p p := fun _ => .inr rfl

theorem isCutOff_bind {p q : Parser α} {f g : α → Parser β} (h : IsCutOff p q)
    (hf : ∀ a, IsCutOff (f a) (g a)) : IsCutOff (p >>= f) (q >>= g) := by
  intro s
  show (∃ e, andThen p f s = .error e ∧ _) ∨ andThen q g s = andThen p f s
  unfold andThen
  rcases h s with ⟨e, hp, hlimit⟩ | hpq
  · exact .inl ⟨e, by rw [hp], hlimit⟩
  · rw [hpq]
    rcases p s with e | ⟨a, s'⟩
    · exact .inr rfl
    · exact hf a s'

/-- What comes first is the same. -/
theorem isCutOff_then (p : Parser α) {f g : α → Parser β} (hf : ∀ a, IsCutOff (f a) (g a)) :
    IsCutOff (p >>= f) (p >>= g) := isCutOff_bind (.refl p) hf

theorem isCutOff_optional {p : Parser (Option γ)} {f g : Option γ → Parser α}
    (hnone : IsCutOff (f none) (g none)) (hsome : ∀ c, IsCutOff (f (some c)) (g (some c))) :
    IsCutOff (p >>= f) (p >>= g) := by
  refine isCutOff_then p fun o => ?_
  cases o with
  | none => exact hnone
  | some c => exact hsome c

end Parser

namespace Grammar

open GuardedExpr.Parser

/-- The parsers of `inner` are those of `inner'`, cut off. -/
structure Inner.IsCutOff (inner inner' : Inner) : Prop where
  level : ∀ rs, Parser.IsCutOff (inner.level rs) (inner'.level rs)
  assignment : Parser.IsCutOff inner.assignment inner'.assignment
  chain : ∀ ops tighter e op,
    Parser.IsCutOff (inner.chain ops tighter e op) (inner'.chain ops tighter e op)
  classOperand : ∀ e op, Parser.IsCutOff (inner.classOperand e op) (inner'.classOperand e op)
  suffix : ∀ e, Parser.IsCutOff (inner.suffix e) (inner'.suffix e)

theorem isCutOff_tooDeep {α : Type} (limit : Nat) (q : Parser α) :
    Parser.IsCutOff (tooDeep limit) q := fun _ => .inl ⟨_, rfl, rfl⟩

theorem isCutOff_exhausted (limit : Nat) (inner : Inner) : (exhausted limit).IsCutOff inner where
  level _ := isCutOff_tooDeep limit _
  assignment := isCutOff_tooDeep limit _
  chain _ _ _ _ := isCutOff_tooDeep limit _
  classOperand _ _ := isCutOff_tooDeep limit _
  suffix _ := isCutOff_tooDeep limit _

section Around

variable {inner inner' : Inner} (h : inner.IsCutOff inner')
include h

theorem isCutOff_argumentItems (most : Nat) :
    Parser.IsCutOff (argumentItems inner most) (argumentItems inner' most) := by
  induction most with
  | zero => exact .refl _
  | succ most ih =>
      refine isCutOff_then _ fun t => ?_
      split
      · exact .refl _
      · refine isCutOff_then _ fun mark => isCutOff_bind h.assignment fun value => ?_
        exact isCutOff_optional (.refl _) fun comma => isCutOff_bind ih fun rest => .refl _

theorem isCutOff_arguments : Parser.IsCutOff (arguments inner) (arguments inner') := by
  intro s
  exact isCutOff_bind (isCutOff_argumentItems h _) (fun args => .refl _) s

theorem isCutOff_elementItems (close : TokenKind) (most : Nat) :
    Parser.IsCutOff (elementItems inner close most) (elementItems inner' close most) := by
  induction most with
  | zero => exact .refl _
  | succ most ih =>
      refine isCutOff_then _ fun t => ?_
      split
      · exact .refl _
      · refine isCutOff_bind h.assignment fun first => isCutOff_then _ fun arrow => ?_
        cases arrow with
        | none =>
            exact isCutOff_optional (.refl _) fun comma => isCutOff_bind ih fun rest => .refl _
        | some _ =>
            refine isCutOff_bind h.assignment fun value => ?_
            exact isCutOff_optional (.refl _) fun comma => isCutOff_bind ih fun rest => .refl _

theorem isCutOff_arrayElements (close : TokenKind) (expected : String) :
    Parser.IsCutOff (arrayElements inner close expected) (arrayElements inner' close expected) := by
  intro s
  exact isCutOff_bind (isCutOff_elementItems h close _) (fun es => .refl _) s

theorem isCutOff_partItems (most : Nat) :
    Parser.IsCutOff (partItems inner most) (partItems inner' most) := by
  induction most with
  | zero => exact .refl _
  | succ most ih =>
      refine isCutOff_then _ fun t => ?_
      split
      · exact isCutOff_then _ fun _ => isCutOff_bind ih fun rest => .refl _
      · refine isCutOff_then _ fun _ => isCutOff_then _ fun part => ?_
        exact isCutOff_bind ih fun rest => .refl _
      · refine isCutOff_then _ fun _ => isCutOff_bind h.assignment fun part => ?_
        exact isCutOff_then _ fun _ => isCutOff_bind ih fun rest => .refl _
      · exact .refl _

theorem isCutOff_interpolation (opening : Token) :
    Parser.IsCutOff (interpolation inner opening) (interpolation inner' opening) := by
  intro s
  exact isCutOff_bind (isCutOff_partItems h _) (fun ps => .refl _) s

theorem isCutOff_primary : Parser.IsCutOff (primary inner) (primary inner') := by
  refine isCutOff_then _ fun t => ?_
  split
  iterate 6 exact .refl _
  · exact isCutOff_then _ fun _ => isCutOff_bind h.assignment fun e => .refl _
  · exact isCutOff_then _ fun _ => isCutOff_interpolation h t
  · exact isCutOff_then _ fun _ => isCutOff_bind (isCutOff_arrayElements h _ _) fun es => .refl _
  · refine isCutOff_then _ fun _ => isCutOff_then _ fun _ => ?_
    exact isCutOff_bind (isCutOff_arrayElements h _ _) fun es => .refl _
  · exact .refl _
  · exact .refl _

theorem isCutOff_memberName (op : Token) (isStatic : Bool) :
    Parser.IsCutOff (memberName inner op isStatic) (memberName inner' op isStatic) := by
  refine isCutOff_then _ fun t => ?_
  split
  · exact .refl _
  · split
    · exact .refl _
    · split
      · exact isCutOff_then _ fun _ => isCutOff_bind h.assignment fun name => .refl _
      · exact .refl _

theorem isCutOff_member (target : Expr) (op : Token) (isStatic : Bool) :
    Parser.IsCutOff (member inner target op isStatic) (member inner' target op isStatic) := by
  refine isCutOff_bind (isCutOff_memberName h op isStatic) fun name => isCutOff_then _ fun t => ?_
  cases t with
  | none => exact .refl _
  | some _ => exact isCutOff_bind (isCutOff_arguments h) fun args => .refl _

theorem isCutOff_moreSuffixes (e : Expr) :
    Parser.IsCutOff (moreSuffixes inner e) (moreSuffixes inner' e) := by
  refine isCutOff_then _ fun t => ?_
  split
  · exact h.suffix e
  · exact .refl _

theorem isCutOff_suffix (e : Expr) : Parser.IsCutOff (suffix inner e) (suffix inner' e) := by
  refine isCutOff_then _ fun t => ?_
  dsimp only
  split
  · exact isCutOff_bind (isCutOff_member h e t true) (isCutOff_moreSuffixes h)
  · exact isCutOff_bind (isCutOff_member h e t false) (isCutOff_moreSuffixes h)
  · refine isCutOff_bind h.assignment fun offset => isCutOff_then _ fun _ => ?_
    exact isCutOff_moreSuffixes h _
  · exact isCutOff_bind (isCutOff_arguments h) fun args => isCutOff_moreSuffixes h _

theorem isCutOff_operand : Parser.IsCutOff (operand inner) (operand inner') :=
  isCutOff_bind (isCutOff_primary h) (isCutOff_moreSuffixes h)

theorem isCutOff_moreInstanceOf (e : Expr) :
    Parser.IsCutOff (moreInstanceOf inner e) (moreInstanceOf inner' e) := by
  refine isCutOff_then _ fun op => ?_
  cases op with
  | none => exact .refl _
  | some op => exact h.classOperand e op

theorem isCutOff_classOperand (e : Expr) (op : Token) :
    Parser.IsCutOff (classOperand inner e op) (classOperand inner' e op) := by
  refine isCutOff_then _ fun name => ?_
  cases name with
  | some name => exact isCutOff_moreInstanceOf h _
  | none => exact isCutOff_bind (isCutOff_operand h) fun cls => isCutOff_moreInstanceOf h _

theorem isCutOff_instanceOf : Parser.IsCutOff (instanceOf inner) (instanceOf inner') :=
  isCutOff_bind (isCutOff_operand h) (isCutOff_moreInstanceOf h)

theorem isCutOff_unary : Parser.IsCutOff (unary inner) (unary inner') := by
  refine isCutOff_then _ fun sign => ?_
  cases sign with
  | some op => exact isCutOff_bind (h.level []) fun e => .refl _
  | none =>
      refine isCutOff_then _ fun op => ?_
      cases op with
      | none => exact isCutOff_instanceOf h
      | some op =>
          dsimp only
          split
          · exact isCutOff_bind (h.level []) fun e => .refl _
          · exact .refl _

theorem isCutOff_moreChain (ops : List TokenKind) (tighter : List Rule) (e : Expr) :
    Parser.IsCutOff (moreChain inner ops tighter e) (moreChain inner' ops tighter e) := by
  refine isCutOff_then _ fun op => ?_
  cases op with
  | none => exact .refl _
  | some op => exact h.chain ops tighter e op

theorem isCutOff_level (rs : List Rule) :
    Parser.IsCutOff (level inner rs) (level inner' rs) := by
  induction rs with
  | nil => exact isCutOff_unary h
  | cons r tighter ih =>
      cases r with
      | left ops => exact isCutOff_bind ih fun e => isCutOff_moreChain h ops tighter e
      | right op =>
          refine isCutOff_bind ih fun e => isCutOff_then _ fun t => ?_
          cases t with
          | none => exact .refl _
          | some t => exact isCutOff_bind (h.level _) fun right => .refl _
      | ternary =>
          refine isCutOff_bind ih fun e => isCutOff_then _ fun t => ?_
          cases t with
          | none => exact .refl _
          | some t =>
              refine isCutOff_bind (h.level _) fun yes => isCutOff_then _ fun _ => ?_
              exact isCutOff_bind (h.level _) fun no => .refl _

theorem isCutOff_chain (ops : List TokenKind) (tighter : List Rule) (e : Expr) (op : Token) :
    Parser.IsCutOff (chain inner ops tighter e op) (chain inner' ops tighter e op) :=
  isCutOff_bind (isCutOff_level h tighter) fun _ => isCutOff_moreChain h ops tighter _

theorem isCutOff_assignment : Parser.IsCutOff (assignment inner) (assignment inner') := by
  refine isCutOff_bind (isCutOff_level h _) fun target => isCutOff_then _ fun t => ?_
  cases t with
  | none => exact .refl _
  | some op => exact isCutOff_bind h.assignment fun value => .refl _

theorem isCutOff_around : (around inner).IsCutOff (around inner') where
  level := isCutOff_level h
  assignment := isCutOff_assignment h
  chain := isCutOff_chain h
  classOperand := isCutOff_classOperand h
  suffix := isCutOff_suffix h

end Around

/-- With fewer levels to go, the parsers are cut off. -/
theorem isCutOff_ofDepth (limit limit' : Nat) {depth depth' : Nat} (hdepth : depth ≤ depth') :
    (ofDepth limit depth).IsCutOff (ofDepth limit' depth') := by
  induction depth generalizing depth' with
  | zero => exact isCutOff_exhausted limit _
  | succ depth ih =>
      obtain ⟨d, rfl⟩ : ∃ d, depth' = d + 1 := ⟨depth' - 1, by omega⟩
      exact isCutOff_around (ih (Nat.le_of_succ_le_succ hdepth))

end Grammar

/-- A source that is read or refused below a limit is so below all higher limits. -/
theorem Expr.parse_of_le {limit limit' : Nat} (hlimit : limit ≤ limit') (source : String) :
    (∃ e, Expr.parse limit source = .error e ∧ e.fault.isLimit = true) ∨
      Expr.parse limit' source = Expr.parse limit source := by
  unfold Expr.parse
  cases tokenize source with
  | error e => exact .inr rfl
  | ok ts =>
      unfold Expr.ofTokens Expr.ofStream Grammar.expression
      dsimp only
      rcases (Grammar.isCutOff_ofDepth limit limit' hlimit).assignment (.ofList ts) with
        ⟨e, hread, hmet⟩ | hread
      · exact .inl ⟨e, by rw [hread], hmet⟩
      · exact .inr (by rw [hread])

/-! ## Engines -/

namespace Failure

theorem exists_limit_ofParseError {e : ParseError} (h : e.fault.isLimit = true) :
    ∃ message diagnostic, ofParseError e = .limit message diagnostic :=
  ⟨_, _, if_pos h⟩

theorem exists_limit_ofEvalError {e : EvalError} (h : e.fault.isLimit = true) :
    ∃ message diagnostic, ofEvalError e = .limit message diagnostic :=
  ⟨_, _, if_pos h⟩

end Failure

namespace Engine

theorem compile_of_le {limits limits' : Limits} (h : limits.parsing ≤ limits'.parsing)
    (denied denied' : DenyList) (source : String) :
    (∃ message diagnostic,
      (Engine.mk limits denied).compile source = .error (.limit message diagnostic)) ∨
    (Engine.mk limits' denied').compile source = (Engine.mk limits denied).compile source := by
  unfold compile
  rcases Expr.parse_of_le h source with ⟨e, hparse, hmet⟩ | hparse
  · obtain ⟨message, diagnostic, he⟩ := Failure.exists_limit_ofParseError hmet
    exact .inl ⟨message, diagnostic, by rw [hparse, ← he]⟩
  · exact .inr (by rw [hparse])

theorem run_of_le {limits limits' : Limits} (h : limits.evaluation ≤ limits'.evaluation)
    (denied : DenyList) (code : Compiled) (context : Context) (host : Host) (past : List Call) :
    (∃ message diagnostic,
      (((Engine.mk limits denied).run code context host).run past).1
        = .error (.limit message diagnostic)) ∨
    ((Engine.mk limits' denied).run code context host).run past
      = ((Engine.mk limits denied).run code context host).run past := by
  have hrun : ∀ limits : Limits, ((Engine.mk limits denied).run code context host).run past
      = (fun outcome => (outcome.1.mapError Failure.ofEvalError, outcome.2))
          ((code.tree.evaluate ⟨context, host, denied⟩ limits.evaluation).runOn past) :=
    fun _ => rfl
  rw [hrun, hrun]
  rcases Expr.isCutOff_evaluateWithin ⟨context, host, denied⟩ _ _ h code.tree past with
    ⟨e, calls, heval, hmet⟩ | heval
  · obtain ⟨message, diagnostic, he⟩ := Failure.exists_limit_ofEvalError hmet
    have hlimit : (code.tree.evaluate ⟨context, host, denied⟩ limits.evaluation).runOn past
        = (.error e, calls) := heval
    exact .inl ⟨message, diagnostic, by rw [hlimit, ← he]; rfl⟩
  · have hsame : (code.tree.evaluate ⟨context, host, denied⟩ limits'.evaluation).runOn past
        = (code.tree.evaluate ⟨context, host, denied⟩ limits.evaluation).runOn past := heval
    exact .inr (by rw [hsame])

end Engine

/-- **Limits are cut-offs.**  Where a source is compiled and run below two limits and meets neither
of them, higher limits change nothing: the same tree or the same fault of the source, the same
value or the same error at the same place, and the same calls of the host. -/
theorem limits_are_cutoffs {limits limits' : Limits} (hparsing : limits.parsing ≤ limits'.parsing)
    (hevaluation : limits.evaluation ≤ limits'.evaluation) (denied : DenyList) (source : String)
    (context : Context) (host : Host) (past : List Call)
    (hmet : ∀ message diagnostic,
      (((Engine.mk limits denied).runSource source context host).run past).1
        ≠ .error (.limit message diagnostic)) :
    (Engine.mk limits' denied).compile source = (Engine.mk limits denied).compile source ∧
    ((Engine.mk limits' denied).runSource source context host).run past
      = ((Engine.mk limits denied).runSource source context host).run past := by
  have hcompile : (Engine.mk limits' denied).compile source
      = (Engine.mk limits denied).compile source := by
    rcases Engine.compile_of_le hparsing denied denied source with ⟨message, diagnostic, h⟩ | h
    · refine absurd ?_ (hmet message diagnostic)
      rw [Engine.runSource, h]
      rfl
    · exact h
  refine ⟨hcompile, ?_⟩
  unfold Engine.runSource at hmet ⊢
  rw [hcompile]
  cases hcode : (Engine.mk limits denied).compile source with
  | error failure => rfl
  | ok code =>
      rw [hcode] at hmet
      rcases Engine.run_of_le hevaluation denied code context host past with
        ⟨message, diagnostic, h⟩ | h
      · exact absurd h (hmet message diagnostic)
      · exact h

/-- A host with one function, which gives its first argument back. -/
def echoHost : Host := fun _ c =>
  match c with
  | .functionExists name => name == "f"
  | .invokeFunction _ args => .ok (args.headD .null)
  | c => c.absentAnswer

/-- The expression `f($a)`. -/
def callOfVariable : Expr :=
  .call (.literal ⟨.identifier, "f", ⟨0, 1, 1, 1⟩⟩) ⟨.lparen, "(", ⟨1, 1, 1, 2⟩⟩
    [.mk false (.variable ⟨.variable, "$a", ⟨2, 2, 1, 3⟩⟩)]

/-- `f($a)` takes three levels to read and two to evaluate; the standard limits allow more. -/
theorem call_runs_below_standard_limits :
    ((Engine.mk ⟨3, 2⟩ .empty).runSource "f($a)" (.ofList [("a", .bool true)]) echoHost).run []
      = (.ok (.bool true), [.invokeFunction "f" [.bool true], .functionExists "f"]) ∧
    ((Engine.mk .standard .empty).runSource "f($a)" (.ofList [("a", .bool true)]) echoHost).run []
      = (.ok (.bool true), [.invokeFunction "f" [.bool true], .functionExists "f"]) := by
  have htokens : tokenize "f($a)" = .ok
      [⟨.identifier, "f", ⟨0, 1, 1, 1⟩⟩, ⟨.lparen, "(", ⟨1, 1, 1, 2⟩⟩,
       ⟨.variable, "$a", ⟨2, 2, 1, 3⟩⟩, ⟨.rparen, ")", ⟨4, 1, 1, 5⟩⟩,
       ⟨.eof, "", ⟨5, 0, 1, 6⟩⟩] := rfl
  have hparse : Expr.parse 3 "f($a)" = .ok callOfVariable := by
    unfold Expr.parse
    rw [htokens]
    rfl
  have hrun : ((Engine.mk ⟨3, 2⟩ .empty).runSource "f($a)" (.ofList [("a", .bool true)])
      echoHost).run []
      = (.ok (.bool true), [.invokeFunction "f" [.bool true], .functionExists "f"]) := by
    unfold Engine.runSource Engine.compile
    rw [hparse]
    rfl
  have hparsing : (Limits.mk 3 2).parsing ≤ Limits.standard.parsing := by decide
  have hevaluation : (Limits.mk 3 2).evaluation ≤ Limits.standard.evaluation := by decide
  have hmet : ∀ message diagnostic, (((Engine.mk ⟨3, 2⟩ .empty).runSource "f($a)"
      (.ofList [("a", .bool true)]) echoHost).run []).1 ≠ .error (.limit message diagnostic) := by
    intro message diagnostic hmet
    rw [hrun] at hmet
    cases hmet
  obtain ⟨-, hsame⟩ := limits_are_cutoffs hparsing hevaluation .empty "f($a)"
    (.ofList [("a", .bool true)]) echoHost [] hmet
  exact ⟨hrun, hsame.trans hrun⟩

end GuardedExpr
