/-
# Results of parsers — what holds of everything that a parser reads

`p.Yields Q` says that whatever `p` reads, from whatever stream, satisfies `Q`.  It
is kept by sequencing, so the results of a rule are described in the order in which
the rule is written, without a look at the streams.
-/
import GuardedExpr.Expr.Parser

namespace GuardedExpr

/-- What a grammatical fault says to expect. -/
def ParseFault.expected? : ParseFault → Option String
  | .unexpectedToken _ expected | .unexpectedEnd expected => some expected
  | _ => none

namespace Parser

variable {α β : Type}

/-- Every result of the parser satisfies `Q`. -/
def Yields (p : Parser α) (Q : α → Prop) : Prop :=
  ∀ s a s', p s = .ok (a, s') → Q a

theorem yields_trivial (p : Parser α) : Yields p fun _ => True := by
  intro s a s' _
  trivial

theorem yields_pure {a : α} {Q : α → Prop} (h : Q a) : Yields (pure a : Parser α) Q := by
  intro s b s' hr
  cases hr
  exact h

theorem yields_fail {e : ParseError} {Q : α → Prop} : Yields (fail e : Parser α) Q := by
  intro s a s' hr
  cases hr

theorem yields_unexpected {expected : String} {Q : α → Prop} :
    Yields (unexpected expected : Parser α) Q := by
  intro s a s' hr
  cases hr

/-- What a sequence reads, it reads in two steps. -/
theorem exists_of_bind {p : Parser α} {f : α → Parser β} {s s' : TokenStream} {b : β}
    (h : (p >>= f) s = .ok (b, s')) : ∃ a s₁, p s = .ok (a, s₁) ∧ f a s₁ = .ok (b, s') := by
  simp only [bind, andThen] at h
  split at h
  · cases h
  · next a s₁ hp => exact ⟨a, s₁, hp, h⟩

theorem yields_bind {p : Parser α} {f : α → Parser β} {P : α → Prop} {Q : β → Prop}
    (hp : Yields p P) (hf : ∀ a, P a → Yields (f a) Q) : Yields (p >>= f) Q := by
  intro s b s' hr
  obtain ⟨a, s₁, ha, hb⟩ := exists_of_bind hr
  exact hf a (hp s a s₁ ha) s₁ b s' hb

/-- What comes first does not matter for the result. -/
theorem yields_then {p : Parser α} {f : α → Parser β} {Q : β → Prop} (hf : ∀ a, Yields (f a) Q) :
    Yields (p >>= f) Q := yields_bind (yields_trivial p) fun a _ => hf a

/-- What goes on in two ways, for an optional token for instance. -/
theorem yields_optional {p : Parser (Option γ)} {f : Option γ → Parser α} {Q : α → Prop}
    (hnone : Yields (f none) Q) (hsome : ∀ c, Yields (f (some c)) Q) : Yields (p >>= f) Q := by
  refine yields_then fun o => ?_
  cases o with
  | none => exact hnone
  | some c => exact hsome c

/-- What `p` reads, with the token that closes it. -/
def upTo (kind : TokenKind) (expected : String) (p : Parser α) : Parser α := do
  let a ← p
  let _ ← expect kind expected
  pure a

end Parser

namespace Grammar

open GuardedExpr.Parser

/-- An item of a list and, behind a comma, more of them. Arguments and elements of arrays both go
on like this. -/
def moreItems {α : Type} (x : α) (more : Parser (List α)) : Parser (List α) := do
  match ← accept [.comma] with
  | none => pure [x]
  | some _ =>
    let rest ← more
    pure (x :: rest)

end Grammar

end GuardedExpr
