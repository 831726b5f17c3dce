/-
Command line sessions — expressions in, results out.

A session evaluates against the standard library, the variables bound so far and
a deny-list. Results go to the output; failures are reported apart.
-/
import GuardedExpr.CommandLine.Options
import GuardedExpr.Engine
import GuardedExpr.Library.Standard
import GuardedExpr.Report
import GuardedExpr.Value.Literal

namespace GuardedExpr

/-- What a run leaves: the text printed, the failures reported, and the exit status. -/
structure Outcome where
  output : String
  errors : String
  status : Nat
deriving DecidableEq, Repr

/-- What every expression is evaluated against. -/
structure Session where
  engine : Engine
  context : Context
  showTree : Bool

/-- What evaluating one source leaves. -/
structure Evaluation where
  output : String
  errors : String
  value : Option Value

namespace Session

/-- The session that the options ask for, before any variable is bound. -/
def ofOptions (o : Options) : Session :=
  let base := if o.allowUnsafe then DenyList.empty else .standard
  ⟨⟨.standard, o.denied.foldl DenyList.insert base⟩, .empty, o.showTree⟩

/-- The tree of an expression as it is shown. -/
def treeText (e : Expr) : String := "=== Parsed AST ===\n" ++ e.render ++ "\n\n"

/-- Evaluate one source. -/
def evaluate (s : Session) (source : String) : Evaluation :=
  match s.engine.compile source with
  | .error failure => ⟨"", Report.text source failure.diagnostic, none⟩
  | .ok code =>
    let shown := if s.showTree then treeText code.tree else ""
    match ((s.engine.run code s.context Library.standard.host).run []).1 with
    | .ok v => ⟨shown, "", some v⟩
    | .error failure => ⟨shown, Report.text source failure.diagnostic, none⟩

/-- Evaluate one source and print its value. A blank source is nothing to evaluate. -/
def interpret (s : Session) (source : String) : Outcome :=
  if source.toList.all Text.isBlank then ⟨"", "", 0⟩
  else
    let e := s.evaluate source
    match e.value with
    | some v => ⟨e.output ++ v.literal ++ "\n", e.errors, 0⟩
    | none => ⟨e.output, e.errors, 1⟩

/-- Interpret sources one after the other; one failure makes the whole a failure. -/
def interpretAll (s : Session) (sources : List String) : Outcome :=
  sources.foldl (fun all source =>
    let one := s.interpret source
    ⟨all.output ++ one.output, all.errors ++ one.errors, max all.status one.status⟩) ⟨"", "", 0⟩

/-- Bind variables one after the other, so that later ones can use earlier ones. The answer is the
session behind them, or nothing when one failed, with the output and the failures. -/
def bind (s : Session) : List Binding → String × String × Option Session
  | [] => ("", "", some s)
  | b :: rest =>
    let e := s.evaluate b.source
    match e.value with
    | none => (e.output, e.errors ++ s!"Could not bind ${b.name}\n", none)
    | some v =>
      let (output, errors, last) := bind { s with context := s.context.insert b.name v } rest
      (e.output ++ output, e.errors ++ errors, last)

end Session

/-- A line without the return before its line feed. -/
def dropReturn (line : List Char) : List Char :=
  if line.getLast? = some '\r' then line.dropLast else line

/-- The lines of a text, without their line breaks. -/
def inputLines (text : String) : List String :=
  let lines := text.toList.splitOn '\n'
  let ended := lines.dropLast.map dropReturn
  (ended ++ lines.getLast?.toList.filter (· != [])).map String.ofList

/-- Do what the options ask for. The input is used when they give no expression. -/
def Options.run (o : Options) (input : String) : Outcome :=
  match (Session.ofOptions o).bind o.bindings with
  | (output, errors, none) => ⟨output, errors, 2⟩
  | (output, errors, some s) =>
    let rest := match o.expression with
      | some source => s.interpret source
      | none => s.interpretAll (inputLines input)
    ⟨output ++ rest.output, errors ++ rest.errors, rest.status⟩

/-- How the command line is used. -/
def usage : String :=
  "usage: [--var NAME=EXPR] [--deny FUNCTION] [--allow-unsafe] [--ast] [-v] [--] [EXPRESSION]\n"

/-- The outcome of a command line that is misused. -/
def misuse : Outcome := ⟨"", usage, 2⟩

end GuardedExpr
