/-
Command line options.

Options may stand before and behind the expression. Behind a lone `--` nothing is
an option. A flag may be given once, an option with a value any number of times;
its value follows it, or is attached with an equals sign.
-/
import GuardedExpr.Text.Ascii
import GuardedExpr.Text.Blank

namespace GuardedExpr

/-- A variable and the source of its value. -/
structure Binding where
  name : String
  source : String
deriving DecidableEq, Repr

/-- Read `NAME=EXPR`; blanks around the name and sigils before it do not count. -/
def Binding.ofText? (text : String) : Option Binding :=
  let cs := text.toList
  match cs.dropWhile (· != '=') with
  | [] => none
  | _ :: source =>
    let name := Text.trimBoth Text.isBlank (cs.takeWhile (· != '='))
    match name.dropWhile (· == '$') with
    | [] => none
    | name => some ⟨String.ofList name, String.ofList source⟩

/-- What the command line asks for. -/
structure Options where
  bindings : List Binding
  /-- Functions denied besides those of the deny-list. -/
  denied : List String
  /-- Start from an empty deny-list. -/
  allowUnsafe : Bool
  /-- Show every expression as it was understood. -/
  showTree : Bool
  verbose : Bool
  /-- Without an expression, the lines of the standard input are evaluated. -/
  expression : Option String
deriving DecidableEq, Repr

namespace Options

/-- Nothing asked for yet. -/
def initial : Options := ⟨[], [], false, false, false, none⟩

/-- Set a flag that is not set yet. -/
def setFlag? (o : Options) : String → Option Options
  | "allow-unsafe" => if o.allowUnsafe then none else some { o with allowUnsafe := true }
  | "ast" => if o.showTree then none else some { o with showTree := true }
  | "verbose" => if o.verbose then none else some { o with verbose := true }
  | _ => none

/-- Set a group of flags of one letter. -/
def setLetters? (o : Options) (letters : List Char) : Option Options :=
  letters.foldlM (fun o c => if c = 'v' then o.setFlag? "verbose" else none) o

/-- Whether an option takes a value. -/
def takesValue (name : String) : Bool := name == "var" || name == "deny"

/-- Add the value of an option. -/
def addValue? (o : Options) (name value : String) : Option Options :=
  if name = "var" then
    (Binding.ofText? value).map fun b => { o with bindings := o.bindings ++ [b] }
  else if name = "deny" then some { o with denied := o.denied ++ [value] }
  else none

/-- Take the expression, of which there is one at most. -/
def setExpression? (o : Options) (source : String) : Option Options :=
  if o.expression.isSome then none else some { o with expression := some source }

/-- Whether an argument can only be an option. -/
def isOption : List Char → Bool
  | '-' :: _ :: _ => true
  | _ => false

/-- The name of an option and the value attached to it. -/
def splitAttached (cs : List Char) : String × Option String :=
  let name := String.ofList (cs.takeWhile (· != '='))
  match cs.dropWhile (· != '=') with
  | [] => (name, none)
  | _ :: value => (name, some (String.ofList value))

/-- Read the arguments behind those that gave `o`. -/
def read? (o : Options) (optionsEnded : Bool) : List String → Option Options
  | [] => some o
  | arg :: rest =>
    if optionsEnded then (o.setExpression? arg).bind fun o => read? o true rest
    else
      match arg.toList with
      | ['-', '-'] => read? o true rest
      | '-' :: '-' :: cs =>
        match splitAttached cs with
        | (name, some value) => (o.addValue? name value).bind fun o => read? o false rest
        | (name, none) =>
          if takesValue name then
            match rest with
            | [] => none
            | value :: rest =>
              if isOption value.toList then none
              else (o.addValue? name value).bind fun o => read? o false rest
          else (o.setFlag? name).bind fun o => read? o false rest
      | '-' :: letter :: letters =>
        (o.setLetters? (letter :: letters)).bind fun o => read? o false rest
      | _ => (o.setExpression? arg).bind fun o => read? o false rest

/-- The options of a command line, unless it is misused. -/
def ofArguments? (args : List String) : Option Options := read? initial false args

end Options

end GuardedExpr
