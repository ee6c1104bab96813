import Formula.Context.Cascade
import Formula.Number.Written
import Formula.Text.Characters

/-! What the command line reports about its work, and the filter that picks what is shown. -/

namespace Formula.Command

open Text (quoted)

inductive LogLevel where
  | trace
  | debug
  | info
  | warn
  | error
deriving Repr, DecidableEq

namespace LogLevel

def severity : LogLevel → Nat
  | .trace => 0
  | .debug => 1
  | .info => 2
  | .warn => 3
  | .error => 4

def text : LogLevel → String
  | .trace => "TRACE"
  | .debug => "DEBUG"
  | .info => "INFO"
  | .warn => "WARN"
  | .error => "ERROR"

def ofString? (word : String) : Option LogLevel :=
  match word.toLower with
  | "trace" => some .trace
  | "debug" => some .debug
  | "info" => some .info
  | "warn" => some .warn
  | "error" => some .error
  | _ => none

end LogLevel

inductive Event where
  | parsed (expression : String)
  | var (name : String)
  | call (name : String) (values : List Float)
  | chosen (name : String) (index : Nat)

namespace Event

def level : Event → LogLevel
  | .parsed _ => .debug
  | _ => .trace

def target : Event → String
  | .parsed _ => "expression_engine::parse"
  | .var _ => "expression_engine::eval"
  | .call _ _ => "expression_engine::eval"
  | .chosen _ _ => "expression_engine::context::combine"

def message : Event → String
  | .parsed expression => "parsed expression expression=" ++ expression
  | .var name => "resolving variable name=" ++ quoted name
  | .call name values =>
    "calling function name=" ++ quoted name ++ " values=["
      ++ ", ".intercalate (values.map Number.logged) ++ "]"
  | .chosen name index =>
    "resolving through sub-context name=" ++ quoted name ++ " index=" ++ toString index

def line (event : Event) : String :=
  event.level.text ++ " " ++ event.target ++ ": " ++ event.message

end Event

/-- Shows events from targets that start with `scope` and that are at least as severe as
`threshold`; none if there is no threshold. -/
structure LogFilter where
  scope : String
  threshold : Option LogLevel

namespace LogFilter

/-- Reads a level, which is for all targets, or a target and a level. -/
def ofString (text : String) : LogFilter :=
  match text.splitOn "=" with
  | [scope, level] => ⟨scope, LogLevel.ofString? level⟩
  | _ => ⟨"", LogLevel.ofString? text⟩

def shows (filter : LogFilter) (event : Event) : Bool :=
  match filter.threshold with
  | some level =>
    level.severity ≤ event.level.severity && filter.scope.toList.isPrefixOf event.target.toList
  | none => false

end LogFilter

/-- The same context, where each question is reported as one of a tree that is evaluated. -/
def reported (context : Context (Array Event)) : Context (Array Event) :=
  context.noting
    (fun name arguments events =>
      events.push (if arguments = [] then .var name else .call name arguments))
    (fun _ events => events)

/-- The contexts in order, where each reports that it was chosen. -/
def reportedChoice (contexts : List (Context (Array Event))) : Context (Array Event) :=
  Cascade.context ⟨contexts.mapIdx fun index context =>
    context.noting (fun name _ events => events.push (.chosen name index)) fun _ events => events⟩

end Formula.Command
