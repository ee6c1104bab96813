import Formula.Command.Log
import Formula.Context.Standard
import Formula.Context.Bindings
import Formula.Evaluation
import Formula.Node.Printer

/-! The command line as a function from a request to what is printed. A request may list the
tokens of an expression, print its tree, or evaluate it with the standard functions and the
variables that the request binds. -/

namespace Formula.Command

open Number (NumeralError)
open Text (Source)

inductive Verb where
  | tokenize
  | parse
  | eval
deriving Repr, DecidableEq

/-- A file that was named: absent, or there with its contents. -/
inductive FileInput where
  | missing
  | contents (path text : String)

structure Request where
  verb : Verb
  bindings : List String
  text? : Option String
  file? : Option FileInput

inductive BindingError where
  | noEquality (binding : String)
  | badValue (name : String) (error : NumeralError)

def BindingError.message : BindingError → String
  | .noEquality binding => "expected NAME=VALUE, got `" ++ binding ++ "`"
  | .badValue name error => "invalid value for `" ++ name ++ "`: " ++ error.message

def readBinding (binding : String) : Except BindingError (String × Float) :=
  let cs := binding.toList
  let name := cs.takeWhile (· ≠ '=')
  match cs.dropWhile (· ≠ '=') with
  | [] => .error (.noEquality binding)
  | _ :: value =>
    match Number.read (Text.trim value) with
    | .ok number => .ok (String.ofList (Text.trim name), number)
    | .error error => .error (.badValue (String.ofList name) error)

inductive UsageError where
  | bindingNotAllowed
  | badBinding (binding : String) (error : BindingError)
  | noInput
  | twoInputs

def UsageError.message : UsageError → String
  | .bindingNotAllowed => "error: unexpected argument '--var' found"
  | .badBinding binding error =>
    "error: invalid value '" ++ binding ++ "' for '--var <NAME=VALUE>': " ++ error.message
  | .noInput => "error: the following required arguments were not provided:"
  | .twoInputs => "error: the argument '--file <FILE>' cannot be used with '[EXPRESSION]'"

/-- An error that is left to a library to draw on stderr. -/
inductive Report where
  | unreadable (error : SyntaxError)
  | unresolvable (error : NameError)
  | usage (error : UsageError)
  | missingFile

/-- What follows the words of the program, where `draw` is how the library draws. -/
def Report.text (draw : Report → String) : Report → String
  | .missingFile => "Error: " ++ draw .missingFile ++ "\n"
  | report => "\n" ++ draw report ++ "\n"

/-- What a run leaves behind. Here `stderr` has the words of the program itself, the log aside:
whole lines, or the first line of an error without its end, if a library draws a report behind
it. -/
structure Outcome where
  status : Nat
  stdout : String
  stderr : String
  report? : Option Report
  events : Array Event

namespace Outcome

/-- All that is written on stderr, apart from the log. -/
def written (draw : Report → String) (outcome : Outcome) : String :=
  outcome.stderr ++ outcome.report?.elim "" (Report.text draw)

def logLines (outcome : Outcome) (filter : LogFilter) : List String :=
  (outcome.events.toList.filter filter.shows).map Event.line

end Outcome

/-- Reads bindings in order; the first bad one is reported. -/
def readBindings : List String → Except UsageError (List (String × Float))
  | [] => .ok []
  | binding :: bindings =>
    match readBinding binding with
    | .error error => .error (.badBinding binding error)
    | .ok bound =>
      match readBindings bindings with
      | .error error => .error error
      | .ok rest => .ok (bound :: rest)

namespace Request

def bound (request : Request) : Except UsageError (List (String × Float)) :=
  if request.verb = .eval then readBindings request.bindings
  else if request.bindings = [] then .ok []
  else .error .bindingNotAllowed

/-- The expression to work on; nothing if it is in a file that is missing. -/
def source? (request : Request) : Except UsageError (Option Source) :=
  match request.text?, request.file? with
  | some text, none => .ok (some ⟨none, text⟩)
  | none, some (.contents path text) => .ok (some ⟨some path, text⟩)
  | none, some .missing => .ok none
  | none, none => .error .noInput
  | some _, some _ => .error .twoInputs

end Request

def invalidLine (source : Source) (token : Token) : String :=
  "[line " ++ toString (source.line token.offset) ++ "] Error: Unexpected character: "
    ++ token.literal

def lines (items : List String) : String := String.join (items.map (· ++ "\n"))

def tokenize (source : Source) : Outcome :=
  let tokens := Token.ofText source.text
  let invalid := tokens.filter Token.isInvalid
  let valid := tokens.filter fun token => !token.isInvalid
  { status := if invalid = [] then 0 else 65
    stdout := lines (valid.map Token.describe ++ [(Token.endOf source).describe])
    stderr := lines (invalid.map (invalidLine source))
    report? := none
    events := #[] }

def syntaxFailure (error : SyntaxError) : Outcome :=
  ⟨65, "", "[line " ++ toString error.line ++ "] Error: " ++ error.cause.message,
    some (.unreadable error), #[]⟩

def printTree (source : Source) : Outcome :=
  match parseSource source with
  | .error error => syntaxFailure error
  | .ok node => ⟨0, node.print ++ "\n", "", none, #[.parsed node.print]⟩

/-- What names mean on the command line. -/
def environment (bindings : List (String × Float)) : Context (Array Event) :=
  reported (reportedChoice [(Bindings.ofList bindings).context, Standard.context])

def eval (bindings : List (String × Float)) (source : Source) : Outcome :=
  match parseSource source with
  | .error error => syntaxFailure error
  | .ok node =>
    match node.evaluate (environment bindings) #[.parsed node.print] with
    | .ok value events => ⟨0, Number.plain value ++ "\n", "", none, events⟩
    | .error error events =>
      ⟨70, "", "Error: cannot evaluate `" ++ error.name ++ "`", some (.unresolvable error), events⟩

def firstLine (message : String) : String := String.ofList (message.toList.takeWhile (· ≠ '\n'))

def usageFailure (error : UsageError) : Outcome :=
  ⟨2, "", firstLine error.message, some (.usage error), #[]⟩

def Request.run (request : Request) : Outcome :=
  match request.bound with
  | .error error => usageFailure error
  | .ok bindings =>
    match request.source? with
    | .error error => usageFailure error
    | .ok none => ⟨1, "", "", some .missingFile, #[]⟩
    | .ok (some source) =>
      match request.verb with
      | .tokenize => tokenize source
      | .parse => printTree source
      | .eval => eval bindings source

end Formula.Command
