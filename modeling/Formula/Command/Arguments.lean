import Formula.Command

/-! The words of a command line as a request. Files are only named here; who runs the request
reads them. -/

namespace Formula.Command

/-- A request whose file is not read yet. -/
structure Arguments where
  verb : Verb
  bindings : List String
  text? : Option String
  path? : Option String

def Verb.ofString? : String → Option Verb
  | "tokenize" => some .tokenize
  | "parse" => some .parse
  | "eval" => some .eval
  | _ => none

def unexpected (word : String) : String := "error: unexpected argument '" ++ word ++ "' found"

def missingValue (option : String) : String :=
  "error: a value is required for '" ++ option ++ "' but none was supplied"

/-- The value in a word such as `--file=PATH`. -/
def valueAfter? (start word : String) : Option String :=
  if start.toList.isPrefixOf word.toList then
    some (String.ofList (word.toList.drop start.toList.length))
  else none

namespace Arguments

def addText (arguments : Arguments) (word : String) : Except String Arguments :=
  match arguments.text? with
  | none => .ok { arguments with text? := some word }
  | some _ => .error (unexpected word)

def addPath (arguments : Arguments) (path : String) : Except String Arguments :=
  match arguments.path? with
  | none => .ok { arguments with path? := some path }
  | some _ => .error "error: the argument '--file <FILE>' cannot be used multiple times"

def addBinding (arguments : Arguments) (binding : String) : Arguments :=
  { arguments with bindings := arguments.bindings ++ [binding] }

def addPlain (arguments : Arguments) (word : String) : Except String Arguments :=
  if word ≠ "-" ∧ word.toList.head? = some '-' then .error (unexpected word)
  else arguments.addText word

/-- Takes the words after the verb into account. After a lone `--` every word is text. -/
def addWords (arguments : Arguments) : List String → Except String Arguments
  | [] => .ok arguments
  | "--" :: words => words.foldlM addText arguments
  | ["--var"] => .error (missingValue "--var <NAME=VALUE>")
  | ["--file"] => .error (missingValue "--file <FILE>")
  | ["-f"] => .error (missingValue "--file <FILE>")
  | "--var" :: binding :: words => addWords (arguments.addBinding binding) words
  | "--file" :: path :: words => do addWords (← arguments.addPath path) words
  | "-f" :: path :: words => do addWords (← arguments.addPath path) words
  | word :: words =>
    match valueAfter? "--var=" word, valueAfter? "--file=" word with
    | some binding, _ => addWords (arguments.addBinding binding) words
    | none, some path => do addWords (← arguments.addPath path) words
    | none, none => do addWords (← arguments.addPlain word) words

def ofWords : List String → Except String Arguments
  | [] => .error "error: a subcommand is required but one was not provided"
  | word :: words =>
    match Verb.ofString? word with
    | none => .error ("error: unrecognized subcommand '" ++ word ++ "'")
    | some verb => addWords ⟨verb, [], none, none⟩ words

def toRequest (arguments : Arguments) (read? : String → Option String) : Request where
  verb := arguments.verb
  bindings := arguments.bindings
  text? := arguments.text?
  file? := arguments.path?.map fun path =>
    match read? path with
    | some text => .contents path text
    | none => .missing

end Arguments

end Formula.Command
