import Formula.Node.Reader
import Formula.Token.Scan

/-! Errors of texts that are no expression, with the place, the wording and the marks that a
report shows. -/

namespace Formula

open Text (Source Span)

inductive SyntaxError.Cause where
  | unexpectedToken (token : String)
  | unexpectedEnd
  | missingClose (opening : Span)
  | trailingInput (token : String)
  | emptyArguments (name : String)
deriving Repr, DecidableEq

structure SyntaxError where
  source : Source
  /-- Where the error was noticed. -/
  span : Span
  cause : SyntaxError.Cause
deriving Repr, DecidableEq

namespace SyntaxError

def line (error : SyntaxError) : Nat := error.source.line error.span.offset

def Cause.message : Cause → String
  | .unexpectedToken token => "Unexpected token '" ++ token ++ "'"
  | .unexpectedEnd => "Unexpected end of input"
  | .missingClose _ => "Missing close parenthesis"
  | .trailingInput _ => "Unexpected characters at end of expression"
  | .emptyArguments name => "Function `" ++ name ++ "` called without arguments"

def Cause.code : Cause → String
  | .unexpectedToken _ => "expr::unexpected_token"
  | .unexpectedEnd => "expr::unexpected_eof"
  | .missingClose _ => "expr::missing_close_paren"
  | .trailingInput _ => "expr::trailing_input"
  | .emptyArguments _ => "expr::empty_arguments"

def Cause.help? : Cause → Option String
  | .unexpectedToken token => some ("remove or correct the token: `" ++ token ++ "`")
  | .unexpectedEnd => some "the expression ended where a number, a name or `(` was expected"
  | .missingClose _ => none
  | .trailingInput token => some ("join the pieces with an operator or remove `" ++ token ++ "`")
  | .emptyArguments name =>
    some ("functions take at least one argument; write `" ++ name
      ++ "` without parentheses to read it as a variable")

/-- The marked stretches of the source, in the order of a report. -/
def labels (error : SyntaxError) : List (Span × String) :=
  match error.cause with
  | .unexpectedToken _ => [(error.span, "this token")]
  | .unexpectedEnd => [(error.span, "expected an operand here")]
  | .missingClose opening => [(opening, "opened here"), (error.span, "expected `)` here")]
  | .trailingInput _ => [(error.span, "not part of the expression")]
  | .emptyArguments _ => [(error.span, "empty argument list")]

def place (source : Source) : List Token → Span
  | [] => ⟨source.size, 0⟩
  | t :: _ => t.span

/-- The error that a failure on the tokens of `source` stands for. -/
def ofFailure (source : Source) (failure : Reader.Failure) : SyntaxError :=
  let here := place source failure.rest
  match failure.expected, failure.rest with
  | .operand, [] => ⟨source, here, .unexpectedEnd⟩
  | .operand, t :: _ => ⟨source, here, .unexpectedToken t.literal⟩
  | .argument name opening, _ =>
    ⟨source, ⟨opening.offset, here.offset + here.length - opening.offset⟩,
      .emptyArguments name.literal⟩
  | .close opening, _ => ⟨source, here, .missingClose opening.span⟩
  | .finish, [] => ⟨source, here, .unexpectedEnd⟩
  | .finish, t :: _ => ⟨source, here, .trailingInput t.literal⟩

end SyntaxError

def parseSource (source : Source) : Except SyntaxError Node :=
  (Reader.parse (Token.ofText source.text)).mapError (SyntaxError.ofFailure source)

def parse (text : String) : Except SyntaxError Node := parseSource ⟨none, text⟩

end Formula
