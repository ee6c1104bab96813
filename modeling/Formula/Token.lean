import Formula.Text.Source
import Formula.Number.Written
import Formula.Number.Double

/-! Tokens of an expression, and the line that describes one. -/

namespace Formula

inductive Token.Kind where
  | endOfInput
  | plus
  | minus
  | star
  | slash
  | leftParen
  | rightParen
  | comma
  | name
  | number (value : Float)
  /-- A character, or a point without digits, that no rule accepts. -/
  | invalid
deriving DecidableEq

structure Token where
  kind : Token.Kind
  literal : String
  offset : Nat
deriving DecidableEq

namespace Token

def Kind.label : Kind → String
  | .endOfInput => "EOF"
  | .plus => "PLUS"
  | .minus => "MINUS"
  | .star => "STAR"
  | .slash => "SLASH"
  | .leftParen => "LEFT_PAREN"
  | .rightParen => "RIGHT_PAREN"
  | .comma => "COMMA"
  | .name => "IDENTIFIER"
  | .number _ => "NUMBER"
  | .invalid => "INVALID"

/-- The value column of a description; whole numbers keep one decimal. -/
def Kind.valueText : Kind → String
  | .number value => if Number.isWhole value then Number.plain value ++ ".0" else Number.plain value
  | _ => "null"

/-- The description of a token: kind, literal and value. -/
def describe (token : Token) : String :=
  token.kind.label ++ " " ++ token.literal ++ " " ++ token.kind.valueText

def isEnd (token : Token) : Bool := token.kind = .endOfInput

def isInvalid (token : Token) : Bool := token.kind = .invalid

/-- The token that stands for the end of a text. -/
def endOf (source : Text.Source) : Token := ⟨.endOfInput, "", source.size⟩

def number? (token : Token) : Option Float :=
  match token.kind with
  | .number value => some value
  | _ => none

def name? (token : Token) : Option String :=
  match token.kind with
  | .name => some token.literal
  | _ => none

def span (token : Token) : Text.Span := ⟨token.offset, Text.byteLength token.literal.toList⟩

def stop (token : Token) : Nat := token.span.offset + token.span.length

end Token

end Formula
