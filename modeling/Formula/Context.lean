/-! Contexts give names their meaning. A name without arguments is a variable or a constant, a
name with arguments is a call. A context may keep a state, which every question may change; a
question that fails keeps the state it leads to. -/

namespace Formula

inductive NameError where
  | unresolved (name : String) (arity : Nat)
  | unknownFunction (name : String)
  | arityMismatch (name : String) (expected found : Nat)
  | placeholder (name : String)
deriving Repr, DecidableEq

namespace NameError

def name : NameError → String
  | .unresolved name _ => name
  | .unknownFunction name => name
  | .arityMismatch name _ _ => name
  | .placeholder name => name

def message : NameError → String
  | .unresolved name arity =>
    "cannot resolve `" ++ name ++ "` with " ++ toString arity ++ " argument(s)"
  | .unknownFunction name => "unknown function `" ++ name ++ "`"
  | .arityMismatch name expected found =>
    "`" ++ name ++ "` takes " ++ toString expected ++ " argument(s) but " ++ toString found
      ++ " were supplied"
  | .placeholder name => "`" ++ name ++ "` reached a context that is not wired up"

def code : NameError → String
  | .unresolved _ _ => "expr::unresolved"
  | .unknownFunction _ => "expr::unknown_function"
  | .arityMismatch _ _ _ => "expr::arity"
  | .placeholder _ => "expr::not_implemented"

def help? : NameError → Option String
  | .unresolved name _ =>
    some ("check the spelling of `" ++ name ++ "` and the number of arguments")
  | .unknownFunction _ => none
  | .arityMismatch _ _ _ => none
  | .placeholder _ => some "replace the placeholder context with a real one"

end NameError

/-- A question to a context with a state: an answer or an error, and the next state. -/
abbrev Answer (σ α : Type) := EStateM NameError σ α

structure Context (σ : Type) where
  resolve : String → List Float → Answer σ Float
  /-- Whether the name is known at all, with whatever number of arguments. -/
  knows : String → StateM σ Bool

namespace Context

variable {σ : Type}

def stateless (resolve : String → List Float → Except NameError Float)
    (knows : String → Bool) : Context σ where
  resolve name arguments state :=
    match resolve name arguments with
    | .ok value => .ok value state
    | .error error => .error error state
  knows name state := (knows name, state)

/-- The same context, where each question first leaves a note in the state. -/
def noting (onResolve : String → List Float → σ → σ) (onKnows : String → σ → σ)
    (context : Context σ) : Context σ where
  resolve name arguments state := context.resolve name arguments (onResolve name arguments state)
  knows name state := context.knows name (onKnows name state)

/-- Claims every name and resolves none, so that a place can be held for a context to come. -/
def placeholder : Context σ :=
  stateless (fun name _ => .error (.placeholder name)) (fun _ => true)

end Context

end Formula
