import Std.Data.TreeMap
import Formula.Context

/-! Named numbers. A variable has no arguments. -/

namespace Formula

structure Bindings where
  values : Std.TreeMap String Float

namespace Bindings

def empty : Bindings := ⟨∅⟩

def get? (env : Bindings) (name : String) : Option Float := env.values[name]?

def insert (env : Bindings) (name : String) (value : Float) : Bindings :=
  ⟨env.values.insert name value⟩

/-- Binds a name, and answers with the value that it was bound to before. -/
def exchange (env : Bindings) (name : String) (value : Float) : Option Float × Bindings :=
  (env.get? name, env.insert name value)

def insertMany (env : Bindings) (bindings : List (String × Float)) : Bindings :=
  bindings.foldl (fun env (name, value) => env.insert name value) env

def ofList (bindings : List (String × Float)) : Bindings := empty.insertMany bindings

def size (env : Bindings) : Nat := env.values.size

def isEmpty (env : Bindings) : Bool := env.values.isEmpty

/-- Whether the same names are bound to equal numbers. -/
def agrees (a b : Bindings) : Bool :=
  a.size == b.size && a.values.all fun name x => (b.get? name).any fun y => x == y

def resolve (env : Bindings) (name : String) (arguments : List Float) :
    Except NameError Float :=
  match env.get? name, arguments with
  | some value, [] => .ok value
  | _, _ => .error (.unresolved name arguments.length)

def context {σ : Type} (env : Bindings) : Context σ :=
  .stateless env.resolve fun name => env.values.contains name

end Bindings

end Formula
