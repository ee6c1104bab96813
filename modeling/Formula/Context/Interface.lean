import Std.Data.TreeMap
import Formula.Context
import Formula.Text.Characters

/-! What a host value offers to expressions: properties and fields, which are read by name, and
methods, which are called with a fixed number of arguments. An interface is built once and may
serve many hosts; its accessors may change the host they are run on. -/

namespace Formula

open Text (quoted)

/-- How to read and to replace a part of a state. -/
structure Part (σ τ : Type) where
  get : σ → τ
  set : τ → σ → σ

abbrev Getter (τ : Type) := StateM τ Float

abbrev Method (τ : Type) := List Float → StateM τ Float

inductive Member (τ : Type) where
  | property (name : String) (get : Getter τ)
  | field (name : String) (get : Getter τ)
  | method (name : String) (arity : Nat) (call : Method τ)

structure Interface (τ : Type) where
  properties : Std.TreeMap String (Getter τ)
  fields : Std.TreeMap String (Getter τ)
  /-- The methods of a name by their number of arguments. -/
  methods : Std.TreeMap String (Std.TreeMap Nat (Method τ))
  /-- A name is listed only if there is a method of that name. -/
  isEmpty_overloads : ∀ (name : String) (overloads : Std.TreeMap Nat (Method τ)),
    methods[name]? = some overloads → overloads.isEmpty = false

/-- Host types with one interface for all their values. -/
class HasInterface (τ : Type) where
  interface : Interface τ

namespace Interface

variable {σ τ : Type}

def empty : Interface τ := ⟨∅, ∅, ∅, by simp⟩

def addProperty (interface : Interface τ) (name : String) (get : Getter τ) : Interface τ :=
  { interface with properties := interface.properties.insert name get }

def addField (interface : Interface τ) (name : String) (get : Getter τ) : Interface τ :=
  { interface with fields := interface.fields.insert name get }

/-- Adds a method, in place of an earlier one of that name and number of arguments. -/
def addMethod (interface : Interface τ) (name : String) (arity : Nat) (call : Method τ) :
    Interface τ :=
  { interface with
    methods := interface.methods.insert name ((interface.methods.getD name ∅).insert arity call)
    isEmpty_overloads := by
      intro other overloads h
      rw [Std.TreeMap.getElem?_insert] at h
      split at h
      · obtain rfl := Option.some.inj h
        exact Std.TreeMap.isEmpty_insert
      · exact interface.isEmpty_overloads other overloads h }

def add (interface : Interface τ) : Member τ → Interface τ
  | .property name get => interface.addProperty name get
  | .field name get => interface.addField name get
  | .method name arity call => interface.addMethod name arity call

def ofList (list : List (Member τ)) : Interface τ := list.foldl add empty

def contains (interface : Interface τ) (name : String) : Bool :=
  interface.properties.contains name || interface.fields.contains name
    || interface.methods.contains name

def method? (interface : Interface τ) (name : String) (arity : Nat) : Option (Method τ) :=
  (interface.methods[name]?).bind fun overloads => overloads[arity]?

/-- What a name stands for: without arguments a property, else a field, else a method without
arguments; with arguments only a method of that many. -/
def accessor? (interface : Interface τ) (name : String) (arguments : List Float) :
    Option (Getter τ) :=
  let method := (interface.method? name arguments.length).map fun call => call arguments
  if arguments = [] then interface.properties[name]? <|> interface.fields[name]? <|> method
  else method

def refusal (interface : Interface τ) (name : String) (arguments : List Float) : NameError :=
  if arguments = [] ∨ interface.methods.contains name then .unresolved name arguments.length
  else .unknownFunction name

def context (interface : Interface τ) : Context τ where
  resolve name arguments host :=
    match interface.accessor? name arguments with
    | some accessor =>
      match accessor host with
      | (value, host) => .ok value host
    | none => .error (interface.refusal name arguments) host
  knows name host := (interface.contains name, host)

def onPart (part : Part σ τ) (accessor : Getter τ) : Getter σ := fun state =>
  match accessor (part.get state) with
  | (value, host) => (value, part.set host state)

/-- The same interface for states that have the host as a part. -/
def within (interface : Interface τ) (part : Part σ τ) : Interface σ where
  properties := interface.properties.map fun _ get => onPart part get
  fields := interface.fields.map fun _ get => onPart part get
  methods := interface.methods.map fun _ overloads =>
    overloads.map fun _ call arguments => onPart part (call arguments)
  isEmpty_overloads := by
    intro name overloads h
    rw [Std.TreeMap.getElem?_map, Option.map_eq_some_iff] at h
    obtain ⟨original, ho, rfl⟩ := h
    rw [Std.TreeMap.isEmpty_map]
    exact interface.isEmpty_overloads name original ho

def bracketed (items : List String) : String := "[" ++ ", ".intercalate items ++ "]"

def signatures (interface : Interface τ) : List (String × Nat) :=
  interface.methods.toList.flatMap fun (name, overloads) =>
    overloads.keys.map fun arity => (name, arity)

def describe (interface : Interface τ) : String :=
  let methods := interface.signatures.map fun (name, arity) =>
    "(" ++ quoted name ++ ", " ++ toString arity ++ ")"
  "Members \x7b properties: " ++ bracketed (interface.properties.keys.map quoted)
    ++ ", fields: " ++ bracketed (interface.fields.keys.map quoted)
    ++ ", methods: " ++ bracketed methods ++ " \x7d"

def describeHost (interface : Interface τ) (host : String) : String :=
  "HostContext \x7b host: " ++ host ++ ", members: " ++ interface.describe ++ " \x7d"

end Interface

end Formula
