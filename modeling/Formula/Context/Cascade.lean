import Formula.Context

/-! Contexts tried in order. The first one that knows a name answers for it, whatever its answer
is; the others are not asked to resolve it. -/

namespace Formula

structure Cascade (σ : Type) where
  contexts : List (Context σ)

namespace Cascade

variable {σ : Type}

def empty : Cascade σ := ⟨[]⟩

def push (cascade : Cascade σ) (context : Context σ) : Cascade σ :=
  ⟨cascade.contexts ++ [context]⟩

def size (cascade : Cascade σ) : Nat := cascade.contexts.length

def isEmpty (cascade : Cascade σ) : Bool := cascade.contexts.isEmpty

def describe (cascade : Cascade σ) : String :=
  "FirstMatch \x7b contexts: " ++ toString cascade.size ++ " \x7d"

/-- The first context that knows the name. No context after it is asked. -/
def choose? (name : String) : List (Context σ) → StateM σ (Option (Context σ))
  | [], state => (none, state)
  | context :: contexts, state =>
    match context.knows name state with
    | (true, state) => (some context, state)
    | (false, state) => choose? name contexts state

def knowsAny (name : String) : List (Context σ) → StateM σ Bool
  | [], state => (false, state)
  | context :: contexts, state =>
    match context.knows name state with
    | (true, state) => (true, state)
    | (false, state) => knowsAny name contexts state

def context (cascade : Cascade σ) : Context σ where
  resolve name arguments state :=
    match choose? name cascade.contexts state with
    | (some context, state) => context.resolve name arguments state
    | (none, state) => .error (.unresolved name arguments.length) state
  knows name := knowsAny name cascade.contexts

/-- A cascade knows the names that it chooses a context for, and asks the same contexts. -/
theorem knowsAny_eq (name : String) (contexts : List (Context σ)) (state : σ) :
    knowsAny name contexts state = match choose? name contexts state with
      | (chosen, state) => (chosen.isSome, state) := by
  induction contexts generalizing state with
  | nil => rfl
  | cons context contexts ih =>
    rw [knowsAny, choose?]
    rcases context.knows name state with ⟨_ | _, state⟩
    · exact ih state
    · rfl

end Cascade

end Formula
