import Formula.Context.Cascade
import Formula.Context.Standard
import Formula.Context.Interface
import Formula.Context.Bindings

/-! Descriptions of contexts: the ones of this library, any other one, and lists of these that
are tried in order, to any depth. -/

namespace Formula

inductive Layer (σ : Type) where
  | standard
  | bindings (values : Bindings)
  | host (interface : Interface σ)
  | placeholder
  | other (c : Context σ)
  /-- A layer held by reference, perhaps in several places; it answers as the layer itself. -/
  | shared (layer : Layer σ)
  | cascade (layers : List (Layer σ))
deriving Inhabited

namespace Layer

variable {σ : Type}

mutual

def context : Layer σ → Context σ
  | .standard => Standard.context
  | .bindings values => values.context
  | .host interface => interface.context
  | .placeholder => .placeholder
  | .other c => c
  | .shared layer => context layer
  | .cascade layers => Cascade.context ⟨contexts layers⟩

def contexts : List (Layer σ) → List (Context σ)
  | [] => []
  | layer :: layers => context layer :: contexts layers

end

@[elab_as_elim]
theorem induct {motive : Layer σ → Prop} (standard : motive .standard)
    (bindings : ∀ values, motive (.bindings values))
    (host : ∀ interface, motive (.host interface)) (placeholder : motive .placeholder)
    (other : ∀ c, motive (.other c)) (shared : ∀ layer, motive layer → motive (.shared layer))
    (cascade : ∀ layers, (∀ layer ∈ layers, motive layer) → motive (.cascade layers))
    (layer : Layer σ) : motive layer :=
  match layer with
  | .standard => standard
  | .bindings values => bindings values
  | .host interface => host interface
  | .placeholder => placeholder
  | .other c => other c
  | .shared layer =>
    shared layer (layer.induct standard bindings host placeholder other shared cascade)
  | .cascade layers => cascade layers fun layer _ =>
    layer.induct standard bindings host placeholder other shared cascade

end Layer

end Formula
