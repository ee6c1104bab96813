import Formula.Proofs.Known

/-! What an interface has is told by keys: a property or a field by its name, a method by its name
and its number of arguments. A member that is added takes the place of the one with the same key,
and of no other. Interfaces that have the same under each key have the same context and the same
list of methods. -/

namespace Formula

variable {τ : Type}

namespace Member

/-- What tells a member of an interface from the others. -/
inductive Key where
  | property (name : String)
  | field (name : String)
  | method (name : String) (arity : Nat)
deriving DecidableEq

namespace Key

def arity : Key → Nat
  | .property _ => 0
  | .field _ => 0
  | .method _ arity => arity

/-- What a name may stand for with so many arguments; the first that there is counts. -/
def candidates (name : String) : Nat → List Key
  | 0 => [.property name, .field name, .method name 0]
  | count + 1 => [.method name (count + 1)]

theorem arity_of_mem_candidates {key : Key} {name : String} {count : Nat}
    (h : key ∈ candidates name count) : key.arity = count := by
  cases count with
  | zero =>
    simp only [candidates, List.mem_cons, List.not_mem_nil, or_false] at h
    rcases h with rfl | rfl | rfl <;> rfl
  | succ count =>
    obtain rfl := List.mem_singleton.mp h
    rfl

end Key

def key : Member τ → Key
  | .property name _ => .property name
  | .field name _ => .field name
  | .method name arity _ => .method name arity

def run : Member τ → Method τ
  | .property _ get, _ => get
  | .field _ get, _ => get
  | .method _ _ call, arguments => call arguments

end Member

open Member (Key)

namespace Interface

def find? (interface : Interface τ) : Key → Option (Method τ)
  | .property name => (interface.properties[name]?).map fun get _ => get
  | .field name => (interface.fields[name]?).map fun get _ => get
  | .method name arity => interface.method? name arity

theorem find?_empty (key : Key) : (empty : Interface τ).find? key = none := by
  cases key <;> simp [find?, empty, method?]

theorem method?_addMethod (interface : Interface τ) (name other : String) (arity count : Nat)
    (call : Method τ) : (interface.addMethod name arity call).method? other count =
      if name = other ∧ arity = count then some call else interface.method? other count := by
  simp only [method?, addMethod, Std.TreeMap.getElem?_insert, Std.compare_eq_iff_eq]
  by_cases hname : name = other
  · subst hname
    simp only [if_true, true_and, Option.bind_some, Std.TreeMap.getElem?_insert,
      Std.compare_eq_iff_eq, Std.TreeMap.getD_eq_getD_getElem?]
    -- The other methods of the name are kept, if there are any.
    cases interface.methods[name]? <;> simp
  · simp only [hname, if_false, false_and]

theorem find?_add (interface : Interface τ) (member : Member τ) (key : Key) :
    (interface.add member).find? key =
      if member.key = key then some member.run else interface.find? key := by
  cases member with
  | property name get =>
    cases key with
    | property other =>
      simp only [find?, add, addProperty, Std.TreeMap.getElem?_insert, Std.compare_eq_iff_eq,
        Member.key, Key.property.injEq]
      split <;> rfl
    | field other => rfl
    | method other count => rfl
  | field name get =>
    cases key with
    | property other => rfl
    | field other =>
      simp only [find?, add, addField, Std.TreeMap.getElem?_insert, Std.compare_eq_iff_eq,
        Member.key, Key.field.injEq]
      split <;> rfl
    | method other count => rfl
  | method name arity call =>
    cases key with
    | property other => rfl
    | field other => rfl
    | method other count =>
      simp only [find?, add, method?_addMethod, Member.key, Key.method.injEq]
      rfl

theorem find?_foldl (interface : Interface τ) (members : List (Member τ)) (key : Key) :
    (members.foldl add interface).find? key =
      ((members.reverse.find? fun member => member.key = key).map Member.run).or
        (interface.find? key) := by
  induction members generalizing interface with
  | nil => rfl
  | cons member members ih =>
    rw [List.foldl_cons, ih, find?_add, List.reverse_cons, List.find?_append]
    cases members.reverse.find? fun member => member.key = key with
    | some last => rfl
    | none => by_cases h : member.key = key <;> simp [h]

/-- Under a key, an interface has the last member with this key. -/
theorem find?_ofList (members : List (Member τ)) (key : Key) :
    (ofList members).find? key =
      (members.reverse.find? fun member => member.key = key).map Member.run := by
  rw [ofList, find?_foldl, find?_empty, Option.or_none]

theorem accessor?_eq (interface : Interface τ) (name : String) (arguments : List Float) :
    interface.accessor? name arguments =
      ((Key.candidates name arguments.length).findSome? interface.find?).map fun call =>
        call arguments := by
  rcases arguments with _ | ⟨x, arguments⟩
  · rw [accessor?_nil]
    simp only [Key.candidates, find?, List.length_nil, List.findSome?_cons, List.findSome?_nil]
    cases interface.properties[name]? <;> cases interface.fields[name]? <;>
      cases interface.method? name 0 <;> rfl
  · rw [accessor?_of_ne_nil _ _ (List.cons_ne_nil _ _)]
    simp only [Key.candidates, find?, List.length_cons, List.findSome?_cons, List.findSome?_nil]
    cases interface.method? name (arguments.length + 1) <;> rfl

theorem mem_signatures {interface : Interface τ} {name : String} {arity : Nat} :
    (name, arity) ∈ interface.signatures ↔ (interface.find? (.method name arity)).isSome := by
  simp only [signatures, List.mem_flatMap, List.mem_map, Prod.exists, Prod.mk.injEq,
    Std.TreeMap.mem_toList_iff_getElem?_eq_some, Std.TreeMap.mem_keys, find?, method?]
  constructor
  · rintro ⟨_, overloads, hname, _, harity, rfl, rfl⟩
    rwa [hname, Option.bind_some, ← Std.TreeMap.mem_iff_isSome_getElem?]
  · intro h
    obtain ⟨call, hcall⟩ := Option.isSome_iff_exists.mp h
    obtain ⟨overloads, hname, harity⟩ := Option.bind_eq_some_iff.mp hcall
    refine ⟨name, overloads, hname, arity, ?_, rfl, rfl⟩
    rw [Std.TreeMap.mem_iff_isSome_getElem?, harity]
    rfl

def Precedes (a b : String × Nat) : Prop := a.1 < b.1 ∨ a.1 = b.1 ∧ a.2 < b.2

theorem pairwise_signatures (interface : Interface τ) :
    interface.signatures.Pairwise Precedes := by
  rw [signatures, List.pairwise_flatMap]
  constructor
  · rintro ⟨name, overloads⟩ -
    rw [List.pairwise_map]
    apply Std.TreeMap.ordered_keys.imp
    intro a b h
    exact .inr ⟨rfl, Nat.compare_eq_lt.mp h⟩
  · apply Std.TreeMap.ordered_keys_toList.imp
    rintro ⟨name, overloads⟩ ⟨other, others⟩ h a ha b hb
    obtain ⟨_, -, rfl⟩ := List.mem_map.mp ha
    obtain ⟨_, -, rfl⟩ := List.mem_map.mp hb
    exact .inl (compareOfLessAndEq_eq_lt.mp h)

theorem Precedes.asymm {a b : String × Nat} (h : Precedes a b) : ¬ Precedes b a := by
  rintro (hname | ⟨hname, harity⟩)
  · rcases h with h | ⟨h, -⟩
    · exact String.lt_asymm h hname
    · exact String.lt_irrefl _ (h ▸ hname)
  · rcases h with h | ⟨-, h⟩
    · exact String.lt_irrefl _ (hname ▸ h)
    · omega

section Congruence

variable {i j : Interface τ}

theorem contains_congr (h : i.find? = j.find?) (name : String) :
    i.contains name = j.contains name := by
  rw [Bool.eq_iff_iff, contains_iff, contains_iff]
  simp only [accessor?_eq, h]

/-- Interfaces that have the same under every key are the same context. -/
theorem context_congr (h : i.find? = j.find?) : i.context = j.context := by
  apply Context.eq_of_resolve_of_knows
  · intro name arguments host
    have hmethods : i.methods.contains name = j.methods.contains name := by
      rw [Bool.eq_iff_iff, contains_methods_iff, contains_methods_iff]
      apply exists_congr
      intro arity
      rw [show i.method? name arity = j.method? name arity from congrFun h (.method name arity)]
    simp only [context, accessor?_eq, refusal, h, hmethods]
  · intro name host
    simp only [context, contains_congr h]

theorem signatures_congr (h : i.find? = j.find?) : i.signatures = j.signatures := by
  have hnodup : ∀ k : Interface τ, k.signatures.Nodup := fun k =>
    k.pairwise_signatures.imp fun hab heq => (heq ▸ hab).asymm (heq ▸ hab)
  apply List.Perm.eq_of_pairwise _ i.pairwise_signatures j.pairwise_signatures
  · apply (List.perm_ext_iff_of_nodup (hnodup i) (hnodup j)).mpr
    rintro ⟨name, arity⟩
    rw [mem_signatures, mem_signatures, h]
  · intro a b _ _ hab hba
    exact absurd hba hab.asymm

end Congruence

end Interface

end Formula
