import Formula.Proofs.Lookup

/-! An interface as the sum of its history. A later member takes the place of an earlier one with
the same key, so only the last member of each key counts, and of these only the one that a name
stands for is run, once, with as many arguments as it takes. -/

namespace Formula

open Answer (outcome)
open Member (Key)

variable {σ τ υ : Type}

namespace Member

/-- The last member with this key in a history, with its place. -/
def last? (history : List (Member τ)) (key : Key) : Option (Member τ × Nat) :=
  history.zipIdx.reverse.find? fun entry => entry.1.key = key

/-- What a name stands for by a history: the last member of the first candidate that there is. -/
def chosen? (history : List (Member τ)) (name : String) (count : Nat) : Option (Member τ × Nat) :=
  (Key.candidates name count).findSome? (last? history)

abbrev Calls := List (Nat × List Float)

/-- Notes beside the host that it was read. -/
def noted (place : Nat) (arguments : List Float) (get : Getter τ) : Getter (τ × Calls) :=
  fun (host, calls) =>
    match get host with
    | (value, host) => (value, host, calls ++ [(place, arguments)])

/-- The same member, which notes each run. -/
def noting (place : Nat) : Member τ → Member (τ × Calls)
  | .property name get => .property name (noted place [] get)
  | .field name get => .field name (noted place [] get)
  | .method name arity call =>
    .method name arity fun arguments => noted place arguments (call arguments)

def observed (history : List (Member τ)) : List (Member (τ × Calls)) :=
  history.zipIdx.map fun (member, place) => member.noting place

theorem key_noting (place : Nat) (member : Member τ) : (member.noting place).key = member.key := by
  cases member <;> rfl

theorem run_noting (place : Nat) (member : Member τ) {arguments : List Float}
    (h : arguments.length = member.key.arity) :
    (member.noting place).run arguments = noted place arguments (member.run arguments) := by
  cases member with
  | property name get | field name get =>
    rw [List.eq_nil_of_length_eq_zero h]
    rfl
  | method name arity call => rfl

theorem last?_eq_some {history : List (Member τ)} {key : Key} {member : Member τ} {place : Nat}
    (h : last? history key = some (member, place)) :
    history[place]? = some member ∧ member.key = key := by
  have hmem := List.mem_of_find?_eq_some h
  rw [List.mem_reverse, List.mk_mem_zipIdx_iff_getElem?] at hmem
  exact ⟨hmem, by simpa using List.find?_some h⟩

theorem isSome_last?_method_iff {history : List (Member τ)} {name : String} {arity : Nat} :
    (last? history (.method name arity)).isSome ↔ ∃ call, .method name arity call ∈ history := by
  simp only [last?, List.find?_isSome, List.mem_reverse, Prod.exists,
    List.mk_mem_zipIdx_iff_getElem?, decide_eq_true_eq]
  constructor
  · rintro ⟨member, place, hplace, hkey⟩
    have hmem := List.mem_of_getElem? hplace
    cases member with
    | property other get | field other get => cases hkey
    | method other count call =>
      obtain ⟨rfl, rfl⟩ := Key.method.inj hkey
      exact ⟨call, hmem⟩
  · rintro ⟨call, hmem⟩
    obtain ⟨place, hplace⟩ := List.mem_iff_getElem?.mp hmem
    exact ⟨_, place, hplace, rfl⟩

theorem chosen?_eq_some {history : List (Member τ)} {name : String} {count : Nat}
    {member : Member τ} {place : Nat} (h : chosen? history name count = some (member, place)) :
    history[place]? = some member ∧ member.key.arity = count := by
  obtain ⟨key, hkey, hlast⟩ := List.exists_of_findSome?_eq_some h
  obtain ⟨hplace, rfl⟩ := last?_eq_some hlast
  exact ⟨hplace, Key.arity_of_mem_candidates hkey⟩

end Member

open Member (last? chosen? observed)

namespace Interface

section OfHistory

/-! The members of a history may be changed, as long as each keeps its key. -/

variable {f : Member τ × Nat → Member υ} (hf : ∀ entry, (f entry).key = entry.1.key)
  (history : List (Member τ)) (name : String) (arguments : List Float)

include hf

theorem find?_ofList_map (key : Key) : (ofList (history.zipIdx.map f)).find? key =
    (last? history key).map fun entry => (f entry).run := by
  rw [find?_ofList, ← List.map_reverse, List.find?_map, Option.map_map]
  simp only [Function.comp_def, hf]
  rfl

theorem contains_methods_ofList_map : (ofList (history.zipIdx.map f)).methods.contains name = true ↔
    ∃ arity call, .method name arity call ∈ history := by
  rw [contains_methods_iff]
  apply exists_congr
  intro arity
  have hfind : (ofList (history.zipIdx.map f)).method? name arity = _ :=
    find?_ofList_map hf history (.method name arity)
  rw [hfind, Option.isSome_map, Member.isSome_last?_method_iff]

theorem accessor?_ofList_map : (ofList (history.zipIdx.map f)).accessor? name arguments =
    (chosen? history name arguments.length).map fun entry => (f entry).run arguments := by
  rw [accessor?_eq, funext (find?_ofList_map hf history), chosen?]
  simp only [List.map_findSome?, Function.comp_def, Option.map_map]

theorem outcome_resolve_ofList_of_chosen {entry : Member τ × Nat}
    (h : chosen? history name arguments.length = some entry) (host : υ) :
    outcome ((ofList (history.zipIdx.map f)).context.resolve name arguments) host =
      (.ok ((f entry).run arguments host).1, ((f entry).run arguments host).2) := by
  rw [outcome_resolve, accessor?_ofList_map hf, h]
  rfl

theorem outcome_resolve_ofList_of_method (h : chosen? history name arguments.length = none)
    (hmethod : arguments = [] ∨ ∃ arity call, .method name arity call ∈ history) (host : υ) :
    outcome ((ofList (history.zipIdx.map f)).context.resolve name arguments) host =
      (.error (.unresolved name arguments.length), host) := by
  rw [outcome_resolve, accessor?_ofList_map hf, h, refusal,
    if_pos (hmethod.imp_right (contains_methods_ofList_map hf history name).mpr)]
  rfl

theorem outcome_resolve_ofList_of_no_method (h : chosen? history name arguments.length = none)
    (hmethod : ¬ (arguments = [] ∨ ∃ arity call, .method name arity call ∈ history)) (host : υ) :
    outcome ((ofList (history.zipIdx.map f)).context.resolve name arguments) host =
      (.error (.unknownFunction name), host) := by
  rw [outcome_resolve, accessor?_ofList_map hf, h, refusal,
    if_neg (mt (Or.imp_right (contains_methods_ofList_map hf history name).mp) hmethod)]
  rfl

end OfHistory

theorem ofList_eq (history : List (Member τ)) :
    ofList history = ofList (history.zipIdx.map Prod.fst) := by
  rw [List.zipIdx_map_fst]

theorem find?_ofList_eq_last? (history : List (Member τ)) (key : Key) :
    (ofList history).find? key = ((last? history key).map Prod.fst).map Member.run := by
  rw [ofList_eq, find?_ofList_map (fun _ => rfl), Option.map_map]
  rfl

end Interface

namespace Context

def Keeps (c : Context σ) (I : σ → Prop) : Prop :=
  (∀ name arguments state, I state → I (outcome (c.resolve name arguments) state).2) ∧
    ∀ name state, I state → I (c.knows name state).2

end Context

section Keeps

variable {I : σ → Prop}

theorem Context.keeps_stateless (resolve : String → List Float → Except NameError Float)
    (known : String → Bool) : (stateless resolve known).Keeps I := by
  refine ⟨fun name arguments state hstate => ?_, fun _ _ hstate => hstate⟩
  rwa [outcome_stateless]

theorem Cascade.choose?_keeps {xs : List (Context σ)} (h : ∀ c ∈ xs, c.Keeps I) (name : String)
    {state : σ} (hstate : I state) : I (choose? name xs state).2 ∧
      ∀ c, (choose? name xs state).1 = some c → c ∈ xs := by
  induction xs generalizing state with
  | nil => exact ⟨hstate, nofun⟩
  | cons x xs ih =>
    have hnext := (h x List.mem_cons_self).2 name state hstate
    rw [choose?]
    generalize x.knows name state = answer at hnext
    rcases answer with ⟨_ | _, next⟩
    · obtain ⟨hlast, hmem⟩ := ih (fun c hc => h c (List.mem_cons_of_mem x hc)) hnext
      exact ⟨hlast, fun c hc => List.mem_cons_of_mem x (hmem c hc)⟩
    · exact ⟨hnext, fun _ hc => Option.some.inj hc ▸ List.mem_cons_self⟩

theorem Cascade.keeps {xs : List (Context σ)} (h : ∀ c ∈ xs, c.Keeps I) :
    (Cascade.context ⟨xs⟩).Keeps I := by
  constructor
  · intro name arguments state hstate
    have hchoose := choose?_keeps h name hstate
    simp only [outcome, context]
    generalize choose? name xs state = chosen at hchoose
    obtain ⟨hnext, hmem⟩ := hchoose
    rcases chosen with ⟨_ | c, next⟩
    · exact hnext
    · exact (h c (hmem c rfl)).1 name arguments next hnext
  · intro name state hstate
    simp only [context, knowsAny_eq]
    exact (choose?_keeps h name hstate).1

theorem Layer.keeps (layer : Layer σ) (h : ∀ c ∈ layer.leaves, c.Keeps I) : layer.context.Keeps I :=
  layer.context_of_leaves (fun _ => Cascade.keeps) h

end Keeps

namespace Member

/-- The call is of a member of the history, with as many arguments as it takes. -/
def Fits (history : List (Member τ)) (call : Nat × List Float) : Prop :=
  ∃ member, history[call.1]? = some member ∧ call.2.length = member.key.arity

end Member

namespace Interface

variable {history : List (Member τ)} {name : String} {arguments : List Float}

/-- The last member of the first candidate that there is, and no other, is run, and once. -/
theorem resolve_of_chosen {member : Member τ} {place : Nat}
    (h : chosen? history name arguments.length = some (member, place)) (host : τ)
    (calls : Member.Calls) :
    outcome ((ofList history).context.resolve name arguments) host =
        (.ok (member.run arguments host).1, (member.run arguments host).2) ∧
      outcome ((ofList (observed history)).context.resolve name arguments) (host, calls) =
        (.ok (member.run arguments host).1,
          (member.run arguments host).2, calls ++ [(place, arguments)]) := by
  obtain ⟨-, harity⟩ := Member.chosen?_eq_some h
  constructor
  · rw [ofList_eq history]
    exact outcome_resolve_ofList_of_chosen (fun _ => rfl) history name arguments h host
  · refine (outcome_resolve_ofList_of_chosen (fun _ => Member.key_noting _ _) history name arguments
      h (host, calls)).trans ?_
    rw [Member.run_noting _ _ harity.symm]
    rfl

theorem resolve_of_not_chosen (h : chosen? history name arguments.length = none) (host : τ)
    (calls : Member.Calls) : ∃ error,
      (error = .unresolved name arguments.length ∧
          (arguments = [] ∨ ∃ arity call, .method name arity call ∈ history) ∨
        error = .unknownFunction name ∧ arguments ≠ [] ∧
          ∀ arity call, .method name arity call ∉ history) ∧
      outcome ((ofList history).context.resolve name arguments) host = (.error error, host) ∧
      outcome ((ofList (observed history)).context.resolve name arguments) (host, calls) =
        (.error error, host, calls) := by
  have hnoting : ∀ entry : Member τ × Nat, (entry.1.noting entry.2).key = entry.1.key :=
    fun _ => Member.key_noting _ _
  rw [ofList_eq history]
  by_cases hmethod : arguments = [] ∨ ∃ arity call, .method name arity call ∈ history
  · exact ⟨_, .inl ⟨rfl, hmethod⟩,
      outcome_resolve_ofList_of_method (fun _ => rfl) history name arguments h hmethod host,
      outcome_resolve_ofList_of_method hnoting history name arguments h hmethod (host, calls)⟩
  · obtain ⟨hne, hnone⟩ := not_or.mp hmethod
    exact ⟨_, .inr ⟨rfl, hne, fun arity call hmem => hnone ⟨arity, call, hmem⟩⟩,
      outcome_resolve_ofList_of_no_method (fun _ => rfl) history name arguments h hmethod host,
      outcome_resolve_ofList_of_no_method hnoting history name arguments h hmethod (host, calls)⟩

theorem keeps_calls {c : Context (τ × Member.Calls)} {P : Member.Calls → Prop}
    (h : ∀ calls, c.Keeps fun state => state.2 = calls) : c.Keeps fun state => P state.2 := by
  constructor
  · intro name arguments state hstate
    rwa [(h state.2).1 name arguments state rfl]
  · intro name state hstate
    rwa [(h state.2).2 name state rfl]

/-- No member is ever called with a number of arguments that is not its own. -/
theorem keeps_fits (history : List (Member τ)) :
    (ofList (observed history)).context.Keeps fun state =>
      ∀ call ∈ state.2, Member.Fits history call := by
  refine ⟨?_, fun _ _ hstate => hstate⟩
  rintro name arguments ⟨host, calls⟩ hcalls
  cases h : chosen? history name arguments.length with
  | some entry =>
    obtain ⟨member, place⟩ := entry
    obtain ⟨hplace, harity⟩ := Member.chosen?_eq_some h
    rw [(resolve_of_chosen h host calls).2]
    exact List.forall_mem_append.mpr
      ⟨hcalls, List.forall_mem_singleton.mpr ⟨member, hplace, harity.symm⟩⟩
  | none =>
    obtain ⟨error, -, -, hobserved⟩ := resolve_of_not_chosen h host calls
    rw [hobserved]
    exact hcalls

/-- What an interface is by its history. A name runs the member chosen by the history and no other,
or none, with an error that says whether there are methods of that name. A member is never run with
another number of arguments than its own, even by the trees evaluated in contexts around it.
Histories with the same last members make the same context, with the same list of methods. -/
theorem resolve_ofList (history : List (Member τ)) :
    (∀ name arguments host calls,
      match chosen? history name arguments.length with
      | some (member, place) =>
        history[place]? = some member ∧ member.key.arity = arguments.length ∧
        outcome ((ofList history).context.resolve name arguments) host =
          (.ok (member.run arguments host).1, (member.run arguments host).2) ∧
        outcome ((ofList (observed history)).context.resolve name arguments) (host, calls) =
          (.ok (member.run arguments host).1,
            (member.run arguments host).2, calls ++ [(place, arguments)])
      | none => ∃ error,
        (error = .unresolved name arguments.length ∧
            (arguments = [] ∨ ∃ arity call, .method name arity call ∈ history) ∨
          error = .unknownFunction name ∧ arguments ≠ [] ∧
            ∀ arity call, .method name arity call ∉ history) ∧
        outcome ((ofList history).context.resolve name arguments) host = (.error error, host) ∧
        outcome ((ofList (observed history)).context.resolve name arguments) (host, calls) =
          (.error error, host, calls)) ∧
    (∀ layer : Layer (τ × Member.Calls),
      (∀ c ∈ layer.leaves, c = (ofList (observed history)).context ∨
        ∀ calls, c.Keeps fun state => state.2 = calls) →
      ∀ (t : Node) (state : τ × Member.Calls), (∀ call ∈ state.2, Member.Fits history call) →
      ∀ call ∈ (outcome (t.evaluate layer.context) state).2.2, Member.Fits history call) ∧
    (∀ name arity, (name, arity) ∈ (ofList history).signatures ↔
      ∃ call, .method name arity call ∈ history) ∧
    (ofList history).signatures.Pairwise Precedes ∧
    ∀ other : List (Member τ),
      (∀ key, (last? other key).map Prod.fst = (last? history key).map Prod.fst) →
      (ofList other).context = (ofList history).context ∧
      (∀ name, (ofList other).contains name = (ofList history).contains name) ∧
      (ofList other).signatures = (ofList history).signatures := by
  refine ⟨?_, ?_, ?_, pairwise_signatures _, ?_⟩
  · intro name arguments host calls
    cases h : chosen? history name arguments.length with
    | some entry =>
      obtain ⟨hplace, harity⟩ := Member.chosen?_eq_some h
      exact ⟨hplace, harity, resolve_of_chosen h host calls⟩
    | none => exact resolve_of_not_chosen h host calls
  · intro layer hleaves t state hstate
    have hkeeps : layer.context.Keeps fun state => ∀ call ∈ state.2, Member.Fits history call := by
      apply layer.keeps
      intro c hc
      rcases hleaves c hc with rfl | hcalls
      · exact keeps_fits history
      · exact keeps_calls (P := fun calls => ∀ call ∈ calls, Member.Fits history call) hcalls
    exact t.keeps_evaluate hkeeps.1 hstate
  · intro name arity
    rw [mem_signatures, find?_ofList_eq_last?, Option.isSome_map, Option.isSome_map,
      Member.isSome_last?_method_iff]
  · intro other hother
    have hfind : (ofList other).find? = (ofList history).find? := by
      funext key
      rw [find?_ofList_eq_last?, find?_ofList_eq_last?, hother]
    exact ⟨context_congr hfind, contains_congr hfind, signatures_congr hfind⟩

def replaced : List (Member Float) :=
  [.method "scale" 1 fun _ heat => (0, heat), .field "heat" fun heat => (heat, heat),
    .method "scale" 1 fun arguments heat => (heat * arguments.sum, heat)]

def reordered : List (Member Float) :=
  [.method "scale" 1 fun arguments heat => (heat * arguments.sum, heat),
    .field "heat" fun heat => (heat, heat)]

def behindStandard : Layer (Float × Member.Calls) :=
  .cascade [.standard, .shared (.host (ofList (observed replaced)))]

theorem resolve_ofList_replaced :
    (∀ c ∈ behindStandard.leaves, c = (ofList (observed replaced)).context ∨
      ∀ calls, c.Keeps fun state => state.2 = calls) ∧
    (∀ (t : Node) (heat : Float), ∀ call ∈
      (outcome (t.evaluate behindStandard.context) (heat, [])).2.2, Member.Fits replaced call) ∧
    (∀ key, (last? reordered key).map Prod.fst = (last? replaced key).map Prod.fst) ∧
    (ofList reordered).context = (ofList replaced).context := by
  have hleaves : ∀ c ∈ behindStandard.leaves, c = (ofList (observed replaced)).context ∨
      ∀ calls, c.Keeps fun state => state.2 = calls :=
    List.forall_mem_cons.mpr ⟨.inr fun _ => Context.keeps_stateless _ _,
      List.forall_mem_singleton.mpr (.inl rfl)⟩
  have hlast : ∀ key, (last? reordered key).map Prod.fst = (last? replaced key).map Prod.fst := by
    intro key
    by_cases hscale : Key.method "scale" 1 = key
    · subst hscale
      rfl
    · by_cases hheat : Key.field "heat" = key
      · subst hheat
        rfl
      · simp [last?, reordered, replaced, Member.key, hscale, hheat]
  obtain ⟨-, hfits, -, -, hsame⟩ := resolve_ofList replaced
  exact ⟨hleaves, fun t heat => hfits _ hleaves t (heat, []) (List.forall_mem_nil _), hlast,
    (hsame reordered hlast).1⟩

end Interface

end Formula
