import Formula.Proofs.Environment

/-! Bindings over whole histories. Names are bound one by one or many at once, and copies are saved
and restored. Of all that only one thing remains: the value to which each name was bound last, which
is found by going back through the history; nothing that can be asked depends on more. -/

namespace Formula.Bindings

open Answer (outcome)

inductive Step where
  | insert (place : Nat) (name : String) (value : Float)
  | bind (place : Nat) (name : String) (value : Float)
  | extend (place : Nat) (pairs : List (String × Float))
  | collect (place : Nat) (pairs : List (String × Float))
  /-- A copy of the bindings in one place is put into another, to save or to restore them. -/
  | copy (target origin : Nat)

def Step.target : Step → Nat
  | .insert place _ _ | .bind place _ _ => place
  | .extend place _ | .collect place _ => place
  | .copy target _ => target

/-- The bindings in each place, and what the insertions have answered. -/
structure Session where
  kept : Nat → Bindings
  answers : List (Option Float)

namespace Session

def start : Session := ⟨fun _ => .empty, []⟩

def put (session : Session) (place : Nat) (env : Bindings) : Session :=
  { session with kept := Function.update session.kept place env }

def perform (session : Session) : Step → Session
  | .insert place name value =>
    let (previous, env) := (session.kept place).exchange name value
    { session.put place env with answers := session.answers ++ [previous] }
  | .bind place name value => session.put place ((session.kept place).insert name value)
  | .extend place pairs => session.put place ((session.kept place).insertMany pairs)
  | .collect place pairs => session.put place (.ofList pairs)
  | .copy target origin => session.put target (session.kept origin)

@[simp] theorem answers_put (session : Session) (place : Nat) (env : Bindings) :
    (session.put place env).answers = session.answers := rfl

@[simp] theorem kept_put (session : Session) (here place : Nat) (env : Bindings) :
    (session.put here env).kept place = if here = place then env else session.kept place := by
  simp only [put, Function.update_apply, eq_comm]

end Session

/-- What a history leads to. The last step of a history stands first. -/
def after : List Step → Session
  | [] => .start
  | step :: earlier => (after earlier).perform step

/-- The value to which a name was bound last in a place. A copy leads to the place it was taken
from, as it was then. -/
def last? : List Step → Nat → String → Option Float
  | [], _, _ => none
  | .insert here x value :: earlier, place, name | .bind here x value :: earlier, place, name =>
    if here = place ∧ x = name then some value else last? earlier place name
  | .extend here pairs :: earlier, place, name =>
    if here = place then (lastValue? pairs name).or (last? earlier place name)
    else last? earlier place name
  | .collect here pairs :: earlier, place, name =>
    if here = place then lastValue? pairs name else last? earlier place name
  | .copy target origin :: earlier, place, name =>
    last? earlier (if target = place then origin else place) name

/-- The values that the insertions replaced. -/
def replaced : List Step → List (Option Float)
  | [] => []
  | .insert place name _ :: earlier => replaced earlier ++ [last? earlier place name]
  | _ :: earlier => replaced earlier

theorem get?_after (history : List Step) (place : Nat) (name : String) :
    ((after history).kept place).get? name = last? history place name := by
  induction history generalizing place with
  | nil => exact Std.TreeMap.getElem?_emptyc
  | cons step earlier ih =>
    cases step with
    | insert here x value | bind here x value =>
      by_cases h : here = place <;>
        simp [after, Session.perform, exchange, last?, get?_insert, h, ih]
    | extend here pairs =>
      by_cases h : here = place <;> simp [after, Session.perform, last?, get?_insertMany, h, ih]
    | collect here pairs =>
      by_cases h : here = place <;> simp [after, Session.perform, last?, get?_ofList, h, ih]
    | copy target origin =>
      by_cases h : target = place <;> simp [after, Session.perform, last?, h, ih]

theorem answers_after (history : List Step) : (after history).answers = replaced history := by
  induction history with
  | nil => rfl
  | cons step earlier ih =>
    cases step with
    | insert here x value => simp [after, Session.perform, exchange, replaced, get?_after, ih]
    | _ => exact ih

/-! What can be asked of bindings. -/

section

variable (env : Bindings)

def boundNames : Finset String := env.values.keys.toFinset

theorem mem_boundNames (name : String) : name ∈ env.boundNames ↔ (env.get? name).isSome := by
  rw [boundNames, List.mem_toFinset, Std.TreeMap.mem_keys, get?,
    Std.TreeMap.mem_iff_isSome_getElem?]

theorem card_boundNames : env.boundNames.card = env.size := by
  rw [boundNames, List.toFinset_card_of_nodup Std.TreeMap.nodup_keys, Std.TreeMap.length_keys, size]

theorem size_eq_zero_iff : env.size = 0 ↔ env.isEmpty = true := by
  rw [isEmpty, Std.TreeMap.isEmpty_eq_size_eq_zero, beq_iff_eq, size]

theorem all_values_iff (p : String → Float → Bool) :
    env.values.all p = true ↔ ∀ name value, env.get? name = some value → p name value = true := by
  have hall : env.values.all p = env.values.toList.all fun entry => p entry.1 entry.2 := by
    rw [Std.TreeMap.all, Std.DTreeMap.all, Std.DTreeMap.Internal.Impl.all_eq_all_toListModel,
      Std.TreeMap.toList, Std.DTreeMap.Const.toList,
      Std.DTreeMap.Internal.Impl.Const.toList_eq_toListModel_map, List.all_map]
    rfl
  simp [hall, List.all_eq_true, Prod.forall, Std.TreeMap.mem_toList_iff_getElem?_eq_some, get?]

end

def Matches (last last' : String → Option Float) : Prop :=
  ∀ name, Option.Rel (fun x y => (x == y) = true) (last name) (last' name)

theorem Matches.isSome_eq {last last' : String → Option Float} (h : Matches last last')
    (name : String) : (last name).isSome = (last' name).isSome := by
  have hname := h name
  generalize last name = x at hname
  generalize last' name = y at hname
  cases hname <;> rfl

theorem agrees_iff (a b : Bindings) : a.agrees b = true ↔ Matches a.get? b.get? := by
  rw [agrees, Bool.and_eq_true, beq_iff_eq, all_values_iff]
  constructor
  · rintro ⟨hsize, hall⟩ name
    -- All names of `a` are names of `b`, and `b` has no more of them.
    have hsubset : a.boundNames ⊆ b.boundNames := by
      intro x hx
      obtain ⟨value, hvalue⟩ := Option.isSome_iff_exists.mp ((mem_boundNames a x).mp hx)
      obtain ⟨y, hy, -⟩ := (Option.any_eq_true _ _).mp (hall x value hvalue)
      exact (mem_boundNames b x).mpr (Option.isSome_iff_exists.mpr ⟨y, hy⟩)
    have hnames : a.boundNames = b.boundNames := by
      apply Finset.eq_of_subset_of_card_le hsubset
      rw [card_boundNames, card_boundNames, hsize]
    cases ha : a.get? name with
    | some x =>
      obtain ⟨y, hy, hxy⟩ := (Option.any_eq_true _ _).mp (hall name x ha)
      rw [hy]
      exact .some hxy
    | none =>
      have hb : b.get? name = none := by
        rw [← Option.not_isSome_iff_eq_none, ← mem_boundNames, ← hnames, mem_boundNames, ha]
        simp
      rw [hb]
      exact .none
  · intro h
    have hnames : a.boundNames = b.boundNames := by
      ext name
      rw [mem_boundNames, mem_boundNames, h.isSome_eq]
    refine ⟨by rw [← card_boundNames, ← card_boundNames, hnames], ?_⟩
    intro name x hx
    have hname := h name
    rw [hx] at hname
    generalize b.get? name = other at hname ⊢
    cases hname with
    | some hxy => exact hxy

/-- The bindings are those of a mapping: they give its values to its names and to no others, and
have as many entries as it has names. -/
structure Reflects (env : Bindings) (last : String → Option Float) : Prop where
  get?_eq : env.get? = last
  resolve_bound : ∀ name value, last name = some value → env.resolve name [] = .ok value
  resolve_otherwise : ∀ name arguments, last name = none ∨ arguments ≠ [] →
    env.resolve name arguments = .error (.unresolved name arguments.length)
  knows_eq : ∀ {σ : Type} (name : String) (state : σ),
    env.context.knows name state = ((last name).isSome, state)
  size_eq : ∃ names : Finset String, (∀ name, name ∈ names ↔ (last name).isSome) ∧
    env.size = names.card
  isEmpty_iff : env.isEmpty = true ↔ env.size = 0
  answer_eq : ∀ name value, (env.exchange name value).1 = last name

theorem reflects_get? (env : Bindings) : env.Reflects env.get? where
  get?_eq := rfl
  resolve_bound name value h := by simp only [resolve, h]
  resolve_otherwise name arguments h := by
    simp only [resolve]
    split
    · rename_i hvalue
      rcases h with h | h
      · cases h.symm.trans hvalue
      · exact absurd rfl h
    · rfl
  knows_eq := env.knows_context
  size_eq := ⟨env.boundNames, env.mem_boundNames, env.card_boundNames.symm⟩
  isEmpty_iff := env.size_eq_zero_iff.symm
  answer_eq _ _ := rfl

/-- Nothing that can be asked tells the two apart. -/
structure Indistinct (a b : Bindings) : Prop where
  get?_eq : a.get? = b.get?
  resolve_eq : a.resolve = b.resolve
  context_eq : ∀ {σ : Type}, (a.context : Context σ) = b.context
  size_eq : a.size = b.size
  isEmpty_eq : a.isEmpty = b.isEmpty
  answer_eq : ∀ name value, (a.exchange name value).1 = (b.exchange name value).1
  agrees_left : ∀ other, a.agrees other = b.agrees other
  agrees_right : ∀ other : Bindings, other.agrees a = other.agrees b
  evaluate_eq : ∀ {σ : Type} (t : Node) (state : σ),
    outcome (t.evaluate a.context) state = outcome (t.evaluate b.context) state

theorem indistinct_of_get? {a b : Bindings} (h : a.get? = b.get?) : Indistinct a b := by
  have hequiv : a.values.Equiv b.values := .of_forall_constGet?_eq (congrFun h)
  have hresolve : a.resolve = b.resolve := by
    funext name arguments
    simp only [resolve, h]
  have hcontext {σ : Type} : (a.context : Context σ) = b.context := by
    have hknows : (fun name => a.values.contains name) = fun name => b.values.contains name :=
      funext fun name => hequiv.contains_eq
    rw [context, context, hresolve, hknows]
  exact {
    get?_eq := h
    resolve_eq := hresolve
    context_eq := hcontext
    size_eq := hequiv.size_eq
    isEmpty_eq := hequiv.isEmpty_eq
    answer_eq := fun name _ => congrFun h name
    agrees_left := fun other => by simp only [agrees, size, hequiv.size_eq, hequiv.all_eq]
    agrees_right := fun other => by simp only [agrees, size, hequiv.size_eq, h]
    evaluate_eq := fun t state => by rw [hcontext] }

/-! What a history leaves behind. -/

theorem last?_append_congr {history other : List Step} (h : last? history = last? other)
    (more : List Step) : last? (more ++ history) = last? (more ++ other) := by
  induction more with
  | nil => exact h
  | cons step more ih =>
    funext place name
    cases step <;> simp only [List.cons_append, last?, ih]

theorem last?_append_of_target_ne {more : List Step} {place : Nat}
    (h : ∀ step ∈ more, step.target ≠ place) (history : List Step) :
    last? (more ++ history) place = last? history place := by
  induction more with
  | nil => rfl
  | cons step more ih =>
    obtain ⟨hne, hmore⟩ := List.forall_mem_cons.mp h
    funext name
    have hrest := congrFun (ih hmore) name
    cases step <;> simp_all [last?, Step.target]

/-- Bindings that are restored are those that were saved, whatever was done to others than the saved
ones in the meantime. -/
theorem last?_restore {more : List Step} {saved : Nat} (h : ∀ step ∈ more, step.target ≠ saved)
    (place : Nat) (history : List Step) :
    last? (.copy place saved :: (more ++ .copy saved place :: history)) place =
      last? history place := by
  funext name
  rw [last?, if_pos rfl, last?_append_of_target_ne h, last?, if_pos rfl]

theorem exists_replaced_append {history other : List Step} (h : last? history = last? other)
    (more : List Step) : ∃ new, replaced (more ++ history) = replaced history ++ new ∧
      replaced (more ++ other) = replaced other ++ new := by
  induction more with
  | nil => exact ⟨[], (List.append_nil _).symm, (List.append_nil _).symm⟩
  | cons step more ih =>
    obtain ⟨new, hhistory, hother⟩ := ih
    cases step with
    | insert place name value =>
      refine ⟨new ++ [last? (more ++ history) place name], ?_, ?_⟩
      · rw [List.cons_append, replaced, hhistory, List.append_assoc]
      · rw [List.cons_append, replaced, hother, List.append_assoc, last?_append_congr h]
    | _ => exact ⟨new, hhistory, hother⟩

def insertion (place : Nat) (pair : String × Float) : Step := .insert place pair.1 pair.2

theorem last?_perm {pairs others : List (String × Float)} (h : pairs.Perm others)
    (hnodup : (pairs.map Prod.fst).Nodup) (place : Nat) (history : List Step) :
    last? (pairs.map (insertion place) ++ history) =
      last? (others.map (insertion place) ++ history) := by
  induction h with
  | nil => rfl
  | cons pair _ ih =>
    exact last?_append_congr (ih (List.nodup_cons.mp hnodup).2) [insertion place pair]
  | swap x y pairs =>
    funext here name
    have hne : y.1 ≠ x.1 := fun heq => (List.nodup_cons.mp hnodup).1 (by simp [heq])
    simp only [List.map_cons, List.cons_append, insertion, last?]
    grind
  | trans hfirst _ ih ih' =>
    exact (ih hnodup).trans (ih' ((hfirst.map Prod.fst).nodup_iff.mp hnodup))

/-- Over every history of insertions, extensions and copies the bindings are the mapping that gives
each name the value it was bound to last, and each insertion answers with the value it replaces. To
restore what was saved undoes all that was done in between. Bindings are equal if and only if their
mappings bind the same names to equal numbers. Where the mappings are the same, nothing that can be
asked tells the bindings apart, now or after the same further steps; so the order in which different
names are bound makes no difference. -/
theorem after_reflects (history : List Step) (place : Nat) :
    ((after history).kept place).Reflects (last? history place) ∧
    (after history).answers = replaced history ∧
    (∀ (saved : Nat) (more : List Step), (∀ step ∈ more, step.target ≠ saved) →
      last? (.copy place saved :: (more ++ .copy saved place :: history)) place =
        last? history place) ∧
    (∀ (other : List Step) (elsewhere : Nat),
      (((after history).kept place).agrees ((after other).kept elsewhere) = true ↔
        Matches (last? history place) (last? other elsewhere)) ∧
      (last? history place = last? other elsewhere →
        Indistinct ((after history).kept place) ((after other).kept elsewhere)) ∧
      (last? history = last? other → ∀ more : List Step,
        last? (more ++ history) = last? (more ++ other) ∧
        ∃ new, (after (more ++ history)).answers = (after history).answers ++ new ∧
          (after (more ++ other)).answers = (after other).answers ++ new)) ∧
    ∀ (pairs others : List (String × Float)) (more : List Step), pairs.Perm others →
      (pairs.map Prod.fst).Nodup →
      last? (more ++ (pairs.map (insertion place) ++ history)) =
        last? (more ++ (others.map (insertion place) ++ history)) := by
  have hget (history : List Step) (place : Nat) :
      ((after history).kept place).get? = last? history place :=
    funext (get?_after history place)
  refine ⟨hget history place ▸ reflects_get? _, answers_after history, ?_, ?_, ?_⟩
  · exact fun saved more h => last?_restore h place history
  · intro other elsewhere
    refine ⟨by rw [agrees_iff, hget, hget], fun h => indistinct_of_get? ?_, fun h more => ?_⟩
    · rw [hget, hget, h]
    · simp only [answers_after]
      exact ⟨last?_append_congr h more, exists_replaced_append h more⟩
  · exact fun pairs others more hperm hnodup =>
      last?_append_congr (last?_perm hperm hnodup place history) more

def restored : List Step :=
  [.copy 0 1, .extend 0 [("y", 4), ("z", 5)], .insert 0 "x" 3, .copy 1 0, .insert 0 "y" 2,
    .insert 0 "x" 1]

def collected : List Step := [.collect 7 [("x", 6), ("y", 2), ("x", 1)]]

theorem after_reflects_restored :
    last? restored 0 = last? [.insert 0 "y" 2, .insert 0 "x" 1] 0 ∧
    last? restored 0 = last? collected 7 ∧
    Indistinct ((after restored).kept 0) ((after collected).kept 7) ∧
    ((after restored).kept 0).Reflects (last? collected 7) ∧
    (after restored).answers = [none, none, some 1] ∧
    last? [.insert 0 "y" 2, .insert 0 "x" 1] = last? [.insert 0 "x" 1, .insert 0 "y" 2] ∧
    ∃ new, (after [.insert 0 "x" 3, .insert 0 "y" 2, .insert 0 "x" 1]).answers =
        (after [.insert 0 "y" 2, .insert 0 "x" 1]).answers ++ new ∧
      (after [.insert 0 "x" 3, .insert 0 "x" 1, .insert 0 "y" 2]).answers =
        (after [.insert 0 "x" 1, .insert 0 "y" 2]).answers ++ new := by
  obtain ⟨-, -, hrestore, -⟩ := after_reflects [.insert 0 "y" 2, .insert 0 "x" 1] 0
  have hsaved := hrestore 1 [.extend 0 [("y", 4), ("z", 5)], .insert 0 "x" 3]
    (by simp [Step.target])
  have hlast : last? restored 0 = last? collected 7 := by
    rw [restored, collected]
    refine hsaved.trans (funext fun name => ?_)
    simp only [last?, if_true, true_and, lastValue?_cons]
    grind [lastValue?]
  obtain ⟨hreflects, hanswers, -, hother, -⟩ := after_reflects restored 0
  obtain ⟨-, -, -, -, horder⟩ := after_reflects [] 0
  have hperm := horder [("y", 2), ("x", 1)] [("x", 1), ("y", 2)] [] (.swap _ _ _) (by simp)
  obtain ⟨-, -, -, hagain, -⟩ := after_reflects [.insert 0 "y" 2, .insert 0 "x" 1] 0
  obtain ⟨-, hnew⟩ := (hagain [.insert 0 "x" 1, .insert 0 "y" 2] 0).2.2 hperm [.insert 0 "x" 3]
  refine ⟨hsaved, hlast, (hother collected 7).2.1 hlast, hlast ▸ hreflects, ?_, hperm, hnew⟩
  rw [hanswers]
  simp [restored, replaced, last?]

end Formula.Bindings
