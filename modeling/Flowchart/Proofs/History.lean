import Flowchart.Codec.Node

/-!
Properties as a map that keeps the order of insertion. What was done to properties is a history of
changes, from which the values and the order of the keys follow.
-/
namespace Flowchart.Properties

open List

/-- The property that is put under a key, or nothing where the key is removed. -/
abbrev Change := Text × Option Property

variable {key : Text} {history : List Change} {properties : Properties}

/-- What a history, with its last change first, leaves under a key: the number of changes before the
key was first put in since its last removal, and the property last put there. -/
def standing (key : Text) : List Change → Option (Nat × Property)
  | [] => none
  | (other, change) :: history =>
    if other = key then
      change.map fun property => (((standing key history).map Prod.fst).getD history.length, property)
    else standing key history

/-- The first key was put in earlier. -/
def Before (history : List Change) (a b : Text) : Prop :=
  ∃ i j, (standing a history).map Prod.fst = some i ∧ (standing b history).map Prod.fst = some j ∧ i < j

/-- The properties are what the history leaves, in the order of insertion. -/
structure Records (history : List Change) (properties : Properties) : Prop where
  value : ∀ key, properties.get? key = (standing key history).map Prod.snd
  order : properties.keys.Pairwise (Before history)

theorem standing_lt {n : Nat} (h : (standing key history).map Prod.fst = some n) :
    n < history.length := by
  induction history generalizing n with
  | nil => cases h
  | cons change history ih =>
    obtain ⟨other, _ | property⟩ := change <;>
      cases hheld : (standing key history).map Prod.fst <;> grind [standing]

theorem mem_keys : key ∈ properties.keys ↔ (properties.get? key).isSome := by
  rw [get?, Option.isSome_map, keys]
  simp

theorem Records.nodup (h : Records history properties) : properties.keys.Nodup := by
  refine h.order.imp fun {a b} hbefore heq => ?_
  obtain ⟨i, j, hi, hj, hlt⟩ := hbefore
  grind

theorem get?_insert (property : Property) (other : Text) : (insert key property properties).get? other =
    if key = other then some property else properties.get? other := by
  induction properties with
  | nil => by_cases h : key = other <;> simp [insert, get?, h]
  | cons entry properties ih => grind [insert, get?]

theorem keys_insert (property : Property) : (insert key property properties).keys =
    if key ∈ properties.keys then properties.keys else properties.keys ++ [key] := by
  induction properties with
  | nil => rfl
  | cons entry properties ih => grind [insert, keys]

theorem get?_erase (h : properties.keys.Nodup) (other : Text) :
    (erase key properties).get? other = if key = other then none else properties.get? other := by
  induction properties with
  | nil => simp [erase, get?]
  | cons entry properties ih => grind [erase, get?, keys]

theorem keys_erase : (erase key properties).keys = properties.keys.erase key := by
  induction properties with
  | nil => rfl
  | cons entry properties ih => grind [erase, keys]

theorem Records.insert (h : Records history properties) (key : Text) (property : Property) :
    Records ((key, some property) :: history) (insert key property properties) := by
  refine ⟨fun other => by grind [get?_insert, standing, h.value], ?_⟩
  have hbefore : properties.keys.Pairwise (Before ((key, some property) :: history)) :=
    h.order.imp fun hbefore => by grind [Before, standing]
  rw [keys_insert]
  split
  · exact hbefore
  · next hnew =>
    -- A new key is put in by the last change, after everything that stands.
    refine pairwise_append.mpr ⟨hbefore, pairwise_singleton .., fun a ha b hb => ?_⟩
    rw [mem_keys, h.value, Option.isSome_map] at ha hnew
    obtain ⟨held, hheld⟩ := Option.isSome_iff_exists.mp ha
    have hlt := standing_lt (congrArg (Option.map Prod.fst) hheld)
    have hnone := Option.not_isSome_iff_eq_none.mp hnew
    grind [Before, standing]

theorem Records.erase (h : Records history properties) (key : Text) :
    Records ((key, none) :: history) (erase key properties) := by
  refine ⟨fun other => by grind [get?_erase h.nodup, standing, h.value], ?_⟩
  rw [keys_erase]
  refine (h.order.sublist erase_sublist).imp_of_mem fun ha hb hbefore => ?_
  have hne := h.nodup.mem_erase_iff.mp ha
  have hne' := h.nodup.mem_erase_iff.mp hb
  grind [Before, standing]

theorem records_nil : Records [] [] := ⟨fun _ => rfl, .nil⟩

/-- An insertion, a removal, or a start from entries or from what is read. Where reading fails the
properties stay. -/
inductive Operation where
  | insert (key : Text) (property : Property)
  | erase (key : Text)
  | ofEntries (entries : List (Text × Property))
  | read (json : Json)

namespace Operation

def run (properties : Properties) : Operation → Properties
  | .insert key property => properties.insert key property
  | .erase key => properties.erase key
  | .ofEntries entries => Properties.ofEntries entries
  | .read json => (ofJson? json).getD properties

/-- The entries of an object in the order they are written. -/
def entries? : Json → Option (List (Text × Property))
  | .object fields =>
    fields.mapM fun field => (Property.ofJson? field.2).map fun property => (field.1, property)
  | _ => none

def insertions (entries : List (Text × Property)) (history : List Change) : List Change :=
  entries.foldl (fun history entry => (entry.1, some entry.2) :: history) history

/-- The history after an operation. A start begins a new one. -/
def record (history : List Change) : Operation → List Change
  | .insert key property => (key, some property) :: history
  | .erase key => (key, none) :: history
  | .ofEntries entries => insertions entries []
  | .read json => (entries? json).elim history (insertions · [])

theorem ofJson?_eq (json : Json) : ofJson? json = (entries? json).map Properties.ofEntries := by
  cases json with
  | object fields => exact (Option.map_eq_bind ..).symm
  | _ => rfl

end Operation

open Operation

theorem Records.insertAll (h : Records history properties) (entries : List (Text × Property)) :
    Records (insertions entries history) (insertAll properties entries) := by
  induction entries generalizing history properties with
  | nil => exact h
  | cons entry entries ih => exact ih (h.insert entry.1 entry.2)

theorem Records.run (h : Records history properties) (operation : Operation) :
    Records (operation.record history) (operation.run properties) := by
  cases operation with
  | insert key property => exact h.insert key property
  | erase key => exact h.erase key
  | ofEntries entries => exact records_nil.insertAll entries
  | read json =>
    rw [Operation.run, record, ofJson?_eq]
    cases entries? json with
    | none => exact h
    | some entries => exact records_nil.insertAll entries

theorem Records.foldl (h : Records history properties) (operations : List Operation) :
    Records (operations.foldl record history) (operations.foldl Operation.run properties) := by
  induction operations generalizing history properties with
  | nil => exact h
  | cons operation operations ih => exact ih (h.run operation)

/-- After any operations the keys are distinct, the property under a key is the last one put there
since its last removal, and the keys stand in the order in which they were first put in since then. -/
theorem insertion_ordered (operations : List Operation) :
    let properties := operations.foldl Operation.run []
    let history := operations.foldl record []
    properties.keys.Nodup ∧
      (∀ key, properties.get? key = (standing key history).map Prod.snd) ∧
      properties.keys.Pairwise (Before history) :=
  have h := records_nil.foldl operations
  ⟨h.nodup, h.value, h.order⟩

end Flowchart.Properties
