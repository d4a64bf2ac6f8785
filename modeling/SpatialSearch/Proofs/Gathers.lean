import SpatialSearch.PartitionedIndex.Basic
import SpatialSearch.Proofs.Collectives

/-!
# Successive gathers

All ranks of a group gather values any number of times, each time of any type, where the
values may depend on what was gathered before. All messages bear the same tag, and a fast
rank can have sent the values of later gathers while a slow one still takes those of the
first. Still every gather gives the same list on all ranks, the values that the ranks have
passed to this gather in the order of the ranks, and no rank waits for ever. An index that
is joined has the same roster on all ranks.
-/

namespace SpatialSearch

section

variable {n : Nat} {π κ : Type} {Item : κ → Type}

/-- Gathers that all ranks carry out one after the other, with values of several types. What
comes next may depend on what a gather has given. -/
inductive Gathers (n : Nat) (Item : κ → Type) : Type where
  | done
  | gather (k : κ) (value : Fin n → Item k) (next : List (Item k) → Gathers n Item)

namespace Gathers

/-- What a gather has given: values of one of the types. -/
abbrev Found (Item : κ → Type) := Except TransferFault ((k : κ) × List (Item k))

structure Call (n : Nat) (Item : κ → Type) where
  type : κ
  value : Fin n → Item type

def Call.all (c : Call n Item) : (k : κ) × List (Item k) := ⟨c.type, List.ofFn c.value⟩

/-- What the ranks pass to one gather after the other if each gather gives them the values of
all ranks. -/
def calls : Gathers n Item → List (Call n Item)
  | .done => []
  | .gather k value next => ⟨k, value⟩ :: (next (List.ofFn value)).calls

variable (kinds : (k : κ) → ElementKind π (Item k))

/-- What a rank does to carry out gathers, and what they give it. After a gather that fails
it stops. -/
def carryOut (i : Fin n) : Gathers n Item → Program π (List (Found Item))
  | .done => return []
  | .gather k value next => do
    match ← (Exchange.gather (kinds k) ⟨n, i⟩ (value i)).run with
    | .ok items => return .ok ⟨k, items⟩ :: (← (next items).carryOut i)
    | .error fault => return [.error fault]

def group (gathers : Gathers n Item) : Group n π (List (Found Item)) where
  programs := .ofFn fun i => gathers.carryOut kinds i
  mailboxes := .empty

def Call.stage (c : Call n Item) : Stage n π :=
  Exchange.swapStage (kinds c.type) .gather fun i _ => c.value i

/-- Every rank goes through a stage for each gather and finds the values of all ranks. -/
theorem performs_carryOut (gathers : Gathers n Item) (i : Fin n) :
    Program.Performs (Stage.course (gathers.calls.map (Call.stage kinds)) i)
      (gathers.carryOut kinds i) (.done (gathers.calls.map fun c => .ok c.all)) := by
  induction gathers with
  | done => exact .nil _
  | gather k value next ih =>
    have hfirst : Program.Performs ((Call.stage kinds ⟨k, value⟩).events i)
        (Exchange.gather (kinds k) ⟨n, i⟩ (value i)).run (.done (.ok (List.ofFn value))) :=
      Exchange.performs_swap (kinds k) .gather (fun i _ => value i) i
    rw [calls, List.map_cons, List.map_cons, Stage.course, List.flatMap_cons, carryOut]
    refine hfirst.andThen ?_
    have hlater := (ih (List.ofFn value)).bind fun results =>
      Program.done ((.ok ⟨k, List.ofFn value⟩ : Found Item) :: results)
    exact hlater

end Gathers

end

namespace PartitionedIndex

variable {α : Type} [Scalar α] {n : Nat}

def joining (own : Fin n → Index α) (options : Fin n → SearchOptions) :
    Group n (Content α) (Except SearchFault (PartitionedIndex α)) where
  programs := .ofFn fun i => (build ⟨n, i⟩ (own i) (options i)).run
  mailboxes := .empty

def commonRoster (own : Fin n → Index α) : Roster α :=
  .ofHoldings (List.ofFn fun i => .ofIndex (own i))

theorem settles_joining (own : Fin n → Index α) (options : Fin n → SearchOptions) :
    Group.AlwaysEnds (Group.Settled fun i => .ok ⟨⟨n, i⟩, own i, commonRoster own, options i⟩)
      (joining own options) := by
  obtain ⟨stages, -, hperf⟩ : Passes [.gather]
      (fun i => (build ⟨n, i⟩ (own i) (options i)).run)
      fun i => .ok ⟨⟨n, i⟩, own i, commonRoster own, options i⟩ :=
    ((Exchange.passes_gather Content.ofHoldings fun i => .ofIndex (own i)).adapt _).bind
      (Passes.done _)
  rw [joining, ← Group.of_none]
  exact Group.alwaysEnds_of_performs hperf

end PartitionedIndex

/-- In whatever order the ranks act, they are in step through all gathers, and in the end the
gathers have given all of them the same: gather by gather the values that the ranks have passed
to it. So all ranks that join indexes have the same roster. -/
theorem Gathers.agree_on_every_run {n : Nat} :
    (∀ {π κ : Type} {Item : κ → Type} (kinds : (k : κ) → ElementKind π (Item k))
        (gathers : Gathers n Item),
      (∀ log g, Group.Recorded (gathers.group kinds) log g →
        Group.InStep (gathers.calls.map (Call.stage kinds)) log g) ∧
      Group.AlwaysEnds (Group.Settled fun _ => gathers.calls.map fun c => .ok c.all)
        (gathers.group kinds)) ∧
    ∀ {α : Type} [Scalar α] (own : Fin n → Index α) (options : Fin n → SearchOptions),
      Group.AlwaysEnds
        (Group.Settled fun i =>
          .ok ⟨⟨n, i⟩, own i, PartitionedIndex.commonRoster own, options i⟩)
        (PartitionedIndex.joining own options) := by
  constructor
  · intro π κ Item kinds gathers
    have hgroup : gathers.group kinds = Group.of (gathers.carryOut kinds) .none :=
      (Group.of_none _).symm
    rw [hgroup]
    exact ⟨fun log g h => h.inStep (gathers.performs_carryOut kinds),
      Group.alwaysEnds_of_performs (gathers.performs_carryOut kinds)⟩
  · intro α _ own options
    exact PartitionedIndex.settles_joining own options

end SpatialSearch
