import Mathlib.Algebra.BigOperators.Fin
import SpatialSearch.Proofs.Collectives
import SpatialSearch.PartitionedIndex.Content

/-!
# Deliveries along a plan

Along a plan that all ranks have agreed on they can post any number of payloads, each of an
element type of its own. Of every payload each rank gets what all ranks have addressed to it,
grouped by the ranks it comes from and within a group in the order in which it was listed.

The announced sizes are trusted, the share of a rank for itself is not sent, and a rank may be
whole payloads ahead of another: none of this shows in what is delivered.
-/

namespace SpatialSearch

theorem flatMap_comm_perm {β γ δ : Type} (l : List β) (m : List γ) (f : β → γ → List δ) :
    (l.flatMap fun b => m.flatMap (f b)).Perm (m.flatMap fun c => l.flatMap fun b => f b c) := by
  induction l with
  | nil => simp
  | cons b rest ih =>
    simp only [List.flatMap_cons]
    exact (ih.append_left _).trans (List.flatMap_append_perm m (f b) _)

/-- A list is made of the parts that belong to each rank. -/
theorem flatMap_filter_perm {n : Nat} {β : Type} (l : List (Fin n × β)) :
    ((List.finRange n).flatMap fun r => l.filter (·.1 = r)).Perm l := by
  induction l with
  | nil => simp
  | cons x rest ih =>
    have hparts : ∀ r, (x :: rest).filter (·.1 = r) =
        (if r = x.1 then [x] else []) ++ rest.filter (·.1 = r) := by
      intro r
      by_cases h : r = x.1
      · simp [h]
      · simp [h, Ne.symm h]
    simp only [hparts]
    apply (List.flatMap_append_perm _ _ _).symm.trans
    rw [Stage.flatMap_pick (List.nodup_finRange n), if_pos (List.mem_finRange x.1)]
    exact ih.append_left [x]

namespace Plan

variable {n : Nat} {π κ : Type} {Item : κ → Type} {destinations : Fin n → List (Fin n)}

/-- Items of one kind that all ranks post along a plan, one for each destination. -/
structure Payload (Item : κ → Type) (destinations : Fin n → List (Fin n)) where
  kind : κ
  items : (s : Fin n) → List (Item kind)
  length_items : ∀ s, (items s).length = (destinations s).length

def postLoad (plan : Plan) (kinds : (k : κ) → ElementKind π (Item k))
    (load : (k : κ) × List (Item k)) : Exchange π ((k : κ) × List (Item k)) :=
  Sigma.mk load.1 <$> plan.post (kinds load.1) load.2

def deliver (counts : ElementKind π Nat) (kinds : (k : κ) → ElementKind π (Item k)) (seat : Seat)
    (destinations : List Nat) (outgoing : List ((k : κ) × List (Item k))) :
    Exchange π (Plan × List ((k : κ) × List (Item k))) := do
  let plan ← negotiate counts seat destinations
  let incoming ← outgoing.mapM (plan.postLoad kinds)
  return (plan, incoming)

namespace Payload

variable (p : Payload Item destinations)

def exports (s : Fin n) : List (Fin n × Item p.kind) := (destinations s).zip (p.items s)

/-- What one rank addresses to another, in the order in which it lists it. -/
def addressed (s r : Fin n) : List (Item p.kind) := ((p.exports s).filter (·.1 = r)).map (·.2)

/-- What all ranks address to one, by ascending ranks, each item with the rank it comes from. -/
def delivered (r : Fin n) : List (Fin n × Item p.kind) :=
  (List.finRange n).flatMap fun s => (p.addressed s r).map (s, ·)

def load (s : Fin n) : (k : κ) × List (Item k) := ⟨p.kind, p.items s⟩

def received (r : Fin n) : (k : κ) × List (Item k) := ⟨p.kind, (p.delivered r).map (·.2)⟩

@[simp] theorem map_fst_exports (s : Fin n) : (p.exports s).map (·.1) = destinations s :=
  List.map_fst_zip (Nat.le_of_eq (p.length_items s).symm)

@[simp] theorem map_snd_exports (s : Fin n) : (p.exports s).map (·.2) = p.items s :=
  List.map_snd_zip (Nat.le_of_eq (p.length_items s))

/-- No item is lost and none is delivered twice. -/
theorem delivered_perm : ((List.finRange n).flatMap p.delivered).Perm
    ((List.finRange n).flatMap fun s => (p.items s).map (s, ·)) := by
  apply (flatMap_comm_perm _ _ fun r s => (p.addressed s r).map (s, ·)).trans
  refine List.Perm.flatMap_left _ fun s _ => ?_
  have hparts := ((flatMap_filter_perm (p.exports s)).map (·.2)).map (s, ·)
  rw [map_snd_exports, List.map_flatMap, List.map_flatMap] at hparts
  exact hparts

theorem length_addressed (s r : Fin n) : (p.addressed s r).length = (destinations s).count r := by
  rw [addressed, List.length_map, List.count_eq_length_filter, ← p.map_fst_exports s,
    List.filter_map, List.length_map]
  rfl

/-- As many items are delivered to a rank as destinations name it. -/
theorem length_delivered (r : Fin n) :
    (p.delivered r).length = ∑ s, (destinations s).count r := by
  rw [delivered, List.length_flatMap, Fin.sum_univ_def]
  simp only [List.length_map, length_addressed]

/-- The ranks that items come from, whatever the items are. -/
theorem map_source_delivered (r : Fin n) : (p.delivered r).map (·.1.val) =
    (List.finRange n).flatMap fun s => List.replicate ((destinations s).count r) s.val := by
  rw [delivered, List.map_flatMap]
  refine List.flatMap_congr fun s _ => ?_
  rw [List.map_map, ← p.length_addressed s r]
  simp [Function.comp_def]

def parcels (s : Fin n) : List (Nat × Item p.kind) :=
  (p.exports s).map fun x => (x.1.val, x.2)

theorem map_fst_parcels (s : Fin n) : (p.parcels s).map (·.1) = (destinations s).map Fin.val := by
  rw [← p.map_fst_exports s, parcels, List.map_map, List.map_map]
  rfl

theorem map_snd_parcels (s : Fin n) : (p.parcels s).map (·.2) = p.items s := by
  rw [← p.map_snd_exports s, parcels, List.map_map]
  rfl

theorem arrivals_parcels (r : Fin n) :
    arrivals p.parcels r = (p.delivered r).map fun x => (x.1.val, x.2) := by
  rw [arrivals, delivered, List.map_flatMap]
  refine List.flatMap_congr fun s _ => ?_
  have hfilter : (p.parcels s).filter (·.1 == r.val) =
      ((p.exports s).filter (·.1 = r)).map fun x => (x.1.val, x.2) := by
    rw [parcels, List.filter_map]
    congr 1
    refine List.filter_congr fun x _ => ?_
    simp [Fin.ext_iff, Bool.beq_eq_decide_eq]
  rw [hfilter, addressed, List.map_map, List.map_map, List.map_map]
  rfl

end Payload

variable (kinds : (k : κ) → ElementKind π (Item k))
  (hroom : ∀ r, ∑ s, (destinations s).count r < Count.room)

include hroom

/-- Every rank gets of a payload what all ranks address to it. -/
theorem passes_postLoad (p : Payload Item destinations) : Passes [.payload]
    (fun i => ((joint (fun s => (destinations s).map Fin.val) i).postLoad kinds (p.load i)).run)
    fun i => .ok (p.received i) := by
  have harrive : ∀ r, (arrivals p.parcels r).length < Count.room := by
    intro r
    rw [p.arrivals_parcels, List.length_map, p.length_delivered]
    exact hroom r
  have hpost := (passes_post p.parcels (kinds p.kind) harrive).map fun _ items =>
    (⟨p.kind, items⟩ : (k : κ) × List (Item k))
  simp only [p.map_fst_parcels, p.map_snd_parcels, p.arrivals_parcels, List.map_map] at hpost
  exact hpost

/-- Payload after payload goes the same way. -/
theorem passes_payloads (payloads : List (Payload Item destinations)) :
    Passes (List.replicate payloads.length .payload)
      (fun i => ((payloads.map (·.load i)).mapM
        ((joint (fun s => (destinations s).map Fin.val) i).postLoad kinds)).run)
      fun i => .ok (payloads.map (·.received i)) := by
  induction payloads with
  | nil => exact Passes.done _
  | cons p rest ih =>
    simp only [List.map_cons, List.mapM_cons]
    have hrest := ih.map fun i later => p.received i :: later
    simp only [map_eq_pure_bind] at hrest
    exact (passes_postLoad kinds hroom p).bind hrest

omit hroom

/-- The destinations alone, as items without content. -/
def signals (destinations : Fin n → List (Fin n)) :
    Payload (fun _ : Unit => Unit) destinations where
  kind := ()
  items s := (destinations s).map fun _ => ()
  length_items _ := List.length_map _

theorem receiveTotal_of_destinations (r : Fin n)
    (hroom : ∑ s, (destinations s).count r < Count.room) :
    (joint (fun s => (destinations s).map Fin.val) r).receiveTotal =
      .ok (∑ s, (destinations s).count r) := by
  have hlength : (arrivals (signals destinations).parcels r).length =
      ∑ s, (destinations s).count r := by
    rw [Payload.arrivals_parcels, List.length_map, Payload.length_delivered]
  have htotal := receiveTotal_joint (signals destinations).parcels (hlength ▸ hroom)
  rwa [hlength, funext (signals destinations).map_fst_parcels] at htotal

theorem sources_of_payload (p : Payload Item destinations) (r : Fin n) :
    (joint (fun s => (destinations s).map Fin.val) r).sources =
      (p.delivered r).map (·.1.val) := by
  have hsources := sources_joint p.parcels r
  rw [p.arrivals_parcels, List.map_map, funext p.map_fst_parcels] at hsources
  exact hsources

/-- Every rank agrees on a plan with the others and posts its part of each payload along it. -/
def deliveries (counts : ElementKind π Nat) (kinds : (k : κ) → ElementKind π (Item k))
    (payloads : List (Payload Item destinations)) :
    Group n π (Except TransferFault (Plan × List ((k : κ) × List (Item k)))) where
  programs := .ofFn fun i =>
    (deliver counts kinds ⟨n, i⟩ ((destinations i).map Fin.val) (payloads.map (·.load i))).run
  mailboxes := .empty

/-- What a rank has when all payloads are delivered: a plan that knows how many items name the
rank and which rank each comes from, and of every payload the items for it. -/
structure Delivery (payloads : List (Payload Item destinations)) (r : Fin n) (plan : Plan)
    (incoming : List ((k : κ) × List (Item k))) : Prop where
  receives : plan.receiveTotal = .ok (∑ s, (destinations s).count r)
  sources_eq : plan.sources =
    (List.finRange n).flatMap fun s => List.replicate ((destinations s).count r) s.val
  sources : ∀ p ∈ payloads, plan.sources = (p.delivered r).map (·.1.val)
  incoming_eq : incoming = payloads.map fun p => ⟨p.kind, (p.delivered r).map (·.2)⟩

/-- Whatever the order in which the ranks act, every payload is delivered as it was addressed, and
nothing is left under way. -/
theorem deliveries_exact (counts : ElementKind π Nat) (kinds : (k : κ) → ElementKind π (Item k))
    (payloads : List (Payload Item destinations))
    (hroom : ∀ r, ∑ s, (destinations s).count r < Count.room) :
    Group.AlwaysEnds (fun g =>
        (∀ r, ∃ plan incoming, g.programs.get r = .done (.ok (plan, incoming)) ∧
          Delivery payloads r plan incoming) ∧
        ∀ s d, g.mailboxes.queue s d = []) (deliveries counts kinds payloads) ∧
      ∀ p ∈ payloads, ((List.finRange n).flatMap p.delivered).Perm
        ((List.finRange n).flatMap fun s => (p.items s).map (s, ·)) := by
  refine ⟨?_, fun p _ => p.delivered_perm⟩
  have hdest : ∀ i, ∀ dest ∈ (destinations i).map Fin.val, dest < n := by
    intro i dest hmem
    obtain ⟨d, -, rfl⟩ := List.mem_map.mp hmem
    exact d.isLt
  have hposts := (passes_payloads kinds hroom payloads).map fun i incoming =>
    (joint (fun s => (destinations s).map Fin.val) i, incoming)
  simp only [map_eq_pure_bind] at hposts
  have hall := ((passes_negotiate counts hdest).bind (q := fun i plan => do
    let incoming ← (payloads.map (·.load i)).mapM (plan.postLoad kinds)
    return (plan, incoming)) hposts).together
  refine hall.alwaysEnds ⟨fun r => ?_, fun s d => Queues.queue_toMailboxes _ s d⟩
  have htotal := receiveTotal_of_destinations r (hroom r)
  have hsources := (sources_of_payload (signals destinations) r).trans
    ((signals destinations).map_source_delivered r)
  exact ⟨_, _, Group.programs_get_of _ _ r, htotal, hsources, fun p _ => sources_of_payload p r,
    rfl⟩

/-- Two ranks with five items each, which go to the other rank and to the own one in turn: numbers
first, then texts. -/
def alternating : List (Payload PlainKind.Value fun s : Fin 2 => [s.rev, s, s.rev, s.rev, s]) :=
  [⟨.count, fun s => [0, 1, 2, 3, 4].map (· + 10 * s.val), fun _ => rfl⟩,
    ⟨.text, fun _ => ["a", "b", "c", "d", "e"], fun _ => rfl⟩]

theorem deliveries_exact_alternating :
    Group.AlwaysEnds (fun g =>
        (∀ r, ∃ plan incoming, g.programs.get r = .done (.ok (plan, incoming)) ∧
          Delivery alternating r plan incoming) ∧
        ∀ s d, g.mailboxes.queue s d = [])
      (deliveries (Content.ofPlain .count) (Content.ofPlain (α := Nat)) alternating) ∧
      ∀ p ∈ alternating, ((List.finRange 2).flatMap p.delivered).Perm
        ((List.finRange 2).flatMap fun s => (p.items s).map (s, ·)) := by
  have hroom : ∀ r : Fin 2, ∑ s : Fin 2, [s.rev, s, s.rev, s.rev, s].count r < Count.room := by
    decide
  exact deliveries_exact _ _ alternating hroom

end Plan

end SpatialSearch
