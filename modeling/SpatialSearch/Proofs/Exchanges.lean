import SpatialSearch.Proofs.Batches
import SpatialSearch.Proofs.Deliveries

/-!
# Requests and their answers

An exchange brings every rank the answers to its requests: by ascending ranks that answer, and of
each rank in the order in which its requests were listed. A rank may divide the requests that
arrive into parts that are answered side by side, each part with scratch space of its own; how it
divides them does not show in the answers.
-/

namespace SpatialSearch

namespace Request

variable {α : Type} [Scalar α]

/-- Answer requests in parts, each with scratch space of its own. -/
def respondInParts (index : Index α) (rank room : Nat) (parts : List (List (Request α))) :
    Except IndexFault (List (List (Answer α))) :=
  (parts.mapM fun part => respondAll index rank part ⟨.empty room, []⟩).map List.flatten

theorem respondInParts_whole (index : Index α) (rank room : Nat) (requests : List (Request α)) :
    respondInParts index rank room [requests] =
      respondAll index rank requests ⟨.empty room, []⟩ := by
  rw [respondInParts, List.mapM_cons, List.mapM_nil]
  cases respondAll index rank requests ⟨.empty room, []⟩ with
  | error fault => rfl
  | ok answers => exact congrArg Except.ok (List.append_nil answers)

/-- The answers of a rank to a request, which name both, whatever its scratch space holds. -/
structure Replied (s : Share α) (room rank : Nat) (r : Request α) (answers : List (Answer α)) :
    Prop where
  respond : ∀ scratch : Scratch α, scratch.queue.capacity = room →
    (r.respond s.index rank scratch).1 = .ok answers
  named : ∀ a ∈ answers, a.rank = rank ∧ a.number = r.number

variable [LawfulScalar α] (s : Share α)

theorem respondInParts_eq (rank : Nat) {room : Nat} {parts : List (List (Request α))}
    {incoming : List (Request α)} (hparts : parts.flatten = incoming)
    (hlimit : ∀ r ∈ incoming, ∀ t, r.query = .nearest t → t.k ≤ room) :
    respondInParts s.index rank room parts = .ok (incoming.map (answers s room rank)) := by
  subst hparts
  have heach : parts.mapM (fun part => respondAll s.index rank part ⟨.empty room, []⟩) =
      .ok (parts.map fun part => part.map (answers s room rank)) := by
    induction parts with
    | nil => rfl
    | cons part rest ih =>
      have hpart : respondAll s.index rank part ⟨.empty room, []⟩ =
          .ok (part.map (answers s room rank)) :=
        respondAll_eq s rank fun r hr =>
          hlimit r (List.mem_append_left _ hr)
      rw [List.mapM_cons, hpart, ih fun r hr => hlimit r (List.mem_append_right _ hr)]
      rfl
  rw [respondInParts, heach, List.map_flatten]
  rfl

theorem replied_answers (rank : Nat) {room : Nat} {r : Request α}
    (hlimit : ∀ t, r.query = .nearest t → t.k ≤ room) :
    Replied s room rank r (r.answers s room rank) where
  respond scratch hroom := by
    subst hroom
    obtain ⟨after, hrespond, -⟩ := respond_eq s rank hlimit
    rw [hrespond]
  named a ha := (number_of_mem_answers ha).symm

end Request

namespace PartitionedIndex

variable {α : Type} [Scalar α] {n : Nat}

def exchangeInParts (x : PartitionedIndex α) (divide : List (Request α) → List (List (Request α)))
    (requests : List (Nat × Request α)) : Search α (List (Answer α)) :=
  x.exchangeWith (fun incoming => Request.respondInParts x.own x.seat.rank x.options.neighborLimit
    (divide incoming)) requests

/-- What arrives can be left in one part. -/
theorem exchangeInParts_whole (x : PartitionedIndex α) (requests : List (Nat × Request α)) :
    x.exchangeInParts (fun incoming => [incoming]) requests = x.exchange requests := by
  simp only [exchangeInParts, Request.respondInParts_whole, exchange_eq]

def numbered (requests : List (Fin n × Request α)) : List (Nat × Request α) :=
  requests.map fun r => (r.1.val, r.2)

/-- There is room for the requests that each rank gets and for the answers to its own. -/
structure ExchangeFits (shares : Fin n → Share α) (room : Nat)
    (requests : Fin n → List (Fin n × Request α)) : Prop where
  arriving : ∀ b, ∑ i, ((requests i).filter (·.1 = b)).length < Count.room
  returning : ∀ i, ((requests i).map fun r => ((shares r.1).hits room r.2).length).sum < Count.room

/-- The answers to requests in their order: the replies to each request, by ascending ranks. -/
def Paired (shares : Fin n → Share α) (room : Nat) (requests : List (Fin n × Request α))
    (answers : List (Answer α)) : Prop :=
  ∃ parts : Fin n → List (List (Answer α)),
    (∀ b, List.Forall₂ (fun r part => Request.Replied (shares b) room b r.2 part)
      (requests.filter (·.1 = b)) (parts b)) ∧
    answers = (List.finRange n).flatMap fun b => (parts b).flatten

def exchanges (exchange : Fin n → Search α (List (Answer α))) :
    Group n (Content α) (Except SearchFault (List (Answer α))) where
  programs := .ofFn fun i => (exchange i).run
  mailboxes := .empty

omit [Scalar α] in
theorem filter_numbered (requests : List (Fin n × Request α)) (b : Fin n) :
    (numbered requests).filter (·.1 == b.val) = numbered (requests.filter (·.1 = b)) := by
  rw [numbered, List.filter_map, numbered]
  congr 1
  refine List.filter_congr fun r _ => ?_
  simp [Fin.ext_iff, Bool.beq_eq_decide_eq]

theorem answersTo_numbered (shares : Fin n → Share α) (room : Nat)
    (requests : List (Fin n × Request α)) :
    answersTo shares room (numbered requests) = (List.finRange n).flatMap fun b =>
      (requests.filter (·.1 = b)).flatMap fun r => r.2.answers (shares b) room b := by
  rw [answersTo]
  refine List.flatMap_congr fun b _ => ?_
  rw [filter_numbered, numbered, List.flatMap_map]

theorem length_answersTo (shares : Fin n → Share α) (room : Nat)
    (requests : List (Fin n × Request α)) :
    (answersTo shares room (numbered requests)).length =
      (requests.map fun r => ((shares r.1).hits room r.2).length).sum := by
  have hown : answersTo shares room (numbered requests) = ((List.finRange n).flatMap fun b =>
      requests.filter (·.1 = b)).flatMap fun r => r.2.answers (shares r.1) room r.1 := by
    rw [answersTo_numbered, List.flatMap_assoc]
    refine List.flatMap_congr fun b _ => List.flatMap_congr fun r hr => ?_
    rw [of_decide_eq_true (List.mem_filter.mp hr).2]
  rw [hown, ((flatMap_filter_perm requests).flatMap fun _ _ => .refl _).length_eq,
    List.length_flatMap]
  simp only [Request.length_answers]

omit [Scalar α] in
/-- As many requests come to a rank as name it. -/
theorem length_arrivals_numbered (requests : Fin n → List (Fin n × Request α)) (b : Fin n) :
    (Plan.arrivals (fun i => numbered (requests i)) b).length =
      ∑ i, ((requests i).filter (·.1 = b)).length := by
  rw [Plan.length_arrivals]
  refine Finset.sum_congr rfl fun i _ => ?_
  rw [filter_numbered, numbered, List.length_map]

variable [LawfulScalar α] {shares : Fin n → Share α}

/-- It is enough if there is room for what the ranks cannot exceed. -/
theorem ExchangeFits.of_hitBound {room : Nat} {requests : Fin n → List (Fin n × Request α)}
    (hlimit : ∀ i, ∀ r ∈ requests i, ∀ t, r.2.query = .nearest t → t.k ≤ room)
    (harriving : ∀ b, ∑ i, ((requests i).filter (·.1 = b)).length < Count.room)
    (hbound : ∀ i, ((requests i).map fun r => r.2.query.hitBound (shares r.1)).sum < Count.room) :
    ExchangeFits shares room requests where
  arriving := harriving
  returning i := by
    refine Nat.lt_of_le_of_lt (List.sum_le_sum fun r hr => ?_) (hbound i)
    exact Share.length_hits_le (hlimit i r hr)

theorem paired_answersTo {room : Nat} {requests : List (Fin n × Request α)}
    (hlimit : ∀ r ∈ requests, ∀ t, r.2.query = .nearest t → t.k ≤ room) :
    Paired shares room requests (answersTo shares room (numbered requests)) := by
  refine ⟨fun b => (requests.filter (·.1 = b)).map fun r => r.2.answers (shares b) room b,
    fun b => ?_, ?_⟩
  · rw [List.forall₂_map_right_iff, List.forall₂_same]
    intro r hr
    exact Request.replied_answers (shares b) b (hlimit r (List.mem_filter.mp hr).1)
  · rw [answersTo_numbered]
    simp only [List.flatMap_def]

/-- However a rank divides the requests that arrive, every rank gets the answers to its own. -/
theorem passes_exchangeInParts {options : SearchOptions}
    {requests : Fin n → List (Fin n × Request α)}
    (hlimit : ∀ i, ∀ r ∈ requests i, ∀ t, r.2.query = .nearest t → t.k ≤ options.neighborLimit)
    (hfits : ExchangeFits shares options.neighborLimit requests)
    {divide : Fin n → List (Request α) → List (List (Request α))}
    (hdivide : ∀ b incoming, (divide b incoming).flatten = incoming) :
    Passes roundTags
      (fun i => ((joint shares options i).exchangeInParts (divide i) (numbered (requests i))).run)
      fun i => .ok (answersTo shares options.neighborLimit (numbered (requests i))) := by
  have hdest : ∀ i, ∀ r ∈ numbered (requests i), r.1 < n := by
    intro i r hr
    obtain ⟨r, -, rfl⟩ := List.mem_map.mp hr
    exact r.1.isLt
  refine passes_exchangeWith hdest (fun b => ?_)
    (fun b => (length_arrivals_numbered requests b).trans_lt (hfits.arriving b))
    (fun i => (length_answersTo shares _ (requests i)).trans_lt (hfits.returning i))
  refine Request.respondInParts_eq (shares b) b (hdivide b _) fun r hr t ht => ?_
  obtain ⟨item, hitem, rfl⟩ := List.mem_map.mp hr
  obtain ⟨s, parcel, hparcel, -, rfl⟩ := Plan.mem_arrivals.mp hitem
  obtain ⟨own, hown, rfl⟩ := List.mem_map.mp hparcel
  exact hlimit s own hown t ht

/-- Whatever the order in which the ranks act, and in whatever parts each of them answers the
requests that arrive, every rank gets the answers to its own, paired with them. -/
theorem exchanges_paired (shares : Fin n → Share α) (options : SearchOptions)
    (requests : Fin n → List (Fin n × Request α))
    (hlimit : ∀ i, ∀ r ∈ requests i, ∀ t, r.2.query = .nearest t → t.k ≤ options.neighborLimit)
    (hfits : ExchangeFits shares options.neighborLimit requests) :
    ∃ answers : Fin n → List (Answer α),
      (∀ i, Paired shares options.neighborLimit (requests i) (answers i)) ∧
      Group.AlwaysEnds (Group.Settled fun i => .ok (answers i))
        (exchanges fun i => (joint shares options i).exchange (numbered (requests i))) ∧
      ∀ divide : Fin n → List (Request α) → List (List (Request α)),
        (∀ b incoming, (divide b incoming).flatten = incoming) →
        Group.AlwaysEnds (Group.Settled fun i => .ok (answers i))
          (exchanges fun i =>
            (joint shares options i).exchangeInParts (divide i) (numbered (requests i))) := by
  have hdivided : ∀ divide : Fin n → List (Request α) → List (List (Request α)),
      (∀ b incoming, (divide b incoming).flatten = incoming) →
      Group.AlwaysEnds (Group.Settled fun i => .ok
          (answersTo shares options.neighborLimit (numbered (requests i))))
        (exchanges fun i =>
          (joint shares options i).exchangeInParts (divide i) (numbered (requests i))) := by
    intro divide hdivide
    obtain ⟨stages, -, hperf⟩ := passes_exchangeInParts hlimit hfits hdivide
    rw [exchanges, ← Group.of_none]
    exact Group.alwaysEnds_of_performs hperf
  refine ⟨_, fun i => paired_answersTo (hlimit i), ?_, hdivided⟩
  have hwhole := hdivided (fun _ incoming => [incoming]) fun _ _ => List.append_nil _
  simpa only [exchangeInParts_whole] using hwhole

def inTurn (i : Fin 2) : List (Fin 2 × Request Binary64) :=
  [(i.rev, ⟨0, .nearest ⟨.origin, 3⟩, Scalar.infinity⟩), (i, ⟨0, .nearest ⟨.origin, 1⟩, .zero⟩),
    (i.rev, ⟨1, .overlapping (.ofPoint .origin), Scalar.infinity⟩)]

theorem exchanges_paired_inTurn :
    ∃ answers : Fin 2 → List (Answer Binary64),
      (∀ i, Paired twoRanks 256 (inTurn i) (answers i)) ∧
      Group.AlwaysEnds (Group.Settled fun i => .ok (answers i))
        (exchanges fun i => (joint twoRanks {} i).exchange (numbered (inTurn i))) ∧
      ∀ divide : Fin 2 → List (Request Binary64) → List (List (Request Binary64)),
        (∀ b incoming, (divide b incoming).flatten = incoming) →
        Group.AlwaysEnds (Group.Settled fun i => .ok (answers i))
          (exchanges fun i => (joint twoRanks {} i).exchangeInParts (divide i)
            (numbered (inTurn i))) := by
  have hlimit : ∀ i, ∀ r ∈ inTurn i, ∀ t, r.2.query = .nearest t → t.k ≤ 256 := by
    intro i r hr t ht
    simp only [inTurn, List.mem_cons, List.not_mem_nil, or_false] at hr
    rcases hr with rfl | rfl | rfl <;> cases ht <;> decide
  have hbound : ∀ i, ((inTurn i).map fun r => r.2.query.hitBound (twoRanks r.1)).sum <
      Count.room := by decide
  exact exchanges_paired twoRanks {} inTurn hlimit (.of_hitBound hlimit (by decide) hbound)

end PartitionedIndex

end SpatialSearch
