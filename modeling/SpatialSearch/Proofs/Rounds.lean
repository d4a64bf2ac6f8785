import Mathlib.Algebra.Order.BigOperators.Group.Finset
import SpatialSearch.PartitionedIndex.Query
import SpatialSearch.Proofs.Collectives
import SpatialSearch.Proofs.Rosters

/-!
# Rounds of requests

In a round every rank sends requests to the ranks it has chosen for its queries and gets
their answers back. What an answer holds depends on the request and the entries of the
answering rank alone, and the answers to one query come grouped by the ranks that were
asked, in ascending order.
-/

namespace SpatialSearch

/-- Of the parts of a list a test that one part passes, and no other, selects that part. -/
theorem filter_flatMap_eq {β γ : Type} {l : List β} (hl : l.Nodup) {b : β} (hb : b ∈ l)
    {f : β → List γ} {p : γ → Bool} (hin : ∀ x ∈ f b, p x = true)
    (hout : ∀ a ≠ b, ∀ x ∈ f a, ¬ p x = true) : (l.flatMap f).filter p = f b := by
  induction l with
  | nil => nomatch hb
  | cons a rest ih =>
    obtain ⟨ha, hrest⟩ := List.nodup_cons.mp hl
    rw [List.flatMap_cons, List.filter_append]
    rcases List.mem_cons.mp hb with rfl | hb
    · have hnone : (rest.flatMap f).filter p = [] := by
        refine List.filter_eq_nil_iff.mpr fun x hx => ?_
        obtain ⟨c, hc, hxc⟩ := List.mem_flatMap.mp hx
        exact hout c (fun h => ha (h ▸ hc)) x hxc
      rw [hnone, List.append_nil, List.filter_eq_self.mpr hin]
    · have hab : a ≠ b := fun h => ha (h ▸ hb)
      rw [ih hrest hb, List.filter_eq_nil_iff.mpr (hout a hab), List.nil_append]

namespace Plan

variable {n : Nat} {β : Type}

theorem mem_arrivals {parcels : Fin n → List (Nat × β)} {i : Fin n} {item : Nat × β} :
    item ∈ arrivals parcels i ↔
      ∃ s : Fin n, ∃ parcel ∈ parcels s, parcel.1 = i.val ∧ item = (s.val, parcel.2) := by
  simp only [arrivals, List.mem_flatMap, List.mem_finRange, true_and, List.mem_map,
    List.mem_filter, beq_iff_eq]
  constructor
  · rintro ⟨s, p, ⟨hp, hi⟩, h⟩
    exact ⟨s, p, hp, hi, h.symm⟩
  · rintro ⟨s, p, hp, hi, h⟩
    exact ⟨s, p, ⟨hp, hi⟩, h.symm⟩

/-- What comes from one rank. -/
theorem filter_arrivals (parcels : Fin n → List (Nat × β)) (i s : Fin n) :
    (arrivals parcels i).filter (·.1 == s.val) =
      ((parcels s).filter (·.1 == i.val)).map fun parcel => (s.val, parcel.2) := by
  refine filter_flatMap_eq (List.nodup_finRange n) (List.mem_finRange s) ?_ ?_
  · intro parcel hparcel
    obtain ⟨_, -, rfl⟩ := List.mem_map.mp hparcel
    exact beq_self_eq_true _
  · intro a has parcel hparcel
    obtain ⟨_, -, rfl⟩ := List.mem_map.mp hparcel
    simpa [Fin.ext_iff] using has

theorem length_arrivals (parcels : Fin n → List (Nat × β)) (i : Fin n) :
    (arrivals parcels i).length = ∑ s, ((parcels s).filter (·.1 == i.val)).length := by
  rw [arrivals, List.length_flatMap, Fin.sum_univ_def]
  simp only [List.length_map]

end Plan

namespace Query

variable {α : Type}

theorem spatial_or_nearest (q : Query α) : q.isSpatial = true ∨ ∃ n, q = nearest n := by
  cases q with
  | nearest n => exact Or.inr ⟨n, rfl⟩
  | overlapping _ => exact Or.inl rfl
  | touching _ => exact Or.inl rfl

variable [Scalar α]

/-- The greatest number of hits that a rank sends back for a query. -/
def mostHits (s : Share α) : Query α → Nat
  | nearest n => min n.k (Entry.countNonEmpty s.entries)
  | q => s.entries.countP fun e => q.accepts e.box

/-- A number of hits that a rank does not exceed for a query, whatever its boxes. -/
def hitBound (s : Share α) : Query α → Nat
  | nearest n => min n.k s.entries.length
  | _ => s.entries.length

omit [Scalar α] in
theorem hitBound_of_spatial {q : Query α} (hq : q.isSpatial = true) (s : Share α) :
    q.hitBound s = s.entries.length := by
  cases q with
  | nearest n => nomatch hq
  | overlapping box => rfl
  | touching ball => rfl

end Query

namespace Share

variable {α : Type} [Scalar α]

def hits (s : Share α) (room : Nat) (r : Request α) : List (Neighbor α) :=
  match r.query with
  | .nearest n =>
    let k := min n.k s.entries.length
    if k = 0 then []
    else (s.index.nearestInto n.target k ⟨.empty room, []⟩).2.found.filter (·.distance ≤ r.limit)
  | q => (s.index.answer q).toOption.getD []

variable {s : Share α} {room : Nat} {r : Request α}

theorem hits_of_spatial (hq : r.query.isSpatial = true) {found : List (Neighbor α)}
    (h : s.index.answer r.query = .ok found) : s.hits room r = found := by
  rw [hits]
  split
  · rename_i n hn
    rw [hn] at hq
    nomatch hq
  · rw [h]
    rfl

theorem hits_of_nearest {n : NearestQuery α} (h : r.query = .nearest n) :
    s.hits room r = if min n.k s.entries.length = 0 then [] else
      (s.index.nearestInto n.target (min n.k s.entries.length)
        ⟨.empty room, []⟩).2.found.filter (·.distance ≤ r.limit) := by
  rw [hits, h]

/-- Whatever its boxes, a rank has an answer to a spatial query. -/
theorem exists_spatial_hits (s : Share α) {q : Query α} (hq : q.isSpatial = true) :
    ∃ found, s.index.answer q = .ok found ∧ found.length ≤ q.hitBound s := by
  obtain ⟨matched, hmatch, hlength⟩ := Index.matching_succeeds s.entries s.kind hq
  refine ⟨_, Index.answer_eq hq hmatch, ?_⟩
  rw [List.length_map, Query.hitBound_of_spatial hq]
  exact hlength

variable [LawfulScalar α]

/-- Whatever its boxes, a rank has an answer to a nearest query, in which its scratch space has
no part. -/
theorem exists_nearest_hits (s : Share α) (n : NearestQuery α) (queue : NeighborHeap α)
    (hpos : min n.k s.entries.length ≠ 0) (hk : n.k ≤ queue.capacity) :
    ∃ found, (∀ queue' : NeighborHeap α, queue'.capacity = queue.capacity →
      s.index.nearestInto n.target (min n.k s.entries.length) ⟨queue', []⟩ =
        (.ok (), ⟨queue'.clear, found⟩)) ∧ found.length ≤ min n.k s.entries.length := by
  have hroom : min n.k s.entries.length ≤ queue.capacity :=
    Nat.le_trans (Nat.min_le_left ..) hk
  obtain ⟨found, hfound, hlength⟩ := Index.nearestInto_succeeds s.entries s.kind n.target
    (Nat.pos_of_ne_zero hpos) ⟨queue, []⟩ hroom
  refine ⟨found, fun queue' hqueue => ?_, Nat.le_trans hlength (by omega)⟩
  have hclear : queue'.clear = queue.clear := by
    rw [BoundedHeap.clear, BoundedHeap.clear, hqueue]
  rw [hclear]
  refine Eq.trans ?_ hfound
  exact NearestPass.run_of_capacity _ (Nat.pos_of_ne_zero hpos) hroom hqueue []

def hitsOf (s : Share α) (room : Nat) (q : Query α) : List (Neighbor α) :=
  s.hits room ⟨0, q, Scalar.infinity⟩

/-- A request brings no more than its query at any distance. -/
theorem length_hits_le_hitsOf (s : Share α) (room : Nat) (r : Request α) :
    (s.hits room r).length ≤ (s.hitsOf room r.query).length := by
  rcases r.query.spatial_or_nearest with hq | ⟨n, hn⟩
  · obtain ⟨found, hfound, -⟩ := s.exists_spatial_hits hq
    rw [hits_of_spatial hq hfound, hitsOf,
      hits_of_spatial (r := ⟨0, r.query, Scalar.infinity⟩) hq hfound]
  · rw [hits_of_nearest hn, hitsOf, hits_of_nearest (r := ⟨0, r.query, Scalar.infinity⟩) hn]
    split
    · exact Nat.le_refl _
    · rw [← List.countP_eq_length_filter, ← List.countP_eq_length_filter]
      refine List.countP_mono_left fun c _ hc => decide_eq_true ?_
      exact LawfulScalar.le_infinity (LawfulScalar.isNaN_of_le (of_decide_eq_true hc)).1

theorem length_hits_le (hk : ∀ n, r.query = .nearest n → n.k ≤ room) :
    (s.hits room r).length ≤ r.query.hitBound s := by
  rcases r.query.spatial_or_nearest with hq | ⟨n, hn⟩
  · obtain ⟨found, hfound, hlength⟩ := s.exists_spatial_hits hq
    rw [hits_of_spatial hq hfound]
    exact hlength
  · rw [hits_of_nearest hn, hn]
    split
    · exact Nat.zero_le _
    · rename_i hpos
      obtain ⟨found, hfound, hlength⟩ := s.exists_nearest_hits n (.empty room) hpos (hk n hn)
      rw [hfound _ rfl]
      exact (List.length_filter_le ..).trans hlength

/-- Among numeric boxes a rank finds the nearest ones. -/
theorem hits_nearest_eq (hs : s.AllNumeric) {n : NearestQuery α} (h : r.query = .nearest n)
    (hk : n.k ≤ room) : s.hits room r = (Ranking.firsts Neighbor.order n.k
      (Entry.candidates n.target s.entries)).filter (·.distance ≤ r.limit) := by
  have hle := Entry.length_candidates_le n.target s.entries
  rw [hits_of_nearest h]
  by_cases hzero : min n.k s.entries.length = 0
  · have hnone : Ranking.firsts Neighbor.order n.k (Entry.candidates n.target s.entries) =
        [] := by
      refine List.length_eq_zero_iff.mp ?_
      rw [Ranking.length_firsts]
      omega
    rw [if_pos hzero, hnone]
    rfl
  · rw [if_neg hzero, index, Index.nearestInto_eq hs s.kind n.target (Nat.pos_of_ne_zero hzero)
      ⟨.empty room, []⟩ (Nat.le_trans (Nat.min_le_left ..) hk), Ranking.firsts_min hle]
    rfl

/-- Among numeric boxes a rank finds the matching entries, each as often as it occurs. -/
theorem indices_hits_perm (hs : s.AllNumeric) (hq : r.query.isSpatial = true) :
    ((s.hits room r).map (·.index)).Perm
      ((s.entries.filter fun e => r.query.accepts e.box).map (·.index)) := by
  obtain ⟨matched, hmatch, hperm⟩ := Index.matching_perm hs s.kind hq
  rw [hits_of_spatial hq (Index.answer_eq hq hmatch), List.map_map]
  refine (List.Perm.of_eq ?_).trans (hperm.map _)
  refine List.map_congr_left fun e _ => ?_
  cases r.query <;> rfl

theorem length_hits_le_mostHits (hs : s.AllNumeric) (hk : ∀ n, r.query = .nearest n → n.k ≤ room) :
    (s.hits room r).length ≤ r.query.mostHits s := by
  rcases r.query.spatial_or_nearest with hq | ⟨n, hn⟩
  · have hperm : ((s.hits room r).map (·.index)).Perm _ := indices_hits_perm hs hq
    have hlen := hperm.length_eq
    rw [List.length_map, List.length_map, ← List.countP_eq_length_filter] at hlen
    rw [hlen, Query.mostHits.eq_def]
    split
    · rename_i n h
      rw [h] at hq
      nomatch hq
    · exact Nat.le_refl _
  · rw [hits_nearest_eq hs hn (hk n hn), hn, Query.mostHits,
      ← Entry.length_candidates n.target, ← Ranking.length_firsts Neighbor.order]
    exact List.length_filter_le ..

end Share

namespace Request

variable {α : Type} [Scalar α]

def answers (s : Share α) (room rank : Nat) (r : Request α) : List (Answer α) :=
  r.replies rank (s.hits room r)

theorem number_of_mem_answers {s : Share α} {room rank : Nat} {r : Request α} {a : Answer α}
    (h : a ∈ r.answers s room rank) : a.number = r.number ∧ a.rank = rank := by
  obtain ⟨n, -, rfl⟩ := List.mem_map.mp h
  exact ⟨rfl, rfl⟩

theorem length_answers (s : Share α) (room rank : Nat) (r : Request α) :
    (r.answers s room rank).length = (s.hits room r).length := by
  rw [answers, replies, List.length_map]

variable [LawfulScalar α] (s : Share α)

/-- Whatever its boxes, a rank answers every request, and keeps its room for neighbors. -/
theorem respond_eq (rank : Nat) {r : Request α} {scratch : Scratch α}
    (hlimit : ∀ n, r.query = .nearest n → n.k ≤ scratch.queue.capacity) :
    ∃ after, r.respond s.index rank scratch =
      (.ok (r.answers s scratch.queue.capacity rank), after) ∧
        after.queue.capacity = scratch.queue.capacity := by
  rcases r.query.spatial_or_nearest with hq | ⟨n, hn⟩
  · obtain ⟨found, hfound, -⟩ := s.exists_spatial_hits hq
    refine ⟨scratch, ?_, rfl⟩
    rw [answers, Share.hits_of_spatial hq hfound, respond]
    split
    · rename_i n h
      rw [h] at hq
      nomatch hq
    · rw [hfound]
      rfl
  · rw [answers, Share.hits_of_nearest hn, respond, hn]
    dsimp only
    rw [show s.index.size = s.entries.length from Index.size_ofEntries ..]
    by_cases hzero : min n.k s.entries.length = 0
    · rw [if_pos hzero, if_pos hzero]
      exact ⟨scratch, rfl, rfl⟩
    · obtain ⟨found, hfound, -⟩ := s.exists_nearest_hits n scratch.queue hzero (hlimit n hn)
      rw [if_neg hzero, if_neg hzero, hfound _ rfl, hfound (.empty scratch.queue.capacity) rfl]
      exact ⟨_, rfl, rfl⟩

theorem respondAll_eq (rank : Nat) {requests : List (Request α)} {scratch : Scratch α}
    (hlimit : ∀ r ∈ requests, ∀ n, r.query = .nearest n → n.k ≤ scratch.queue.capacity) :
    respondAll s.index rank requests scratch =
      .ok (requests.map (answers s scratch.queue.capacity rank)) := by
  induction requests generalizing scratch with
  | nil => rfl
  | cons r rest ih =>
    obtain ⟨after, hrespond, hcapacity⟩ :=
      respond_eq s rank (hlimit r List.mem_cons_self)
    rw [respondAll, hrespond]
    dsimp only
    rw [ih fun r hr => hcapacity ▸ hlimit r (List.mem_cons_of_mem _ hr), hcapacity]
    rfl

end Request

/-- The requests of a rank in a round: each of its queries goes to some ranks. -/
structure Inquiry (n : Nat) (α : Type) where
  size : Nat
  asked : Fin size → List (Fin n)
  request : Fin size → Request α
  nodup_asked : ∀ q, (asked q).Nodup
  number_request : ∀ q, (request q).number = q.val

namespace Inquiry

variable {α : Type} {n : Nat} (v : Inquiry n α)

def requests : List (Nat × Request α) :=
  (List.finRange v.size).flatMap fun q => (v.asked q).map fun b => (b.val, v.request q)

theorem mem_requests {v : Inquiry n α} {r : Nat × Request α} :
    r ∈ v.requests ↔ ∃ q, ∃ b ∈ v.asked q, r = (b.val, v.request q) := by
  simp only [requests, List.mem_flatMap, List.mem_finRange, true_and, List.mem_map, eq_comm]

/-- The requests to one rank. -/
theorem filter_requests (b : Fin n) : v.requests.filter (·.1 == b.val) =
    (List.finRange v.size).flatMap fun q =>
      if b ∈ v.asked q then [(b.val, v.request q)] else [] := by
  rw [requests, List.filter_flatMap]
  refine List.flatMap_congr fun q _ => ?_
  have hfilter : (v.asked q).filter (fun a => a.val == b.val) =
      List.replicate ((v.asked q).count b) b := by
    rw [← List.filter_beq]
    refine List.filter_congr fun a _ => ?_
    simp [Bool.beq_eq_decide_eq, Fin.ext_iff]
  rw [List.filter_map]
  change List.map _ ((v.asked q).filter fun a => a.val == b.val) = _
  rw [hfilter, (v.nodup_asked q).count]
  split <;> rfl

variable [Scalar α]

def answers (shares : Fin n → Share α) (room : Nat) : List (Answer α) :=
  (List.finRange n).flatMap fun b =>
    (v.requests.filter (·.1 == b.val)).flatMap fun r => r.2.answers (shares b) room b

variable (shares : Fin n → Share α) (room : Nat)

theorem answers_eq : v.answers shares room = (List.finRange n).flatMap fun b =>
    (List.finRange v.size).flatMap fun q =>
      if b ∈ v.asked q then (v.request q).answers (shares b) room b else [] := by
  rw [answers]
  refine List.flatMap_congr fun b _ => ?_
  rw [filter_requests, List.flatMap_assoc]
  refine List.flatMap_congr fun q _ => ?_
  split <;> simp

/-- The answers to one query. -/
theorem filter_answers (q : Fin v.size) :
    (v.answers shares room).filter (·.number == q.val) = (List.finRange n).flatMap fun b =>
      if b ∈ v.asked q then (v.request q).answers (shares b) room b else [] := by
  rw [answers_eq, List.filter_flatMap]
  refine List.flatMap_congr fun b _ => ?_
  have hnumber : ∀ a : Fin v.size,
      ∀ x ∈ (if b ∈ v.asked a then (v.request a).answers (shares b) room b else []),
        x.number = a.val := by
    intro a x hx
    split at hx
    · rw [(Request.number_of_mem_answers hx).1, v.number_request]
    · nomatch hx
  refine filter_flatMap_eq (List.nodup_finRange _) (List.mem_finRange q) ?_ ?_
  · intro x hx
    exact beq_iff_eq.mpr (hnumber q x hx)
  · intro a haq x hx
    rw [hnumber a x hx]
    simpa [Fin.ext_iff] using haq

theorem number_lt_of_mem_answers {a : Answer α} (h : a ∈ v.answers shares room) :
    a.number < v.size := by
  obtain ⟨b, -, h⟩ := List.mem_flatMap.mp h
  obtain ⟨r, hr, ha⟩ := List.mem_flatMap.mp h
  obtain ⟨q, _, _, rfl⟩ := mem_requests.mp (List.mem_filter.mp hr).1
  rw [(Request.number_of_mem_answers ha).1, v.number_request]
  exact q.isLt

omit [Scalar α] in
theorem length_filter_requests_le (b : Fin n) :
    (v.requests.filter (·.1 == b.val)).length ≤ v.size := by
  rw [filter_requests, List.length_flatMap]
  refine (List.sum_le_card_nsmul _ 1 ?_).trans (by simp)
  intro m hm
  obtain ⟨q, -, rfl⟩ := List.mem_map.mp hm
  split <;> simp

theorem length_answers_le {bound : Fin v.size → Fin n → Nat}
    (h : ∀ q b, ((shares b).hits room (v.request q)).length ≤ bound q b) :
    (v.answers shares room).length ≤ ∑ q, ∑ b, bound q b := by
  rw [answers_eq, List.length_flatMap]
  simp only [List.length_flatMap, ← Fin.sum_univ_def]
  rw [Finset.sum_comm]
  refine Finset.sum_le_sum fun q _ => Finset.sum_le_sum fun b _ => ?_
  split
  · rw [Request.length_answers]
    exact h q b
  · exact Nat.zero_le _

end Inquiry

namespace Search

variable {α β γ : Type}

@[simp] theorem ofExcept_ok_bind (a : β) (f : β → Search α γ) : ofExcept (.ok a) >>= f = f a := rfl

@[simp] theorem ofIndex_ok_bind (a : β) (f : β → Search α γ) : ofIndex (.ok a) >>= f = f a := rfl

@[simp] theorem ofCount_ok_bind (a : β) (f : β → Search α γ) : ofCount (.ok a) >>= f = f a := rfl

end Search

namespace PartitionedIndex

variable {α : Type} [Scalar α] {n : Nat}

def joint (shares : Fin n → Share α) (options : SearchOptions) (i : Fin n) :
    PartitionedIndex α :=
  ⟨⟨n, i⟩, (shares i).index, .joint shares, options⟩

theorem passes_build (shares : Fin n → Share α) (options : Fin n → SearchOptions) :
    Passes [.gather] (fun i => (build ⟨n, i⟩ (shares i).index (options i)).run)
      fun i => .ok (joint shares (options i) i) :=
  ((Exchange.passes_gather Content.ofHoldings _).adapt _).bind (Passes.done _)

/-- Send requests to their ranks, answer those that arrive in a given way, and get the answers to
the own ones. -/
def exchangeWith (x : PartitionedIndex α)
    (respondTo : List (Request α) → Except IndexFault (List (List (Answer α))))
    (requests : List (Nat × Request α)) : Search α (List (Answer α)) := do
  let counts := Content.ofPlain .count
  let forward ← Search.ofExchange <| Plan.negotiate counts x.seat (requests.map (·.1))
  let incoming ← Search.ofExchange <| forward.post Content.ofRequests (requests.map (·.2))
  let replies ← Search.ofIndex (respondTo incoming)
  let outgoing := (forward.sources.zip replies).flatMap fun (origin, answers) =>
    answers.map fun answer => (origin, answer)
  let backward ← Search.ofExchange <| Plan.negotiate counts x.seat (outgoing.map (·.1))
  Search.ofExchange <| backward.post Content.ofAnswers (outgoing.map (·.2))

/-- A rank answers the requests that arrive one after the other. -/
theorem exchange_eq (x : PartitionedIndex α) (requests : List (Nat × Request α)) :
    x.exchange requests = x.exchangeWith (fun incoming => Request.respondAll x.own x.seat.rank
      incoming ⟨.empty x.options.neighborLimit, []⟩) requests := rfl

def replies (shares : Fin n → Share α) (room : Nat) (requests : Fin n → List (Nat × Request α))
    (b : Fin n) : List (Nat × Answer α) :=
  (Plan.arrivals requests b).flatMap fun r =>
    (r.2.answers (shares b) room b).map fun answer => (r.1, answer)

def answersTo (shares : Fin n → Share α) (room : Nat) (requests : List (Nat × Request α)) :
    List (Answer α) :=
  (List.finRange n).flatMap fun b =>
    (requests.filter (·.1 == b.val)).flatMap fun r => r.2.answers (shares b) room b

theorem arrivals_replies (shares : Fin n → Share α) (room : Nat)
    (requests : Fin n → List (Nat × Request α)) (i : Fin n) :
    (Plan.arrivals (replies shares room requests) i).map (·.2) =
      answersTo shares room (requests i) := by
  rw [Plan.arrivals, List.map_flatMap, answersTo]
  refine List.flatMap_congr fun b _ => ?_
  have hfilter : (replies shares room requests b).filter (·.1 == i.val) =
      ((Plan.arrivals requests b).filter (·.1 == i.val)).flatMap fun r =>
        (r.2.answers (shares b) room b).map fun answer => (r.1, answer) := by
    have htag : ∀ r : Nat × Request α,
        ((r.2.answers (shares b) room b).map fun answer => (r.1, answer)).filter
            (·.1 == i.val) =
          if r.1 == i.val then (r.2.answers (shares b) room b).map fun answer => (r.1, answer)
          else [] := by
      intro r
      rw [List.filter_map]
      by_cases hr : r.1 = i.val
      · simp [hr, Function.comp_def]
      · simp [hr, Function.comp_def]
    rw [replies, List.filter_flatMap, flatMap_filter]
    simp only [htag]
  rw [hfilter, Plan.filter_arrivals, List.flatMap_map, List.map_map, List.map_flatMap]
  refine List.flatMap_congr fun r _ => ?_
  rw [List.map_map]
  exact List.map_id _

/-- The operations of a round: requests are announced and posted, and then answers. -/
def roundTags : List Tag := [.sizes, .payload, .sizes, .payload]

variable {shares : Fin n → Share α} {options : SearchOptions}

/-- Every rank gets the answers to its requests, in whatever way each rank finds them. -/
theorem passes_exchangeWith {requests : Fin n → List (Nat × Request α)}
    (hdest : ∀ i, ∀ r ∈ requests i, r.1 < n) {room : Nat}
    {respondTo : Fin n → List (Request α) → Except IndexFault (List (List (Answer α)))}
    (hrespond : ∀ b, respondTo b ((Plan.arrivals requests b).map (·.2)) =
      .ok (((Plan.arrivals requests b).map (·.2)).map (Request.answers (shares b) room b)))
    (hrequests : ∀ b, (Plan.arrivals requests b).length < Count.room)
    (hanswers : ∀ i, (answersTo shares room (requests i)).length < Count.room) :
    Passes roundTags
      (fun i => ((joint shares options i).exchangeWith (respondTo i) (requests i)).run)
      fun i => .ok (answersTo shares room (requests i)) := by
  have hreturns : ∀ i, (Plan.arrivals (replies shares room requests) i).length < Count.room := by
    intro i
    have hlength := congrArg List.length (arrivals_replies shares room requests i)
    rw [List.length_map] at hlength
    rw [hlength]
    exact hanswers i
  have hforth : ∀ i, ∀ dest ∈ (requests i).map (·.1), dest < n := by
    intro i dest h
    obtain ⟨r, hr, rfl⟩ := List.mem_map.mp h
    exact hdest i r hr
  have hback : ∀ b, ∀ dest ∈ (replies shares room requests b).map (·.1), dest < n := by
    intro b dest h
    obtain ⟨a, ha, rfl⟩ := List.mem_map.mp h
    obtain ⟨r, hr, hanswer⟩ := List.mem_flatMap.mp ha
    obtain ⟨s, _, _, _, rfl⟩ := Plan.mem_arrivals.mp hr
    obtain ⟨_, -, rfl⟩ := List.mem_map.mp hanswer
    exact s.isLt
  have hreplies : ∀ b, (((Plan.joint (fun i => (requests i).map (·.1)) b).sources.zip
        (((Plan.arrivals requests b).map (·.2)).map
          (Request.answers (shares b) room b))).flatMap fun p =>
            p.2.map fun answer => (p.1, answer)) = replies shares room requests b := by
    intro b
    rw [Plan.sources_joint, List.map_map, List.zip_map', List.flatMap_map]
    rfl
  refine ((Plan.passes_negotiate _ hforth).adapt _).bind ?_
  refine ((Plan.passes_post _ Content.ofRequests hrequests).adapt _).bind ?_
  simp only [hrespond, Search.ofIndex_ok_bind, hreplies]
  refine ((Plan.passes_negotiate _ hback).adapt _).bind ?_
  have hpost := (Plan.passes_post _ Content.ofAnswers hreturns).adapt SearchFault.transfer
  simp only [arrivals_replies] at hpost
  exact hpost

variable [LawfulScalar α]

/-- Every rank gets the answers to its requests. -/
theorem passes_exchange (v : Fin n → Inquiry n α)
    (hlimit : ∀ i q t, ((v i).request q).query = .nearest t → t.k ≤ options.neighborLimit)
    (hqueries : ∑ i, (v i).size < Count.room)
    (hanswers : ∀ i, ((v i).answers shares options.neighborLimit).length < Count.room) :
    Passes roundTags (fun i => ((joint shares options i).exchange (v i).requests).run)
      fun i => .ok ((v i).answers shares options.neighborLimit) := by
  have hrequests : ∀ b, (Plan.arrivals (fun i => (v i).requests) b).length < Count.room := by
    intro b
    rw [Plan.length_arrivals]
    exact Nat.lt_of_le_of_lt
      (Finset.sum_le_sum fun i _ => (v i).length_filter_requests_le b) hqueries
  have hdest : ∀ i, ∀ r ∈ (v i).requests, r.1 < n := by
    intro i r hr
    obtain ⟨q, b, -, rfl⟩ := Inquiry.mem_requests.mp hr
    exact b.isLt
  refine passes_exchangeWith hdest (fun b => ?_) hrequests hanswers
  refine Request.respondAll_eq (shares b) b fun r hr t ht => ?_
  obtain ⟨item, hitem, rfl⟩ := List.mem_map.mp hr
  obtain ⟨s, parcel, hparcel, -, rfl⟩ := Plan.mem_arrivals.mp hitem
  obtain ⟨q, _, -, rfl⟩ := Inquiry.mem_requests.mp hparcel
  exact hlimit s q t ht

end PartitionedIndex

end SpatialSearch
