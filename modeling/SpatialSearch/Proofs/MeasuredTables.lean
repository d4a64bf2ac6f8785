import Mathlib.Data.List.Perm.Subperm
import SpatialSearch.Proofs.BorrowedSpace
import SpatialSearch.Proofs.QueryTables

/-!
# Tables of measured hits

The tables of queries hold only counts that fit 64 bits, and only distances that are not negative:
a box is never at a distance that is not a number, however far away its corners are. The contract
behind it is about the answers on their way between ranks, and follows them from the entries of a
rank to the table of the one that asked. A rank that is sent more than there is room for gives up,
so no table has more hits than can be counted.
-/

namespace SpatialSearch

open LawfulScalar

section Lists

variable {β γ : Type}

/-- Rows that are each made of the elements of another one. -/
theorem subperm_flatten_zipWith {f : List β → γ → List β} (hf : ∀ row c, (f row c).Subperm row)
    (rows : List (List β)) (l : List γ) : (rows.zipWith f l).flatten.Subperm rows.flatten := by
  induction rows generalizing l with
  | nil => exact List.nil_subperm
  | cons row rest ih =>
    cases l with
    | nil => exact List.nil_subperm
    | cons c l => exact (hf row c).append (ih l)

/-- Rows that are appended to others. -/
theorem subperm_flatten_append (rows more : List (List β)) :
    (rows.zipWith (· ++ ·) more).flatten.Subperm (rows.flatten ++ more.flatten) := by
  induction rows generalizing more with
  | nil => exact List.nil_subperm
  | cons row rest ih =>
    cases more with
    | nil => exact List.nil_subperm
    | cons first more =>
      refine ((List.Subperm.refl _).append (ih more)).trans (List.Perm.subperm ?_)
      rw [List.flatten_cons, List.flatten_cons, List.append_assoc, List.append_assoc]
      refine List.Perm.append_left row ?_
      rw [← List.append_assoc, ← List.append_assoc]
      exact List.perm_append_comm.append_right more.flatten

/-- Elements that are dealt out to rows by their numbers. -/
theorem perm_flatten_filter (f : β → Nat) (l : List β) (m : Nat) :
    ((List.range m).map fun q => l.filter (f · == q)).flatten.Perm (l.filter (f · < m)) := by
  induction m with
  | zero => simp
  | succ m ih =>
    have hbelow : (l.filter (f · < m + 1)).filter (f · < m) = l.filter (f · < m) := by
      rw [List.filter_filter]
      exact List.filter_congr fun b _ => by grind
    have hlast : (l.filter (f · < m + 1)).filter (fun b => !decide (f b < m)) =
        l.filter (f · == m) := by
      rw [List.filter_filter]
      exact List.filter_congr fun b _ => by grind
    have hsplit := List.filter_append_perm (fun b => decide (f b < m)) (l.filter (f · < m + 1))
    rw [hbelow, hlast] at hsplit
    rw [List.range_succ, List.map_append, List.flatten_append, List.map_singleton,
      List.flatten_singleton]
    exact (ih.append_right _).trans hsplit

end Lists

variable {α : Type} [Scalar α]

/-- An answer with an index and a rank that fit 64 bits and with a distance that is not negative. -/
structure Answer.Measured (a : Answer α) : Prop where
  index : a.index < UInt64.size
  rank : a.rank < UInt64.size
  distance : 0 ≤ a.distance

/-- A table with counts that fit 64 bits and with distances that are not negative. -/
structure HitTable.Measured (t : HitTable α) : Prop where
  offsets : ∀ o ∈ t.offsets, o < UInt64.size
  indices : ∀ index ∈ t.indices, index < UInt64.size
  ranks : ∀ rank ∈ t.ranks, rank < UInt64.size
  distances : ∀ distances ∈ t.distances, ∀ d ∈ distances, 0 ≤ d

def Share.Indexed (s : Share α) : Prop := ∀ e ∈ s.entries, e.index < UInt64.size

instance (s : Share α) : Decidable s.Indexed :=
  inferInstanceAs (Decidable (∀ e ∈ s.entries, e.index < UInt64.size))

/-! ### Answers of one rank -/

section Respond

variable [LawfulScalar α] {s : Share α} {rank : Nat}

theorem Share.Indexed.report (h : s.Indexed) (q : Query α) {e : Entry α} (he : e ∈ s.entries) :
    (q.report e).index < UInt64.size ∧ 0 ≤ (q.report e).distance := by
  cases q with
  | nearest n => exact ⟨h e he, Box.distance_nonneg e.box n.target⟩
  | overlapping box => exact ⟨h e he, Axis.zero_le_zero⟩
  | touching ball => exact ⟨h e he, Box.distance_nonneg e.box ball.center⟩

namespace Request

omit [LawfulScalar α] in
theorem measured_of_mem_replies {r : Request α} {hits : List (Neighbor α)}
    (hrank : rank < UInt64.size)
    (hhits : ∀ n ∈ hits, n.index < UInt64.size ∧ 0 ≤ n.distance) :
    ∀ a ∈ r.replies rank hits, a.Measured := by
  intro a ha
  obtain ⟨n, hn, rfl⟩ := List.mem_map.mp ha
  obtain ⟨hindex, hdistance⟩ := hhits n hn
  exact ⟨hindex, hrank, hdistance⟩

/-- A rank answers a request only with measured entries of its own. -/
theorem measured_of_mem_respond (hs : s.AllNumeric) (hindexed : s.Indexed)
    (hrank : rank < UInt64.size) {r : Request α} {scratch : Scratch α} {answers : List (Answer α)}
    (h : (r.respond s.index rank scratch).1 = .ok answers) : ∀ a ∈ answers, a.Measured := by
  rcases r.query.spatial_or_nearest with hq | ⟨n, hn⟩
  · obtain ⟨matched, hmatch, hperm⟩ := Index.matching_perm hs s.kind hq
    rw [respond] at h
    split at h
    · rename_i n hn
      rw [hn] at hq
      cases hq
    · obtain ⟨found, hfound, rfl⟩ := Contract.exists_of_map_eq_ok h
      obtain rfl := Except.ok.inj (hfound.symm.trans (Index.answer_eq hq hmatch))
      refine measured_of_mem_replies hrank fun n hn => ?_
      obtain ⟨e, he, rfl⟩ := List.mem_map.mp hn
      exact hindexed.report r.query (List.mem_filter.mp (hperm.mem_iff.mp he)).1
  · rw [respond, hn] at h
    dsimp only at h
    split at h
    · cases h
      exact List.forall_mem_nil _
    · obtain ⟨_, hok, rfl⟩ := Contract.exists_of_map_eq_ok h
      let call : NearestCall α := ⟨s.entries, s.kind, n.target, min n.k s.index.size⟩
      have hfound := (NearestCall.ends_perform (c := call) hs { scratch with found := [] }).found_eq
      refine measured_of_mem_replies hrank fun c hc => ?_
      have hc := (List.mem_filter.mp hc).1
      change c ∈ (call.perform _).2.found at hc
      change (call.perform _).1 = _ at hok
      rw [hfound, hok, List.nil_append] at hc
      have hc : c ∈ Entry.candidates n.target s.entries :=
        (List.mergeSort_perm _ _).mem_iff.mp (List.mem_of_mem_take hc)
      obtain ⟨e, he, -, rfl⟩ := Entry.mem_candidates.mp hc
      exact hindexed.report (.nearest n) he

theorem measured_of_mem_respondAll (hs : s.AllNumeric) (hindexed : s.Indexed)
    (hrank : rank < UInt64.size) {requests : List (Request α)} {scratch : Scratch α}
    {replies : List (List (Answer α))}
    (h : respondAll s.index rank requests scratch = .ok replies) :
    ∀ answers ∈ replies, ∀ a ∈ answers, a.Measured := by
  induction requests generalizing scratch replies with
  | nil =>
    cases h
    exact List.forall_mem_nil _
  | cons r rest ih =>
    rw [respondAll] at h
    split at h
    · cases h
    · rename_i answers after hanswers
      obtain ⟨later, hrest, rfl⟩ := Contract.exists_of_map_eq_ok h
      refine List.forall_mem_cons.mpr ⟨?_, ih hrest⟩
      exact measured_of_mem_respond hs hindexed hrank (congrArg Prod.fst hanswers)

end Request

end Respond

/-! ### Answers under way -/

/-- What may be under way: answers only if they are measured, and anything else. A rank may give up
for any cause. -/
def measuringContract (α : Type) [Scalar α] : Contract (Content α) where
  allows
    | _, _, .answers items => ∀ a ∈ items, a.Measured
    | _, _, .plain _ _ => True
    | _, _, .holdings _ => True
    | _, _, .announcements _ => True
    | _, _, .requests _ => True
  excuses _ := True

/-! ### Tables -/

/-- Measured answers, fewer than a bound. -/
structure MeasuredBelow (bound : Nat) (answers : List (Answer α)) : Prop where
  measured : ∀ a ∈ answers, a.Measured
  length_lt : answers.length < bound

namespace MeasuredBelow

variable {bound : Nat} {answers : List (Answer α)}

theorem of_subperm (h : MeasuredBelow bound answers) {some : List (Answer α)}
    (hsome : some.Subperm answers) : MeasuredBelow bound some where
  measured a ha := h.measured a (hsome.subset ha)
  length_lt := Nat.lt_of_le_of_lt hsome.length_le h.length_lt

theorem append {bound' : Nat} {more : List (Answer α)} (h : MeasuredBelow bound answers)
    (hmore : MeasuredBelow bound' more) : MeasuredBelow (bound + bound') (answers ++ more) where
  measured := List.forall_mem_append.mpr ⟨h.measured, hmore.measured⟩
  length_lt := by
    rw [List.length_append]
    exact Nat.add_lt_add h.length_lt hmore.length_lt

/-- The table of measured answers, of which there are not too many to be counted. -/
theorem ofHits [LawfulScalar α] (h : MeasuredBelow bound answers) (hbound : bound ≤ UInt64.size)
    (queries : Nat) (measured : Bool) : (HitTable.ofHits queries
      (PartitionedIndex.numberedHits measured answers) measured).Measured where
  offsets := by
    intro o ho
    obtain ⟨j, hj⟩ := List.mem_iff_getElem?.mp ho
    have hlt := (List.getElem?_eq_some_iff.mp hj).1
    rw [HitTable.length_offsets_ofHits] at hlt
    rw [HitTable.getElem?_offsets_ofHits (Nat.le_of_lt_succ hlt)] at hj
    cases hj
    have hlength : (PartitionedIndex.numberedHits measured answers).length = answers.length :=
      List.length_map _
    have := h.length_lt
    have := List.countP_le_length (p := fun hit : Nat × Hit α => decide (hit.1 < j))
      (l := PartitionedIndex.numberedHits measured answers)
    omega
  indices := by
    intro index hindex
    obtain ⟨_, hhit, rfl⟩ := List.mem_map.mp hindex
    obtain ⟨a, ha, rfl⟩ := List.mem_map.mp hhit
    exact (h.measured a ha).index
  ranks := by
    intro rank hrank
    obtain ⟨_, hhit, rfl⟩ := List.mem_map.mp hrank
    obtain ⟨a, ha, rfl⟩ := List.mem_map.mp hhit
    exact (h.measured a ha).rank
  distances := by
    intro distances hdistances d hd
    cases measured with
    | false => cases hdistances
    | true =>
      obtain rfl := Option.mem_some.mp hdistances
      obtain ⟨_, hhit, rfl⟩ := List.mem_map.mp hd
      obtain ⟨a, ha, rfl⟩ := List.mem_map.mp hhit
      exact (h.measured a ha).distance

end MeasuredBelow

theorem HitTable.measured_empty (queries : Nat) (measured : Bool) :
    (HitTable.empty queries measured : HitTable α).Measured where
  offsets := by
    intro o ho
    obtain rfl := List.eq_of_mem_replicate ho
    decide
  indices := fun _ h => nomatch h
  ranks := fun _ h => nomatch h
  distances := by
    intro distances hdistances d hd
    cases measured with
    | false => cases hdistances
    | true =>
      obtain rfl := Option.mem_some.mp hdistances
      cases hd

namespace PartitionedIndex

open Contract

variable {n : Nat} {rank : Nat} {x : PartitionedIndex α}

theorem best_subperm (k : Nat) (answers : List (Answer α)) : (best k answers).Subperm answers :=
  (List.take_sublist k _).subperm.trans (List.mergeSort_perm answers _).subperm

theorem bestOfEach_subperm (queries : List (NearestQuery α)) (rows : List (List (Answer α))) :
    (bestOfEach queries rows).flatten.Subperm rows.flatten :=
  subperm_flatten_zipWith (fun row (n : NearestQuery α) => best_subperm n.k row) rows queries

omit [Scalar α] in
theorem ensures_deal_subperm {c : Contract (Content α)} (hexcuses : ∀ cause, c.excuses cause)
    (queries : Nat) (answers : List (Answer α)) :
    c.Ensures rank (fun rows => rows.flatten.Subperm answers) (deal queries answers) := by
  have hnumbers : c.Ensures rank (fun _ => True) (checkNumbers queries answers) := by
    rw [checkNumbers]
    split
    · exact .leave (.gaveUp (hexcuses _))
    · exact ensures_pure trivial
  refine hnumbers.bind fun _ _ => ensures_pure ?_
  exact (perm_flatten_filter _ answers queries).subperm.trans List.filter_sublist.subperm

theorem carries_measured_answers : (measuringContract α).Carries Content.ofAnswers
    fun _ _ a => a.Measured where
  pack _ _ _ h := h
  unpack _ _ payload _ hallows hitems := by
    cases payload <;> cases hitems
    exact hallows

variable [LawfulScalar α] {s : Share α}

theorem ensures_tabulate_measured {bound queries : Nat} {answers : List (Answer α)}
    (h : MeasuredBelow bound answers) (hbound : bound ≤ UInt64.size) (measured : Bool) :
    (measuringContract α).Ensures rank HitTable.Measured (tabulate queries answers measured) := by
  have htabulate : tabulate queries answers measured =
      if HitTable.inOrder queries 0 (numberedHits measured answers) then
        pure (.ofHits queries (numberedHits measured answers) measured)
      else Search.abort .outOfOrder := rfl
  rw [htabulate]
  split
  · exact ensures_pure (h.ofHits hbound queries measured)
  · exact .leave (.gaveUp trivial)

/-- The answers of an exchange are measured, and there is room for them. -/
theorem ensures_exchange_measured (hown : x.own = s.index) (hs : s.AllNumeric)
    (hindexed : s.Indexed) (hrank : x.seat.rank < UInt64.size) (requests : List (Nat × Request α)) :
    (measuringContract α).Ensures x.seat.rank (MeasuredBelow Count.room) (x.exchange requests) := by
  refine (ensures_exchange_of (R := fun _ _ _ => True) (.anything fun _ _ _ => trivial)
    (.anything fun _ _ _ => trivial) carries_measured_answers (fun _ _ => trivial)
    (fun _ _ => trivial) fun sources incoming replies _ hreplies p hp a ha => ?_).mono
      fun answers hanswers => ⟨fun a ha => (hanswers.1 a ha).elim fun _ => id, hanswers.2⟩
  rw [hown] at hreplies
  exact Request.measured_of_mem_respondAll hs hindexed hrank hreplies p.2 (List.of_mem_zip hp).2 a ha

section Methods

variable (hexchange : ∀ requests, (measuringContract α).Ensures rank (MeasuredBelow Count.room)
  (x.exchange requests))

include hexchange

theorem ensures_refine_measured (queries : List (NearestQuery α)) :
    (measuringContract α).Ensures rank HitTable.Measured (x.refine queries) := by
  refine ensures_ofIndex.bind fun asked _ => ensures_ofIndex.bind fun requests _ => ?_
  refine (hexchange requests).bind fun first hfirst => ?_
  refine (ensures_deal_subperm (fun _ => trivial) _ first).bind fun found hfound => ?_
  refine ensures_ofIndex.bind fun requests _ => ?_
  refine (hexchange requests).bind fun second hsecond => ?_
  refine (ensures_deal_subperm (fun _ => trivial) _ second).bind fun more hmore => ?_
  have hbest : (bestOfEach queries found).flatten.Subperm first :=
    (bestOfEach_subperm queries found).trans hfound
  have hboth : ((bestOfEach queries found).zipWith (· ++ ·) more).flatten.Subperm
      (first ++ second) :=
    (subperm_flatten_append (bestOfEach queries found) more).trans (hbest.append hmore)
  exact ensures_tabulate_measured
    ((hfirst.append hsecond).of_subperm ((bestOfEach_subperm queries _).trans hboth)) (by decide)
    true

theorem ensures_enclose_measured (queries : List (NearestQuery α)) :
    (measuringContract α).Ensures rank HitTable.Measured (x.enclose queries) := by
  refine ((ensures_ofCount fun _ _ => trivial).adapt _).bind fun limits _ => ?_
  refine ensures_ofIndex.bind fun requests _ => ?_
  refine (hexchange requests).bind fun answers hanswers => ?_
  refine (ensures_deal_subperm (fun _ => trivial) _ answers).bind fun found hfound => ?_
  exact ensures_tabulate_measured
    (hanswers.of_subperm ((bestOfEach_subperm queries found).trans hfound)) (by decide) true

theorem ensures_answerSpatial_measured (queries : List (Query α)) :
    (measuringContract α).Ensures rank HitTable.Measured (x.answerSpatial queries) := by
  refine ensures_ofIndex.bind fun requests _ => ?_
  refine (hexchange requests).bind fun answers hanswers => ?_
  exact ensures_tabulate_measured
    (hanswers.of_subperm (List.mergeSort_perm answers _).subperm) (by decide) false

end Methods

/-- A query that succeeds gives a measured table. -/
theorem ensures_query_measured (hown : x.own = s.index) (hs : s.AllNumeric) (hindexed : s.Indexed)
    (hrank : x.seat.rank < UInt64.size) (queries : List (Query α)) :
    (measuringContract α).Ensures x.seat.rank HitTable.Measured (x.query queries) := by
  have hexchange := ensures_exchange_measured hown hs hindexed hrank
  have hannouncements : (measuringContract α).Carries Content.ofAnnouncements fun _ _ _ => True :=
    .anything fun _ _ _ => trivial
  have hchecked : (measuringContract α).Ensures x.seat.rank (fun _ => True)
      (Search.ofExcept (Batch.check x.options queries)) := ensures_done fun _ _ => trivial
  refine hchecked.bind fun kind _ => ?_
  have hagreed : (measuringContract α).Ensures x.seat.rank (fun _ => True) (x.agree kind) :=
    ((hannouncements.ensures_gather x.seat _ fun _ => trivial).adapt _).bind fun _ _ =>
      ensures_done fun _ _ => trivial
  refine hagreed.bind fun agreed _ => ?_
  cases agreed with
  | none => exact ensures_pure (HitTable.measured_empty _ _)
  | some agreed =>
    cases agreed with
    | overlapping => exact ensures_answerSpatial_measured hexchange queries
    | touching => exact ensures_answerSpatial_measured hexchange queries
    | nearest =>
      dsimp only
      split
      · exact ensures_refine_measured hexchange _
      · exact ensures_enclose_measured hexchange _

/-- In every run of a group whose indices and ranks fit 64 bits, all tables are measured. -/
theorem governs_asking_measured {shares : Fin n → Share α} (hshares : ∀ b, (shares b).AllNumeric)
    (hindexed : ∀ b, (shares b).Indexed) (hn : n ≤ UInt64.size) (options : Fin n → SearchOptions)
    (batches : Fin n → List (Query α)) : (measuringContract α).Governs
      (fun _ outcome => ∀ table, outcome = .ok table → table.Measured)
      (asking (fun i => (shares i).index) options batches) := by
  have hholdings : (measuringContract α).Carries Content.ofHoldings fun _ _ _ => True :=
    .anything fun _ _ _ => trivial
  refine governs_start fun i => ?_
  have hgathered := hholdings.ensures_gather ⟨n, i⟩ (.ofIndex (shares i).index) fun _ => trivial
  refine Ensures.bind (P := fun x => x.seat = ⟨n, i⟩ ∧ x.own = (shares i).index)
    ((hgathered.adapt _).bind fun _ _ => ensures_pure ⟨rfl, rfl⟩) fun x hx => ?_
  obtain ⟨seat, own, roster, chosen⟩ := x
  obtain ⟨rfl, hown⟩ := hx
  exact ensures_query_measured hown (hshares i) (hindexed i) (Nat.lt_of_lt_of_le i.isLt hn)
    (batches i)

end PartitionedIndex

end SpatialSearch
