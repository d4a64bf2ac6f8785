import SpatialSearch.Proofs.Contracts
import SpatialSearch.Proofs.Protocol
import SpatialSearch.Proofs.Verdicts

/-!
# The tables of queries

What a query gives back is a table of the right shape, whatever the boxes, the options and
the batches on all ranks, and whatever becomes of the other ranks. The contract behind it
follows the numbers of queries on their way to other ranks and back: requests bear numbers
of the batch of the rank that asks, and answers bear those of the requests. So every answer
that comes back belongs to a query of the own batch, and the hits reach the table in the
order of the queries.
-/

namespace SpatialSearch

/-- What may be under way while batches are put to a partitioned index: announcements that a
rank may make, requests with numbers of queries that a rank has, and answers to them. A rank
may give up because it counts or makes room beyond the bounds, and for nothing else. -/
def queryContract (α : Type) (announced : (rank : Nat) → Announcement → Prop)
    (asked : (rank : Nat) → Nat) : Contract (Content α) where
  allows
    | source, _, .announcements items => ∀ a ∈ items, announced source a
    | source, _, .requests items => ∀ r ∈ items, r.number < asked source
    | _, dest, .answers items => ∀ a ∈ items, a.number < asked dest
    | _, _, .plain _ _ => True
    | _, _, .holdings _ => True
  excuses cause := cause = .overflow ∨ cause = .noRoom

namespace PartitionedIndex

open Contract

variable {α : Type} {announced : (rank : Nat) → Announcement → Prop}
  {asked : (rank : Nat) → Nat}

theorem carries_announcements : (queryContract α announced asked).Carries
    Content.ofAnnouncements fun source _ a => announced source a where
  pack _ _ _ h := h
  unpack _ _ payload _ hallows hitems := by
    cases payload <;> cases hitems
    exact hallows

theorem carries_requests : (queryContract α announced asked).Carries
    Content.ofRequests fun source _ r => r.number < asked source where
  pack _ _ _ h := h
  unpack _ _ payload _ hallows hitems := by
    cases payload <;> cases hitems
    exact hallows

theorem carries_answers : (queryContract α announced asked).Carries
    Content.ofAnswers fun _ dest a => a.number < asked dest where
  pack _ _ _ h := h
  unpack _ _ payload _ hallows hitems := by
    cases payload <;> cases hitems
    exact hallows

theorem carries_plain (kind : PlainKind) :
    (queryContract α announced asked).Carries (Content.ofPlain kind) fun _ _ _ => True :=
  .anything fun _ _ _ => trivial

/-! ### Answers to requests -/

section Answers

variable [Scalar α]

omit [Scalar α] in
theorem number_of_mem_replies {r : Request α} {rank : Nat} {hits : List (Neighbor α)} :
    ∀ a ∈ r.replies rank hits, a.number = r.number := by
  intro a ha
  obtain ⟨_, -, rfl⟩ := List.mem_map.mp ha
  rfl

theorem number_of_mem_respond {index : Index α} {rank : Nat} {r : Request α}
    {scratch : Scratch α} {answers : List (Answer α)}
    (h : (r.respond index rank scratch).1 = .ok answers) : ∀ a ∈ answers, a.number = r.number := by
  rw [Request.respond] at h
  split at h
  · dsimp only at h
    split at h
    · cases h
      exact List.forall_mem_nil _
    · obtain ⟨_, -, rfl⟩ := exists_of_map_eq_ok h
      exact number_of_mem_replies
  · obtain ⟨_, -, rfl⟩ := exists_of_map_eq_ok h
    exact number_of_mem_replies

theorem respondAll_numbers {index : Index α} {rank : Nat} {requests : List (Request α)}
    {scratch : Scratch α} {replies : List (List (Answer α))}
    (h : Request.respondAll index rank requests scratch = .ok replies) :
    List.Forall₂ (fun r answers => ∀ a ∈ answers, a.number = r.number) requests replies := by
  induction requests generalizing scratch replies with
  | nil =>
    cases h
    exact .nil
  | cons r rest ih =>
    rw [Request.respondAll] at h
    split at h
    · cases h
    · rename_i answers scratch' hanswers
      obtain ⟨later, hrest, rfl⟩ := exists_of_map_eq_ok h
      exact .cons (number_of_mem_respond (congrArg Prod.fst hanswers)) (ih hrest)

end Answers

/-- What two chained relations say of the pairs of their ends. -/
theorem exists_of_mem_zip {β γ δ : Type} {R : β → γ → Prop} {S : γ → δ → Prop} {l₁ : List β}
    {l₂ : List γ} {l₃ : List δ} (hR : List.Forall₂ R l₁ l₂) (hS : List.Forall₂ S l₂ l₃) :
    ∀ p ∈ l₁.zip l₃, ∃ b, R p.1 b ∧ S b p.2 := by
  induction hR generalizing l₃ with
  | nil => exact List.forall_mem_nil _
  | @cons a b l₁ l₂ hab _ ih =>
    cases hS with
    | cons hbd hrest => exact List.forall_mem_cons.mpr ⟨⟨b, hab, hbd⟩, ih hrest⟩

theorem forall_mem_of_forall₂ {β γ : Type} {P : γ → Prop} {l₁ : List β} {l₂ : List γ}
    (h : List.Forall₂ (fun _ b => P b) l₁ l₂) : ∀ b ∈ l₂, P b := by
  induction h with
  | nil => exact List.forall_mem_nil _
  | cons hb _ ih => exact List.forall_mem_cons.mpr ⟨hb, ih⟩

section Parts

variable {x : PartitionedIndex α} {rank : Nat}

theorem ensures_ofIndex {β : Type} {c : Contract (Content α)} {result : Except IndexFault β} :
    c.Ensures rank (fun b => result = .ok b) (Search.ofIndex result) := by
  refine ensures_done fun b hb => ?_
  cases result with
  | error _ => cases hb
  | ok _ => cases hb; rfl

/-- The kind that a rank concludes comes from announcements of all ranks. -/
theorem ensures_agree {kind : Option QueryKind}
    (hown : announced x.seat.rank ⟨kind, x.options⟩) :
    (queryContract α announced asked).Ensures x.seat.rank
      (fun agreed => ∃ announcements : List Announcement, announcements.length = x.seat.size ∧
        (∀ rank a, announcements[rank]? = some a → announced rank a) ∧
          Batch.agree announcements = .ok agreed) (x.agree kind) := by
  refine ((carries_announcements.ensures_gather x.seat _ fun _ => hown).adapt _).bind
    fun announcements hall => ensures_done fun agreed hagreed => ?_
  exact ⟨announcements, hall.1, hall.2, hagreed⟩

theorem number_lt_of_requestsFrom {β : Type}
    {f : Nat → β → Except IndexFault (List (Nat × Request α))}
    (hf : ∀ number item requests, f number item = .ok requests →
      ∀ r ∈ requests, r.2.number = number) {items : List β} {number : Nat}
    {requests : List (Nat × Request α)} (h : requestsFrom f number items = .ok requests) :
    ∀ r ∈ requests, r.2.number < number + items.length := by
  induction items generalizing number requests with
  | nil =>
    cases h
    exact List.forall_mem_nil _
  | cons item rest ih =>
    obtain ⟨first, hfirst, h⟩ := exists_of_bind_eq_ok h
    obtain ⟨others, hothers, hpure⟩ := exists_of_bind_eq_ok h
    cases hpure
    intro r hr
    rw [List.length_cons]
    rcases List.mem_append.mp hr with hr | hr
    · have hnumber := hf number item first hfirst r hr
      omega
    · have hnumber := ih hothers r hr
      omega

/-- The requests of a batch bear numbers of its queries. -/
theorem ensures_requests {β : Type} {f : Nat → β → Except IndexFault (List (Nat × Request α))}
    (hf : ∀ number item requests, f number item = .ok requests →
      ∀ r ∈ requests, r.2.number = number) {items : List β}
    (hitems : items.length ≤ asked rank) :
    (queryContract α announced asked).Ensures rank
      (fun requests => ∀ r ∈ requests, r.2.number < asked rank)
      (Search.ofIndex (requestsFrom f 0 items)) := by
  refine ensures_ofIndex.mono fun requests hrequests r hr => ?_
  have hnumber := number_lt_of_requestsFrom hf hrequests r hr
  omega

structure InRows (queries : Nat) (rows : List (List (Answer α))) : Prop where
  length_eq : rows.length = queries
  number_eq : ∀ (q : Nat) (row : List (Answer α)), rows[q]? = some row →
    ∀ a ∈ row, a.number = q

theorem InRows.append {queries : Nat} {rows more : List (List (Answer α))}
    (h : InRows queries rows) (hmore : InRows queries more) :
    InRows queries (rows.zipWith (· ++ ·) more) where
  length_eq := by rw [List.length_zipWith, h.length_eq, hmore.length_eq, Nat.min_self]
  number_eq q row hrow a ha := by
    rw [List.getElem?_zipWith_eq_some] at hrow
    obtain ⟨first, second, hfirst, hsecond, rfl⟩ := hrow
    rcases List.mem_append.mp ha with ha | ha
    · exact h.number_eq q first hfirst a ha
    · exact hmore.number_eq q second hsecond a ha

/-- Rows one after the other are in the order of their queries. -/
theorem InRows.pairwise_flatten {queries : Nat} {rows : List (List (Answer α))}
    (h : InRows queries rows) : rows.flatten.Pairwise (·.number ≤ ·.number) := by
  refine List.pairwise_flatten.mpr ⟨fun row hrow => ?_, ?_⟩
  · obtain ⟨q, hq⟩ := List.mem_iff_getElem?.mp hrow
    refine List.pairwise_of_forall_mem_list fun a ha b hb => ?_
    rw [h.number_eq q row hq a ha, h.number_eq q row hq b hb]
  · refine List.pairwise_iff_getElem.mpr fun i j hi hj hij a ha b hb => ?_
    rw [h.number_eq i _ (List.getElem?_eq_getElem hi) a ha,
      h.number_eq j _ (List.getElem?_eq_getElem hj) b hb]
    exact Nat.le_of_lt hij

theorem InRows.number_lt {queries : Nat} {rows : List (List (Answer α))}
    (h : InRows queries rows) : ∀ a ∈ rows.flatten, a.number < queries := by
  intro a ha
  obtain ⟨row, hrow, ha⟩ := List.mem_flatten.mp ha
  obtain ⟨q, hq⟩ := List.mem_iff_getElem?.mp hrow
  rw [h.number_eq q row hq a ha, ← h.length_eq]
  exact (List.getElem?_eq_some_iff.mp hq).1

/-- Answers to the queries of a batch are dealt out without a number beyond it. -/
theorem ensures_deal {c : Contract (Content α)} {queries : Nat} {answers : List (Answer α)}
    (h : ∀ a ∈ answers, a.number < queries) :
    c.Ensures rank (InRows queries) (deal queries answers) := by
  rw [deal_eq h]
  refine ensures_pure ⟨by simp, fun q row hrow a ha => ?_⟩
  rw [List.getElem?_map, Option.map_eq_some_iff] at hrow
  obtain ⟨number, hnumber, rfl⟩ := hrow
  have hq : q = number.val := by
    have := List.getElem?_eq_some_iff.mp hnumber
    grind
  rw [hq]
  exact eq_of_beq (List.mem_filter.mp ha).2

end Parts

section Queries

variable [Scalar α] {x : PartitionedIndex α} {rank : Nat}

/-- What answers come back from an exchange, by what requests and answers may be under way: there
is room for them, and each is of the form that its sender had to give it. -/
theorem ensures_exchange_of {c : Contract (Content α)}
    {R : (source dest : Nat) → Request α → Prop} {A : (source dest : Nat) → Answer α → Prop}
    (hcounts : c.Carries (Content.ofPlain .count) fun _ _ _ => True)
    (hrequests : c.Carries Content.ofRequests R) (hanswers : c.Carries Content.ofAnswers A)
    (hexcuses : ∀ cause, cause = .overflow ∨ cause = .noRoom → c.excuses cause)
    {requests : List (Nat × Request α)} (hsent : ∀ r ∈ requests, R x.seat.rank r.1 r.2)
    (hreplied : ∀ sources incoming replies,
      List.Forall₂ (fun source r => R source x.seat.rank r) sources incoming →
      Request.respondAll x.own x.seat.rank incoming ⟨.empty x.options.neighborLimit, []⟩ =
        .ok replies →
      ∀ p ∈ sources.zip replies, ∀ a ∈ p.2, A x.seat.rank p.1 a) :
    c.Ensures x.seat.rank (fun answers => (∀ a ∈ answers, ∃ source, A source x.seat.rank a) ∧
      answers.length < Count.room) (x.exchange requests) := by
  refine ((ensures_negotiate hcounts x.seat _).adapt _).bind fun forward hforward => ?_
  refine ((hrequests.ensures_post hforward (fun r dest hr => ?_) hexcuses).adapt _).bind
    fun incoming hincoming => ?_
  · rw [List.zip_map'] at hr
    obtain ⟨request, hmem, heq⟩ := List.mem_map.mp hr
    cases heq
    exact hsent request hmem
  refine ensures_ofIndex.bind fun replies hreplies => ?_
  refine ((ensures_negotiate hcounts x.seat _).adapt _).bind fun backward hbackward => ?_
  refine ((hanswers.ensures_post_within hbackward (fun a dest ha => ?_) hexcuses).adapt _).mono
    fun answers harrived => ?_
  · rw [List.zip_map'] at ha
    obtain ⟨p, hmem, heq⟩ := List.mem_map.mp ha
    cases heq
    obtain ⟨⟨origin, answers⟩, hzip, hp⟩ := List.mem_flatMap.mp hmem
    obtain ⟨a, hanswer, rfl⟩ := List.mem_map.mp hp
    exact hreplied _ incoming replies hincoming hreplies _ hzip a hanswer
  · obtain ⟨hform, hroom⟩ := harrived
    have hform : List.Forall₂ (fun _ a => ∃ source, A source x.seat.rank a) backward.sources
        answers := hform.imp fun source _ ha => ⟨source, ha⟩
    exact ⟨forall_mem_of_forall₂ hform, hroom⟩

/-- The answers of an exchange bear numbers of queries that the rank has. -/
theorem ensures_exchange {requests : List (Nat × Request α)}
    (hrequests : ∀ r ∈ requests, r.2.number < asked x.seat.rank) :
    (queryContract α announced asked).Ensures x.seat.rank
      (fun answers => ∀ a ∈ answers, a.number < asked x.seat.rank) (x.exchange requests) := by
  refine (ensures_exchange_of (carries_plain _) carries_requests carries_answers (fun _ => id)
    hrequests fun sources incoming replies hincoming hreplies p hp a ha => ?_).mono
      fun answers hanswers a ha => (hanswers.1 a ha).elim fun _ => id
  obtain ⟨r, hr, hnumber⟩ := exists_of_mem_zip hincoming (respondAll_numbers hreplies) p hp
  rw [hnumber a ha]
  exact hr

theorem InRows.bestOfEach {queries : List (NearestQuery α)} {rows : List (List (Answer α))}
    (h : InRows queries.length rows) : InRows queries.length (bestOfEach queries rows) where
  length_eq := by
    rw [PartitionedIndex.bestOfEach, List.length_zipWith, h.length_eq, Nat.min_self]
  number_eq q row hrow a ha := by
    rw [PartitionedIndex.bestOfEach, List.getElem?_zipWith_eq_some] at hrow
    obtain ⟨answers, n, hanswers, -, rfl⟩ := hrow
    have hmem := List.mem_of_mem_take ha
    exact h.number_eq q answers hanswers a ((List.mergeSort_perm _ _).mem_iff.mp hmem)

/-- A table for a batch of so many queries, with distances or without. -/
structure TableFor (queries : Nat) (measured : Bool) (table : HitTable α) : Prop where
  wellFormed : table.WellFormed queries
  measured_eq : table.distances.isSome = measured

theorem ensures_tabulate {c : Contract (Content α)} {queries : Nat} {answers : List (Answer α)}
    {measured : Bool} (hsorted : answers.Pairwise (·.number ≤ ·.number))
    (hlt : ∀ a ∈ answers, a.number < queries) :
    c.Ensures rank (TableFor queries measured) (tabulate queries answers measured) := by
  rw [tabulate_eq_ofHits measured hsorted hlt]
  refine ensures_pure ⟨HitTable.wellFormed_ofHits fun h hh => ?_, ?_⟩
  · obtain ⟨a, ha, rfl⟩ := List.mem_map.mp hh
    exact hlt a ha
  · cases measured <;> rfl

/-! ### The methods -/

omit [Scalar α] in
theorem number_of_mem_asks {number : Nat} {n : NearestQuery α} {limit : α} {ranks : List Nat} :
    ∀ r ∈ ranks.map (ask number n limit), r.2.number = number := by
  intro r hr
  obtain ⟨_, -, rfl⟩ := List.mem_map.mp hr
  rfl

theorem number_of_firstRequests (number : Nat) (item : NearestQuery α × List Nat)
    (requests : List (Nat × Request α)) (h : firstRequests number item = .ok requests) :
    ∀ r ∈ requests, r.2.number = number := by
  cases h
  exact number_of_mem_asks

theorem number_of_secondRequests (number : Nat)
    (item : NearestQuery α × List Nat × List (Answer α)) (requests : List (Nat × Request α))
    (h : x.secondRequests number item = .ok requests) : ∀ r ∈ requests, r.2.number = number := by
  rw [secondRequests] at h
  obtain ⟨ranks, -, rfl⟩ := exists_of_map_eq_ok h
  exact number_of_mem_asks

theorem number_of_coveringRequests (number : Nat) (item : NearestQuery α × α)
    (requests : List (Nat × Request α)) (h : x.coveringRequests number item = .ok requests) :
    ∀ r ∈ requests, r.2.number = number := by
  rw [coveringRequests.eq_def] at h
  obtain ⟨ranks, -, rfl⟩ := exists_of_map_eq_ok h
  exact number_of_mem_asks

theorem number_of_spatialRequests (number : Nat) (q : Query α)
    (requests : List (Nat × Request α)) (h : x.spatialRequests number q = .ok requests) :
    ∀ r ∈ requests, r.2.number = number := by
  obtain ⟨ranks, -, rfl⟩ := exists_of_map_eq_ok h
  intro r hr
  obtain ⟨_, -, rfl⟩ := List.mem_map.mp hr
  rfl

/-- The answers of one round, dealt out to the queries that asked for them. -/
theorem ensures_round {requests : List (Nat × Request α)} {queries : Nat}
    (hasked : asked x.seat.rank = queries)
    (hrequests : ∀ r ∈ requests, r.2.number < asked x.seat.rank) :
    (queryContract α announced asked).Ensures x.seat.rank (InRows queries)
      (x.exchange requests >>= deal queries) := by
  subst hasked
  exact (ensures_exchange hrequests).bind fun _ hanswers => ensures_deal hanswers

theorem ensures_refine {queries : List (NearestQuery α)}
    (hasked : asked x.seat.rank = queries.length) :
    (queryContract α announced asked).Ensures x.seat.rank (TableFor queries.length true)
      (x.refine queries) := by
  have hfew : ∀ {β : Type} (items : List β), (queries.zip items).length ≤ asked x.seat.rank := by
    intro β items
    rw [hasked, List.length_zip]
    exact Nat.min_le_left _ _
  refine ensures_ofIndex.bind fun ranks _ => ?_
  refine (ensures_requests number_of_firstRequests (hfew _)).bind fun requests hrequests => ?_
  rw [← bind_assoc]
  refine (ensures_round hasked hrequests).bind fun found hfound => ?_
  refine (ensures_requests number_of_secondRequests (hfew _)).bind fun requests hrequests => ?_
  rw [← bind_assoc]
  refine (ensures_round hasked hrequests).bind fun more hmore => ?_
  have hrows := (hfound.bestOfEach.append hmore).bestOfEach
  exact ensures_tabulate hrows.pairwise_flatten hrows.number_lt

omit [Scalar α] in
theorem cause_of_firstReaching {k seen : Nat} {corners : List (α × Nat)} {cause : Abort}
    (h : Roster.firstReaching k seen corners = .error cause) : cause = .overflow := by
  induction corners generalizing seen with
  | nil => cases h
  | cons corner rest ih =>
    rw [Roster.firstReaching] at h
    split at h
    · split at h
      · cases h
      · exact ih h
    · rename_i hadd
      cases h
      exact cause_of_add hadd

theorem cause_of_coveringLimits {queries : List (NearestQuery α)} {cause : Abort}
    (h : x.coveringLimits queries = .error cause) : cause = .overflow := by
  rw [coveringLimits] at h
  induction queries with
  | nil => cases h
  | cons n rest ih =>
    rw [List.mapM_cons] at h
    rcases error_of_bind h with hlimit | ⟨_, -, h⟩
    · exact cause_of_firstReaching (error_of_map hlimit)
    · rcases error_of_bind h with hrest | ⟨_, -, hpure⟩
      · exact ih hrest
      · cases hpure

theorem ensures_enclose {queries : List (NearestQuery α)}
    (hasked : asked x.seat.rank = queries.length) :
    (queryContract α announced asked).Ensures x.seat.rank (TableFor queries.length true)
      (x.enclose queries) := by
  refine ((ensures_ofCount fun cause hcause =>
    Or.inl (cause_of_coveringLimits hcause)).adapt _).bind fun limits _ => ?_
  have hfew : (queries.zip limits).length ≤ asked x.seat.rank := by
    rw [hasked, List.length_zip]
    exact Nat.min_le_left _ _
  refine (ensures_requests number_of_coveringRequests hfew).bind fun requests hrequests => ?_
  rw [← bind_assoc]
  refine (ensures_round hasked hrequests).bind fun found hfound => ?_
  exact ensures_tabulate hfound.bestOfEach.pairwise_flatten hfound.bestOfEach.number_lt

theorem ensures_answerSpatial {queries : List (Query α)}
    (hasked : asked x.seat.rank = queries.length) :
    (queryContract α announced asked).Ensures x.seat.rank (TableFor queries.length false)
      (x.answerSpatial queries) := by
  refine (ensures_requests number_of_spatialRequests (Nat.le_of_eq hasked.symm)).bind
    fun requests hrequests => ?_
  refine (ensures_exchange hrequests).bind fun answers hanswers => ?_
  refine ensures_tabulate (pairwise_mergeSort_number answers) fun a ha => ?_
  rw [← hasked]
  exact hanswers a ((List.mergeSort_perm _ _).mem_iff.mp ha)

/-- A batch of an agreed kind is empty or of this kind. -/
theorem kind_of_agree {queries : List (Query α)} {announcements : List Announcement}
    {agreed : Option QueryKind} (hlength : announcements.length = x.seat.size)
    (hown : ∀ a, announcements[x.seat.rank.val]? = some a →
      Batch.check x.options queries = .ok a.kind)
    (hagreed : Batch.agree announcements = .ok agreed) : ∀ q ∈ queries, agreed = some q.kind := by
  intro q hq
  have hrank : x.seat.rank.val < announcements.length := by
    rw [hlength]
    exact x.seat.rank.isLt
  have hkind := Batch.kind_of_mem_checked (hown _ (List.getElem?_eq_getElem hrank)) hq
  exact (Batch.same_of_agree hagreed).2 _ (List.getElem_mem hrank) q.kind hkind

/-- A query that succeeds gives a table for its batch, with distances if the nearest queries were
agreed upon, from announcements of all ranks. -/
theorem ensures_query {queries : List (Query α)} (hasked : asked x.seat.rank = queries.length)
    (hannounced : ∀ a, announced x.seat.rank a ↔
      Batch.check x.options queries = .ok a.kind ∧ a.options = x.options) :
    (queryContract α announced asked).Ensures x.seat.rank
      (fun table => ∃ announcements agreed, announcements.length = x.seat.size ∧
        (∀ rank a, announcements[rank]? = some a → announced rank a) ∧
        Batch.agree announcements = .ok agreed ∧
        TableFor queries.length (agreed == some .nearest) table) (x.query queries) := by
  have hchecked : (queryContract α announced asked).Ensures x.seat.rank
      (fun kind => Batch.check x.options queries = .ok kind)
      (Search.ofExcept (Batch.check x.options queries)) := ensures_done fun _ => id
  refine hchecked.bind fun kind hkind => ?_
  refine (ensures_agree ((hannounced _).mpr ⟨hkind, rfl⟩)).bind fun agreed hall => ?_
  obtain ⟨announcements, hlength, hall, hagreed⟩ := hall
  have hkinds := kind_of_agree hlength (fun a ha => ((hannounced a).mp (hall _ a ha)).1) hagreed
  refine Ensures.mono (P := TableFor queries.length (agreed == some .nearest)) ?_
    fun table htable => ⟨announcements, agreed, hlength, hall, hagreed, htable⟩
  cases agreed with
  | none => exact ensures_pure ⟨HitTable.wellFormed_empty _ _, rfl⟩
  | some agreed =>
    cases agreed with
    | overlapping => exact ensures_answerSpatial hasked
    | touching => exact ensures_answerSpatial hasked
    | nearest =>
      have hnearest : ∀ q ∈ queries, q.kind = .nearest :=
        fun q hq => (Option.some.inj (hkinds q hq)).symm
      have hnumber : (nearestQueries queries).length = queries.length := by
        rw [← List.length_map (f := Query.nearest), map_nearestQueries hnearest]
      rw [← hnumber] at hasked ⊢
      dsimp only
      split
      · exact ensures_refine hasked
      · exact ensures_enclose hasked

end Queries

/-! ### Groups -/

section Groups

variable [Scalar α] {n : Nat}

def asking (own : Fin n → Index α) (options : Fin n → SearchOptions)
    (batches : Fin n → List (Query α)) :
    Group n (Content α) (Except SearchFault (HitTable α)) where
  programs := .ofFn fun i => ExceptT.run do
    let x ← build ⟨n, i⟩ (own i) (options i)
    x.query (batches i)
  mailboxes := .empty

def MayAnnounce (options : Fin n → SearchOptions) (batches : Fin n → List (Query α))
    (rank : Nat) (a : Announcement) : Prop :=
  ∃ i : Fin n, i.val = rank ∧ Batch.check (options i) (batches i) = .ok a.kind ∧
    a.options = options i

omit [Scalar α] in
def numberOf (batches : Fin n → List (Query α)) (rank : Nat) : Nat :=
  if h : rank < n then (batches ⟨rank, h⟩).length else 0

variable {own : Fin n → Index α} {options : Fin n → SearchOptions}
  {batches : Fin n → List (Query α)}

theorem mayAnnounce_iff {i : Fin n} {a : Announcement} : MayAnnounce options batches i a ↔
    Batch.check (options i) (batches i) = .ok a.kind ∧ a.options = options i := by
  constructor
  · rintro ⟨j, hj, ha⟩
    obtain rfl := Fin.ext hj
    exact ha
  · intro ha
    exact ⟨i, rfl, ha⟩

/-- What ranks agree on by their announcements is the verdict on their batches. -/
theorem verdict_of_announcements {announcements : List Announcement} {agreed : Option QueryKind}
    (hlength : announcements.length = n)
    (hall : ∀ rank a, announcements[rank]? = some a → MayAnnounce options batches rank a)
    (hagreed : Batch.agree announcements = .ok agreed) :
    Batch.Verdict options batches (.ok agreed) := by
  subst hlength
  have hannounced : ∀ i : Fin announcements.length,
      Batch.check (options i) (batches i) = .ok announcements[i].kind ∧
        announcements[i].options = options i :=
    fun i => mayAnnounce_iff.mp (hall i _ (List.getElem?_eq_getElem i.isLt))
  have hlist : (List.ofFn fun i : Fin announcements.length =>
      (⟨announcements[i].kind, options i⟩ : Announcement)) = announcements := by
    refine List.ext_getElem (by simp) fun rank _ hrank => ?_
    rw [List.getElem_ofFn, ← (hannounced ⟨rank, hrank⟩).2]
    rfl
  obtain ⟨verdict, hverdict⟩ := Batch.exists_verdict options batches
  have hagree := Batch.agree_eq_of_verdict (fun i => (hannounced i).1) hverdict
  rw [hlist, hagreed] at hagree
  exact hagree ▸ hverdict

omit [Scalar α] in
theorem carries_holdings : (queryContract α announced asked).Carries
    Content.ofHoldings fun _ _ _ => True :=
  .anything fun _ _ _ => trivial

theorem ensures_build (seat : Seat) (own : Index α) (options : SearchOptions) :
    (queryContract α announced asked).Ensures seat.rank
      (fun x => x.seat = seat ∧ x.options = options) (build seat own options) :=
  ((carries_holdings.ensures_gather seat _ fun _ => trivial).adapt _).bind
    fun _ _ => ensures_pure ⟨rfl, rfl⟩

variable (own options batches) in
/-- All ranks keep to the contract, and their tables are for their batches. -/
theorem governs_asking :
    (queryContract α (MayAnnounce options batches) (numberOf batches)).Governs
      (fun i outcome => ∀ table, outcome = .ok table →
        ∃ agreed, Batch.Verdict options batches (.ok agreed) ∧
          TableFor (batches i).length (agreed == some .nearest) table)
      (asking own options batches) := by
  refine governs_start fun i => ?_
  refine (ensures_build ⟨n, i⟩ (own i) (options i)).bind fun x hx => ?_
  obtain ⟨seat, index, roster, chosen⟩ := x
  obtain ⟨rfl, rfl⟩ := hx
  have hasked : numberOf batches i = (batches i).length := dif_pos i.isLt
  refine (ensures_query (x := ⟨⟨n, i⟩, index, roster, options i⟩) hasked
    fun a => mayAnnounce_iff).mono fun table htable => ?_
  obtain ⟨announcements, agreed, hlength, hall, hagreed, htable⟩ := htable
  exact ⟨agreed, verdict_of_announcements hlength hall hagreed, htable⟩

/-- Where there is room for all that is asked and answered, all ranks go through the same stages,
and batches that go together get their tables. -/
theorem exists_performs_asking [LawfulScalar α] {shares : Fin n → Share α}
    (h : Admitted shares options batches) :
    ∃ (stages : List (Stage n (Content α))) (result : Fin n → Except SearchFault (HitTable α)),
      (∀ i, Program.Performs (Stage.course stages i) (ExceptT.run do
        let x ← build ⟨n, i⟩ (shares i).index (options i)
        x.query (batches i)) (.done (result i))) ∧
      (Compatible options batches → ∀ i, ∃ table, result i = .ok table) := by
  have hbuild := passes_build shares options
  rcases passes_query h with ⟨hapart, fault, hquery⟩ | ⟨-, rounds, -, tables, hquery⟩
  · obtain ⟨stages, -, hperf⟩ := hbuild.bind (q := fun i x => x.query (batches i)) hquery
    exact ⟨stages, _, hperf, fun hall => absurd hall hapart⟩
  · obtain ⟨stages, -, hperf⟩ := hbuild.bind (q := fun i x => x.query (batches i)) hquery
    exact ⟨stages, _, hperf, fun _ i => ⟨tables i, rfl⟩⟩

/-- Whatever the boxes, the options and the batches, and in whatever order the ranks act, a query
that succeeds gives a table of the right shape, of which all rows can be read, and with distances
on all ranks or on none. No answer is ever put to a query that does not exist or out of the order
of the queries: a rank gives up only where counts are too large, and not at all where there is
room. -/
theorem query_gives_table {log : Fin n → List (Event (Content α))}
    {g : Group n (Content α) (Except SearchFault (HitTable α))}
    (h : Group.Recorded (asking own options batches) log g) (i : Fin n) :
    (∀ table, g.programs.get i = .done (.ok table) →
      table.WellFormed (batches i).length ∧
      (∀ q < (batches i).length, ∃ row, table.hits? q = some row) ∧
      ∃ agreed, Batch.Verdict options batches (.ok agreed) ∧
        (table.distances.isSome ↔ agreed = some .nearest)) ∧
    (∀ cause, g.programs.get i = .gaveUp cause → cause = .overflow ∨ cause = .noRoom) ∧
    ∀ [LawfulScalar α] (shares : Fin n → Share α), (∀ j, own j = (shares j).index) →
      Admitted shares options batches → ∀ cause, g.programs.get i ≠ .gaveUp cause := by
  have hgoverns := (governs_asking own options batches).recorded h
  refine ⟨fun table hdone => ?_, fun cause => hgoverns.cause, fun shares hown hadmitted => ?_⟩
  · obtain ⟨agreed, hverdict, hwellFormed, hmeasured⟩ := hgoverns.result hdone table rfl
    refine ⟨hwellFormed, fun q hq => hwellFormed.exists_hits hq, agreed, hverdict, ?_⟩
    rw [hmeasured, beq_iff_eq]
  · obtain rfl : own = fun j => (shares j).index := funext hown
    obtain ⟨stages, result, hperf, -⟩ := exists_performs_asking hadmitted
    rw [asking, ← Group.of_none] at h
    exact h.not_gaveUp hperf i

def firstAsks : Fin 2 → List (Query Binary64)
  | 0 => [.nearest ⟨.origin, 1⟩]
  | 1 => []

/-- The rank without queries gets an empty table with distances as well. -/
theorem query_gives_table_firstAsks :
    ∃ log g, Group.Recorded (asking (fun i => (twoRanks i).index) (fun _ => {}) firstAsks) log g ∧
      ∀ i, ∃ table, g.programs.get i = .done (.ok table) ∧
        table.WellFormed (firstAsks i).length ∧ table.distances.isSome := by
  have hchecked : ∀ i, Batch.check {} (firstAsks i) = .ok ((firstAsks i).head?.map Query.kind) := by
    decide
  have hadmitted : Admitted twoRanks (fun _ => {}) firstAsks :=
    .of_hitBound (fun i => ⟨_, hchecked i⟩) (by decide) (by decide) (by decide)
  have hall : Compatible (fun _ => {}) firstAsks := ⟨by decide, by decide⟩
  obtain ⟨stages, result, hperf, htables⟩ := exists_performs_asking hadmitted
  have hends := Group.alwaysEnds_of_performs hperf
  rw [Group.of_none] at hends
  obtain ⟨log, g, hrecorded, hdone, -⟩ := hends.exists_recorded .start
  refine ⟨log, g, hrecorded, fun i => ?_⟩
  obtain ⟨table, htable⟩ := htables hall i
  have hi : g.programs.get i = .done (.ok table) := by rw [hdone, htable]
  obtain ⟨hwellFormed, -, agreed, hverdict, hmeasured⟩ :=
    (query_gives_table hrecorded i).1 table hi
  have hnearest : Batch.Verdict (fun _ => {}) firstAsks (.ok (some .nearest)) :=
    .agreed (i := 0) (p := .nearest ⟨.origin, 1⟩) (fun _ _ => rfl) List.mem_cons_self (by decide)
  have hagreed : agreed = some .nearest := Except.ok.inj (hnearest.unique hchecked hverdict)
  exact ⟨table, hi, hwellFormed, hmeasured.mpr hagreed⟩

end Groups

end PartitionedIndex

end SpatialSearch
