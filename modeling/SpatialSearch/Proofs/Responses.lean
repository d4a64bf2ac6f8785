import SpatialSearch.Proofs.BatchChecks
import SpatialSearch.Proofs.BorrowedSpace
import SpatialSearch.Proofs.Protocol

/-!
# Answers of ranks to each other

A rank answers every request that asks for no more neighbors than there is room for, whatever its
scratch space holds. Ranks with the same options rely on this for each other: a batch that has been
checked leads to requests of this kind only, so that no rank fails between the two halves of an
exchange and leaves the others waiting.
-/

namespace SpatialSearch

/-- What may be under way while ranks with the same options put batches to the index they have joined:
their holdings, and requests for no more neighbors than there is room for. -/
def answeringContract {α : Type} [Scalar α] {n : Nat} (shares : Fin n → Share α) (room : Nat) :
    Contract (Content α) where
  allows
    | source, _, .holdings items =>
      ∀ h ∈ items, ∀ i : Fin n, i.val = source → h = (shares i).holdings
    | _, _, .requests items => ∀ r ∈ items, ∀ t, r.query = .nearest t → t.k ≤ room
    | _, _, .announcements _ => True
    | _, _, .answers _ => True
    | _, _, .plain _ _ => True
  excuses _ := True

/-- A failure of a rank other than one to search its own index. -/
def SearchFault.Foreseen (fault : SearchFault) : Prop := ∀ cause, fault ≠ .index cause

namespace Batch

variable {α : Type} [Scalar α] {options : SearchOptions} {queries : List (Query α)}
  {fault : SearchFault}

theorem foreseen_of_check (h : check options queries = .error fault) : fault.Foreseen := by
  obtain ⟨_, -, _, _, _, -, -, hwrong⟩ := check_error_iff.mp h
  cases hwrong <;> exact nofun

theorem foreseen_of_agree {announcements : List Announcement}
    (h : agree announcements = .error fault) : fault.Foreseen := by
  obtain ⟨_, rfl⟩ := fault_of_agree h
  exact nofun

end Batch

namespace PartitionedIndex

open Contract

variable {α : Type} [Scalar α] {n : Nat} (shares : Fin n → Share α) (room : Nat)

/-! ### The contract -/

theorem carries_holdings_of : (answeringContract shares room).Carries Content.ofHoldings
    fun source _ h => ∀ i : Fin n, i.val = source → h = (shares i).holdings where
  pack _ _ _ h := h
  unpack _ _ payload _ hallows hitems := by
    cases payload <;> cases hitems
    exact hallows

theorem carries_limited_requests : (answeringContract shares room).Carries Content.ofRequests
    fun _ _ r => ∀ t, r.query = .nearest t → t.k ≤ room where
  pack _ _ _ h := h
  unpack _ _ payload _ hallows hitems := by
    cases payload <;> cases hitems
    exact hallows

theorem carries_any_plain (kind : PlainKind) : (answeringContract shares room).Carries
    (Content.ofPlain kind) fun _ _ _ => True :=
  .anything fun _ _ _ => trivial

theorem carries_any_answers : (answeringContract shares room).Carries Content.ofAnswers
    fun _ _ _ => True :=
  .anything fun _ _ _ => trivial

theorem carries_any_announcements : (answeringContract shares room).Carries
    Content.ofAnnouncements fun _ _ _ => True :=
  .anything fun _ _ _ => trivial

/-! ### Calls -/

variable {shares room} {i : Fin n} {options : SearchOptions}

/-- What is joined is the whole. -/
theorem yields_build : (answeringContract shares room).Yields i (· = joint shares options i)
    SearchFault.Foreseen (build ⟨n, i⟩ (shares i).index options) := by
  have hgather := (carries_holdings_of shares room).ensures_gather ⟨n, i⟩
    (shares i).holdings fun _ j hj => congrArg (fun b => (shares b).holdings) (Fin.ext hj).symm
  refine (hgather.yields.adapt fun _ _ => nofun).bind fun holdings hall => yields_pure ?_
  have hholdings : holdings = List.ofFn fun b => (shares b).holdings := by
    refine List.ext_getElem (by simpa using hall.1) fun rank hrank _ => ?_
    rw [List.getElem_ofFn]
    exact hall.2 rank _ (List.getElem?_eq_getElem hrank) ⟨rank, hrank.trans_eq hall.1⟩ rfl
  rw [hholdings]
  rfl

variable [LawfulScalar α]

/-- An exchange of requests for which there is room does not fail between its halves, in whatever
parts the rank answers what arrives. -/
theorem yields_exchangeInParts {divide : List (Request α) → List (List (Request α))}
    (hdivide : ∀ incoming, (divide incoming).flatten = incoming)
    {requests : List (Nat × Request α)}
    (h : ∀ r ∈ requests, Sendable n options.neighborLimit r) :
    (answeringContract shares options.neighborLimit).Yields i (fun _ => True)
      SearchFault.Foreseen ((joint shares options i).exchangeInParts divide requests) := by
  refine ((ensures_negotiate (carries_any_plain _ _ _) ⟨n, i⟩ _).yields.adapt fun _ _ => nofun).bind
    fun forward hforward => ?_
  refine (((carries_limited_requests _ _).ensures_post hforward (fun r dest hr => ?_)
    fun _ _ => trivial).yields.adapt fun _ _ => nofun).bind fun incoming hincoming => ?_
  · rw [List.zip_map'] at hr
    obtain ⟨request, hmem, heq⟩ := List.mem_map.mp hr
    cases heq
    exact (h request hmem).k_le
  have hrespond : Request.respondInParts (joint shares options i).own i options.neighborLimit
      (divide incoming) =
        .ok (incoming.map (Request.answers (shares i) options.neighborLimit i)) :=
    Request.respondInParts_eq (shares i) i (hdivide incoming)
      fun r hr => forall_mem_of_forall₂ hincoming r hr
  change Contract.Yields _ _ _ _ (Search.ofIndex (Request.respondInParts (joint shares options i).own
    i options.neighborLimit (divide incoming)) >>= _)
  rw [hrespond, Search.ofIndex_ok_bind]
  refine ((ensures_negotiate (carries_any_plain _ _ _) ⟨n, i⟩ _).yields.adapt fun _ _ => nofun).bind
    fun backward hbackward => ?_
  refine (((carries_any_answers _ _).ensures_post hbackward (fun _ _ _ => trivial)
    fun _ _ => trivial).yields.adapt fun _ _ => nofun).mono fun _ _ => trivial

def queryInParts (x : PartitionedIndex α)
    (divide : (round : Nat) → List (Request α) → List (List (Request α)))
    (queries : List (Query α)) : Search α (HitTable α) :=
  x.queryBy (fun round => x.exchangeInParts (divide round)) queries

omit [LawfulScalar α] in
/-- What arrives can be left in one part. -/
theorem queryInParts_whole (x : PartitionedIndex α) (queries : List (Query α)) :
    x.queryInParts (fun _ incoming => [incoming]) queries = x.query queries := by
  rw [queryInParts, ← queryBy_exchange]
  congr 1
  funext round requests
  exact exchangeInParts_whole x requests

/-- A query fails for its batch, for those of the others or for a transfer, and for nothing else. -/
theorem yields_queryInParts {divide : (round : Nat) → List (Request α) → List (List (Request α))}
    (hdivide : ∀ round incoming, (divide round incoming).flatten = incoming)
    (queries : List (Query α)) :
    (answeringContract shares options.neighborLimit).Yields i (fun _ => True)
      SearchFault.Foreseen ((joint shares options i).queryInParts divide queries) := by
  have hchecked : (answeringContract shares options.neighborLimit).Yields i
      (fun kind => Batch.check options queries = .ok kind) SearchFault.Foreseen
      (Search.ofExcept (Batch.check options queries) : Search α _) :=
    yields_done (fun _ => id) fun _ => Batch.foreseen_of_check
  refine hchecked.bind fun kind hkind => ?_
  have hagreed : (answeringContract shares options.neighborLimit).Yields i (fun _ => True)
      SearchFault.Foreseen ((joint shares options i).agree kind) := by
    have hgather := (carries_any_announcements shares options.neighborLimit).ensures_gather
      ⟨n, i⟩ ⟨kind, options⟩ fun _ => trivial
    refine (hgather.yields.adapt fun _ _ => nofun).bind fun announcements _ => ?_
    exact yields_done (fun _ _ => trivial) fun _ => Batch.foreseen_of_agree
  refine hagreed.bind fun agreed _ => ?_
  cases agreed with
  | none => exact yields_pure trivial
  | some agreed =>
    exact yields_answerKindBy (fun _ => trivial)
      (fun round _ hsendable => yields_exchangeInParts (hdivide round) hsendable)
      (Batch.k_le_of_check hkind) agreed

/-! ### Groups -/

omit [LawfulScalar α] in
def putAll (x : PartitionedIndex α)
    (divide : (batch round : Nat) → List (Request α) → List (List (Request α))) :
    (number : Nat) → List (List (Query α)) →
      Program (Content α) (List (Except SearchFault (HitTable α)))
  | _, [] => return []
  | number, queries :: rest => do
    let found ← (x.queryInParts (divide number) queries).run
    return found :: (← putAll x divide (number + 1) rest)

/-- The group of ranks that join their indexes and then put batches to the whole. Every rank has
batches of its own and divides the requests that arrive in its own way. -/
def putting (shares : Fin n → Share α) (options : SearchOptions)
    (divide : Fin n → (batch round : Nat) → List (Request α) → List (List (Request α)))
    (batches : Fin n → List (List (Query α))) :
    Group n (Content α) (Except SearchFault (List (Except SearchFault (HitTable α)))) where
  programs := .ofFn fun i => ExceptT.run do
    let x ← build ⟨n, i⟩ (shares i).index options
    ExceptT.lift (x.putAll (divide i) 0 (batches i))
  mailboxes := .empty

theorem keeps_putAll
    {divide : (batch round : Nat) → List (Request α) → List (List (Request α))}
    (hdivide : ∀ batch round incoming, (divide batch round incoming).flatten = incoming)
    (number : Nat) (batches : List (List (Query α))) :
    (answeringContract shares options.neighborLimit).Keeps i
      (fun found => ∀ outcome ∈ found, ∀ fault, outcome = .error fault → fault.Foreseen)
      ((joint shares options i).putAll divide number batches) := by
  induction batches generalizing number with
  | nil => exact .done (List.forall_mem_nil _)
  | cons queries rest ih =>
    refine Keeps.bind (yields_queryInParts (hdivide number) queries) fun outcome houtcome => ?_
    refine (ih (number + 1)).bind fun found hfound => .done ?_
    exact List.forall_mem_cons.mpr ⟨houtcome.2, hfound⟩

/-- All ranks keep to the contract, and neither the join nor a query fails for an index. -/
theorem governs_putting (shares : Fin n → Share α) (options : SearchOptions)
    {divide : Fin n → (batch round : Nat) → List (Request α) → List (List (Request α))}
    (hdivide : ∀ b batch round incoming, (divide b batch round incoming).flatten = incoming)
    (batches : Fin n → List (List (Query α))) :
    (answeringContract shares options.neighborLimit).Governs
      (fun _ result => (∀ found, result = .ok found →
        ∀ outcome ∈ found, ∀ fault, outcome = .error fault → fault.Foreseen) ∧
          ∀ fault, result = .error fault → fault.Foreseen)
      (putting shares options divide batches) := by
  refine governs_start fun i => ?_
  refine yields_build.bind fun x hx => ?_
  subst hx
  exact (keeps_putAll (hdivide i) 0 (batches i)).yields_lift

/-- Whatever its boxes, and whatever is left in the scratch space, a rank answers a request that
leaves enough room as it does with fresh space. So ranks with the same options never fail to search
their own indexes for each other: in no order of the actions, however the ranks divide the requests
that arrive among their workers, and whatever becomes of the batches. -/
theorem responses_never_fail :
    (∀ (s : Share α) (rank : Nat) (r : Request α) (scratch : Scratch α),
      (∀ t, r.query = .nearest t → t.k ≤ scratch.queue.capacity) →
        ∃ answers, (r.respond s.index rank scratch).1 = .ok answers ∧
          (r.respond s.index rank ⟨.empty scratch.queue.capacity, []⟩).1 = .ok answers) ∧
    ∀ {n : Nat} (shares : Fin n → Share α) (options : SearchOptions)
      (divide : Fin n → (batch round : Nat) → List (Request α) → List (List (Request α))),
      (∀ b batch round incoming, (divide b batch round incoming).flatten = incoming) →
      ∀ (batches : Fin n → List (List (Query α))) (log : Fin n → List (Event (Content α))) g,
        Group.Recorded (putting shares options divide batches) log g →
        ∀ i result, g.programs.get i = .done result →
          (∀ cause, result ≠ .error (.index cause)) ∧
          ∀ found, result = .ok found → ∀ cause, .error (.index cause) ∉ found := by
  refine ⟨fun s rank r scratch hroom => ?_, ?_⟩
  · have hreplied := Request.replied_answers s rank hroom
    exact ⟨_, hreplied.respond scratch rfl, hreplied.respond _ rfl⟩
  · intro n shares options divide hdivide batches log g hrecorded i result hdone
    have hgoverns := (governs_putting shares options hdivide batches).recorded hrecorded
    obtain ⟨hok, herror⟩ := hgoverns.result hdone
    refine ⟨fun cause heq => herror _ heq cause rfl, fun found hfound cause hmem => ?_⟩
    exact hok found hfound _ hmem _ rfl cause rfl

/-- Batches that go together, for which there is room, are answered on all ranks. -/
theorem alwaysEnds_putting {batches : Fin n → List (Query α)}
    (h : Admitted shares (fun _ => options) batches)
    (hall : Compatible (fun _ => options) batches) : ∃ tables : Fin n → HitTable α,
      Group.AlwaysEnds (Group.Settled fun i => .ok [.ok (tables i)])
        (putting shares options (fun _ _ _ incoming => [incoming]) fun i => [batches i]) := by
  rcases passes_query h with ⟨hapart, -⟩ | ⟨-, rounds, -, tables, stages, htags, hquery⟩
  · exact absurd hall hapart
  · have hputs : Passes (queryTags rounds) (fun i => (ExceptT.lift ((joint shares options i).putAll
        (fun _ _ incoming => [incoming]) 0 [batches i]) : Search α _).run)
        fun i => .ok [.ok (tables i)] := by
      refine ⟨stages, htags, fun i => ?_⟩
      have hperf : Program.Performs (Stage.course stages i) ((joint shares options i).query
        (batches i)).run (.done (.ok (tables i))) := hquery i
      rw [← queryInParts_whole] at hperf
      exact (hperf.bind fun found => Program.done [found]).bind fun found =>
        Program.done (Except.ok found)
    obtain ⟨stages, -, hperf⟩ := (passes_build shares fun _ => options).bind
      (q := fun i x => ExceptT.lift (x.putAll (fun _ _ incoming => [incoming]) 0 [batches i])) hputs
    rw [putting, ← Group.of_none]
    exact ⟨tables, Group.alwaysEnds_of_performs hperf⟩

/-- Two ranks come to an end, each with a neighbor for the other. -/
theorem responses_never_fail_twoRanks :
    (∃ answers, ((⟨0, .nearest ⟨.origin, 1⟩, Scalar.infinity⟩ : Request Binary64).respond
      (twoRanks 0).index 0 NearestCall.usedSpace).1 = .ok answers) ∧
    ∃ log g, Group.Recorded (putting twoRanks {} (fun _ _ _ incoming => [incoming])
        fun i => [(nearOrigin i).map .nearest]) log g ∧
      ∀ i, ∃ found, g.programs.get i = .done (.ok found) ∧
        ∀ cause, .error (.index cause) ∉ found := by
  obtain ⟨hresponds, hnever⟩ := responses_never_fail (α := Binary64)
  constructor
  · obtain ⟨answers, hanswers, -⟩ := hresponds (twoRanks 0) 0
      ⟨0, .nearest ⟨.origin, 1⟩, Scalar.infinity⟩ NearestCall.usedSpace
      fun t ht => by cases ht; decide
    exact ⟨answers, hanswers⟩
  · have hadmitted : Admitted twoRanks (fun _ => {}) fun i => (nearOrigin i).map .nearest :=
      .of_hitBound (fun i => ⟨some .nearest, by revert i; decide⟩) (by decide) (by decide)
        (by decide)
    obtain ⟨tables, hends⟩ := alwaysEnds_putting hadmitted ⟨fun _ _ => rfl, by decide⟩
    obtain ⟨log, g, hrecorded, hdone, -⟩ := hends.exists_recorded .start
    refine ⟨log, g, hrecorded, fun i => ⟨_, hdone i, ?_⟩⟩
    exact (hnever twoRanks {} (fun _ _ _ incoming => [incoming])
      (fun _ _ _ incoming => List.append_nil incoming) _ log g hrecorded i _ (hdone i)).2 _ rfl

end PartitionedIndex

end SpatialSearch
