import SpatialSearch.Proofs.NearestQueries
import SpatialSearch.Proofs.SpatialQueries

/-!
# The protocol of a group

Calls that all ranks make in the same order, each with entries, options and batches of its own,
are safe whatever the boxes: the ranks go through the same stages, every message is taken in the
stage in which it was sent, no rank waits for ever, and nothing is left under way. Batches that go
together are answered in as many rounds on one rank as on another, and others are refused on all
ranks for the same reason.
-/

namespace SpatialSearch

namespace PartitionedIndex

variable {α : Type} [Scalar α] {n : Nat}

/-- Batches that every rank finds in order by itself. Entries and queries can be counted, and there
is room for all that the ranks can find. -/
structure Admitted (shares : Fin n → Share α) (options : Fin n → SearchOptions)
    (batches : Fin n → List (Query α)) : Prop where
  checked : ∀ i, ∃ kind, Batch.check (options i) (batches i) = .ok kind
  entries : ∑ b, (shares b).entries.length < UInt64.size
  queries : ∑ i, (batches i).length < Count.room
  hits : ∀ i, ((batches i).map fun q =>
    ∑ b, ((shares b).hitsOf (options i).neighborLimit q).length).sum < Count.room

/-- Batches that go together: the options are the same on all ranks and all queries are of one
kind. -/
structure Compatible (options : Fin n → SearchOptions) (batches : Fin n → List (Query α)) :
    Prop where
  options_eq : ∀ i j, options i = options j
  kind_eq : ∀ i j, ∀ p ∈ batches i, ∀ q ∈ batches j, p.kind = q.kind

omit [Scalar α] in
theorem map_nearestQueries {queries : List (Query α)} (h : ∀ q ∈ queries, q.kind = .nearest) :
    (nearestQueries queries).map .nearest = queries := by
  induction queries with
  | nil => rfl
  | cons q rest ih =>
    obtain ⟨hq, hrest⟩ := List.forall_mem_cons.mp h
    cases q with
    | nearest t => exact congrArg (Query.nearest t :: ·) (ih hrest)
    | overlapping _ => nomatch hq
    | touching _ => nomatch hq

variable [LawfulScalar α] {shares : Fin n → Share α} {options : SearchOptions}

/-- It is enough if there is room for what the ranks cannot exceed. -/
theorem Admitted.of_hitBound {options : Fin n → SearchOptions} {batches : Fin n → List (Query α)}
    (hchecked : ∀ i, ∃ kind, Batch.check (options i) (batches i) = .ok kind)
    (hentries : ∑ b, (shares b).entries.length < UInt64.size)
    (hqueries : ∑ i, (batches i).length < Count.room)
    (hbound : ∀ i, ((batches i).map fun q => ∑ b, q.hitBound (shares b)).sum < Count.room) :
    Admitted shares options batches where
  checked := hchecked
  entries := hentries
  queries := hqueries
  hits i := by
    obtain ⟨_, hcheck⟩ := hchecked i
    refine Nat.lt_of_le_of_lt (List.sum_le_sum fun q hq => Finset.sum_le_sum fun b _ => ?_)
      (hbound i)
    exact Share.length_hits_le fun t ht => Batch.k_le_of_check hcheck q hq t ht

theorem RoundsFit.of_admitted {targets : Fin n → List (NearestQuery α)}
    (hlimit : ∀ i, ∀ t ∈ targets i, t.k ≤ options.neighborLimit)
    (h : Admitted shares (fun _ => options) fun i => (targets i).map .nearest) :
    RoundsFit shares options targets := by
  have hqueries := h.queries
  simp only [List.length_map] at hqueries
  refine .of_bound hlimit hqueries
    (fun t b => ((shares b).hitsOf options.neighborLimit (.nearest t)).length)
    (fun t b r hr _ => ?_) fun i => ?_
  · exact hr ▸ (shares b).length_hits_le_hitsOf options.neighborLimit r
  · have := h.hits i
    rwa [List.map_map] at this

/-- What comes back for spatial queries fits into the room for all that they can bring. -/
theorem length_spatial_answers {batches : Fin n → List (Query α)}
    (h : Admitted shares (fun _ => options) batches) (i : Fin n) :
    ((spatialInquiry shares (batches i)).answers shares options.neighborLimit).length <
      Count.room := by
  refine Nat.lt_of_le_of_lt (Inquiry.length_answers_le _ shares _ fun q b =>
    (shares b).length_hits_le_hitsOf options.neighborLimit _) ?_
  exact (Fin.sum_univ_fun_getElem (batches i) fun q =>
    ∑ b, ((shares b).hitsOf options.neighborLimit q).length).trans_lt (h.hits i)

/-- Nearest queries take one round or two. -/
theorem passes_nearest {targets : Fin n → List (NearestQuery α)}
    (hk : ∀ i, ∀ t ∈ targets i, 0 < t.k ∧ t.k ≤ options.neighborLimit)
    (h : Admitted shares (fun _ => options) fun i => (targets i).map .nearest) :
    ∃ rounds ≤ 2, ∃ tables : Fin n → HitTable α,
      Passes (List.replicate rounds roundTags).flatten
        (fun i => ((joint shares options i).answerKind ((targets i).map .nearest) .nearest).run)
        fun i => .ok (tables i) := by
  have hfits : RoundsFit shares options targets :=
    .of_admitted (fun i t ht => (hk i t ht).2) h
  have hmethod : ∀ i, (joint shares options i).options.method = options.method := fun _ => rfl
  simp only [answerKind, nearestQueries_map, hmethod]
  cases options.method with
  | refining =>
    choose asked hnodup hasked using fun i => exists_askedFirst shares options i (targets i)
    choose tables htables _ _ using fun i => tabulate_rowsOf
      (refinedRows shares options.neighborLimit (targets i) (asked i))
    exact ⟨2, Nat.le_refl 2, tables,
      passes_refine hfits (fun i t ht => (hk i t ht).1) hnodup hasked htables⟩
  | enclosing =>
    choose found hfound using fun i (q : Fin (targets i).length) =>
      Roster.coveringRadius_succeeds shares (targets i)[q].target (targets i)[q].k h.entries
    let limit : (i : Fin n) → Fin (targets i).length → α :=
      fun i q => (found i q).getD Scalar.infinity
    choose tables htables _ _ using fun i => tabulate_rowsOf
      (enclosedRows shares options.neighborLimit (targets i) (limit i))
    exact ⟨1, Nat.le_succ 1, tables,
      passes_enclose hfits (fun i q => congrArg (Except.map _) (hfound i q)) htables⟩

/-- Batches of a kind take one round or two. -/
theorem passes_answerKind {kind : QueryKind} {batches : Fin n → List (Query α)}
    (hvalid : ∀ i, ∀ q ∈ batches i, Batch.Valid options kind q)
    (h : Admitted shares (fun _ => options) batches) :
    ∃ rounds ≤ 2, ∃ tables : Fin n → HitTable α,
      Passes (List.replicate rounds roundTags).flatten
        (fun i => ((joint shares options i).answerKind (batches i) kind).run)
        fun i => .ok (tables i) := by
  by_cases hkind : kind = .nearest
  · subst hkind
    obtain ⟨targets, rfl⟩ : ∃ targets : Fin n → List (NearestQuery α),
        batches = fun i => (targets i).map .nearest :=
      ⟨fun i => nearestQueries (batches i),
        funext fun i => (map_nearestQueries fun q hq => (hvalid i q hq).1).symm⟩
    exact passes_nearest (fun i t ht => (hvalid i _ (List.mem_map_of_mem ht)).bounds) h
  · have hspatial : ∀ i, ∀ q ∈ batches i, q.isSpatial = true := by
      intro i q hq
      rw [Query.isSpatial, (hvalid i q hq).1]
      exact bne_iff_ne.mpr hkind
    obtain ⟨tables, hpasses, -⟩ :=
      passes_answerSpatial hspatial h.queries (length_spatial_answers h)
    refine ⟨1, Nat.le_succ 1, tables, ?_⟩
    cases kind with
    | nearest => exact absurd rfl hkind
    | overlapping => exact hpasses
    | touching => exact hpasses

def queryTags (rounds : Nat) : List Tag := .gather :: (List.replicate rounds roundTags).flatten

omit [Scalar α] [LawfulScalar α] in
theorem exists_options {options : Fin n → SearchOptions} (h : ∀ i j, options i = options j) :
    ∃ common, options = fun _ => common := by
  cases n with
  | zero => exact ⟨{}, funext fun i => i.elim0⟩
  | succ n => exact ⟨options 0, funext fun i => h i 0⟩

omit [Scalar α] [LawfulScalar α] in
theorem Compatible.exists_kind {options : Fin n → SearchOptions}
    {batches : Fin n → List (Query α)} (h : Compatible options batches) :
    ∃ kind, ∀ i, ∀ q ∈ batches i, q.kind = kind := by
  by_cases hsome : ∃ i q, q ∈ batches i
  · obtain ⟨i, q, hq⟩ := hsome
    exact ⟨q.kind, fun j p hp => h.kind_eq j i p hp q hq⟩
  · exact ⟨.nearest, fun i q hq => absurd ⟨i, q, hq⟩ hsome⟩

omit [LawfulScalar α] in
/-- Ranks agree on batches that go together, and on no others. -/
theorem agree_iff {options : Fin n → SearchOptions} {batches : Fin n → List (Query α)}
    {kinds : Fin n → Option QueryKind}
    (hkinds : ∀ i, Batch.check (options i) (batches i) = .ok (kinds i)) :
    Compatible options batches ↔
      ∃ agreed, Batch.agree (List.ofFn fun i => ⟨kinds i, options i⟩) = .ok agreed := by
  constructor
  · intro h
    obtain ⟨kind, hkind⟩ := h.exists_kind
    obtain ⟨common, rfl⟩ := exists_options h.options_eq
    have hannounced : ∀ a ∈ List.ofFn fun i => (⟨kinds i, common⟩ : Announcement),
        a.options = common ∧ (a.kind = none ∨ a.kind = some kind) := by
      intro a ha
      obtain ⟨i, rfl⟩ := List.mem_ofFn.mp ha
      refine ⟨rfl, ?_⟩
      rw [Batch.kind_of_check (hkinds i)]
      cases hbatch : batches i with
      | nil => exact Or.inl rfl
      | cons q rest =>
        exact Or.inr (congrArg some (hkind i q (hbatch ▸ List.mem_cons_self)))
    rcases Batch.agree_eq common kind _ (fun a ha => (hannounced a ha).1)
      fun a ha => (hannounced a ha).2 with ⟨hagree, -⟩ | ⟨hagree, -⟩
    · exact ⟨_, hagree⟩
    · exact ⟨_, hagree⟩
  · rintro ⟨agreed, hagree⟩
    obtain ⟨hoptions, hkind⟩ := Batch.same_of_agree hagree
    have hof : ∀ i, ∀ q ∈ batches i, agreed = some q.kind := by
      intro i q hq
      exact hkind _ (List.mem_ofFn.mpr ⟨i, rfl⟩) q.kind (Batch.kind_of_mem_checked (hkinds i) hq)
    constructor
    · intro i j
      exact hoptions _ (List.mem_ofFn.mpr ⟨i, rfl⟩) _ (List.mem_ofFn.mpr ⟨j, rfl⟩)
    · intro i j p hp q hq
      exact Option.some.inj ((hof i p hp).symm.trans (hof j q hq))

/-- A query that all ranks find in order takes the same number of rounds on all of them if their
batches go together, and else all of them refuse it for the same reason. -/
theorem passes_query {options : Fin n → SearchOptions} {batches : Fin n → List (Query α)}
    (h : Admitted shares options batches) :
    (¬ Compatible options batches ∧ ∃ fault, Passes [.gather]
      (fun i => ((joint shares (options i) i).query (batches i)).run)
      fun _ => .error (.batch fault)) ∨
    Compatible options batches ∧ ∃ rounds ≤ 2, ∃ tables : Fin n → HitTable α,
      Passes (queryTags rounds)
        (fun i => ((joint shares (options i) i).query (batches i)).run)
        fun i => .ok (tables i) := by
  choose kinds hkinds using h.checked
  have hcheck : ∀ i, Batch.check (joint shares (options i) i).options (batches i) =
      .ok (kinds i) := hkinds
  have hagree := passes_agree shares options kinds
  have hcompatible := agree_iff hkinds
  simp only [query, hcheck, Search.ofExcept_ok_bind]
  cases hresult : Batch.agree (List.ofFn fun i => ⟨kinds i, options i⟩) with
  | error cause =>
    rw [hresult] at hagree hcompatible
    obtain ⟨fault, rfl⟩ := Batch.fault_of_agree hresult
    refine Or.inl ⟨fun hall => ?_, fault, hagree.fails _⟩
    obtain ⟨_, hok⟩ := hcompatible.mp hall
    cases hok
  | ok agreed =>
    rw [hresult] at hagree hcompatible
    have hall := hcompatible.mpr ⟨agreed, rfl⟩
    obtain ⟨options, rfl⟩ : ∃ common, options = fun _ => common :=
      exists_options hall.options_eq
    refine Or.inr ⟨hall, ?_⟩
    cases agreed with
    | none => exact ⟨0, Nat.zero_le 2, _, hagree.bind (Passes.done _)⟩
    | some kind =>
      have hvalid : ∀ i, ∀ q ∈ batches i, Batch.Valid options kind q := by
        intro i q hq
        obtain ⟨own, hi, hown⟩ := Batch.valid_of_check (hkinds i) q hq
        have hsome := (Batch.same_of_agree hresult).2 _ (List.mem_ofFn.mpr ⟨i, rfl⟩) own hi
        exact Option.some.inj hsome ▸ hown
      obtain ⟨rounds, hrounds, tables, hpasses⟩ := passes_answerKind hvalid h
      refine ⟨rounds, hrounds, tables, hagree.bind ?_⟩
      cases kind <;> exact hpasses

end PartitionedIndex

/-- What all ranks join to one partitioned index. -/
structure Joined (n : Nat) (α : Type) where
  shares : Fin n → Share α
  options : Fin n → SearchOptions

abbrev CallResult (α : Type) := Except SearchFault (Option (HitTable α))

/-- Calls that all ranks make in the same order, each with arguments of its own, when so many
indexes have been joined before. -/
inductive Calls (n : Nat) (α : Type) : (held : Nat) → Type where
  | done {held : Nat} : Calls n α held
  | join {held : Nat} (joined : Joined n α) (rest : Calls n α (held + 1)) : Calls n α held
  /-- Put batches to one of the indexes, of which the last one joined has the number zero. -/
  | query {held : Nat} (index : Fin held) (batches : Fin n → List (Query α))
      (rest : Calls n α held) : Calls n α held

/-- How a call goes: the stages that all ranks go through and what each of them gets. -/
structure Course (n : Nat) (α : Type) where
  stages : List (Stage n (Content α))
  result : Fin n → CallResult α

namespace Course

variable {n : Nat} {α : Type} (c : Course n α)

def tags : List Tag := c.stages.map (·.tag)

def Joins : Prop := c.tags = [.gather] ∧ ∀ i, c.result i = .ok none

/-- All ranks refuse their batches for the same reason. -/
def Refuses : Prop := c.tags = [.gather] ∧ ∃ fault, ∀ i, c.result i = .error (.batch fault)

/-- All ranks take the same number of rounds and get their tables. -/
def Answers : Prop :=
  ∃ rounds ≤ 2, c.tags = PartitionedIndex.queryTags rounds ∧
    ∀ i, ∃ table, c.result i = .ok (some table)

/-- A query is answered if its batches go together, and else refused. -/
def Goes (together : Prop) : Prop := together ∧ c.Answers ∨ ¬ together ∧ c.Refuses

end Course

namespace Joined

variable {n : Nat} {α : Type} [Scalar α]

def onRank (joined : Joined n α) (i : Fin n) : PartitionedIndex α :=
  .joint joined.shares (joined.options i) i

theorem onRank_cons {held : Nat} (joined : Joined n α) (indexes : Fin held → Joined n α)
    (i : Fin n) : (fun index : Fin (held + 1) =>
        ((Fin.cons joined indexes : Fin (held + 1) → Joined n α) index).onRank i) =
      Fin.cons (joined.onRank i) fun index => (indexes index).onRank i := by
  funext index
  cases index using Fin.cases <;> rfl

end Joined

namespace Calls

variable {n : Nat} {α : Type} [Scalar α]

/-- What a rank does to carry out calls, with the indexes it holds. A call that fails is noted
and the next one follows, but without an index to hold a rank stops. -/
def carryOut (i : Fin n) : {held : Nat} → (Fin held → PartitionedIndex α) → Calls n α held →
    Program (Content α) (List (CallResult α))
  | _, _, .done => return []
  | _, indexes, .join joined rest => do
    match ← (PartitionedIndex.build ⟨n, i⟩ (joined.shares i).index (joined.options i)).run with
    | .ok x => return .ok none :: (← rest.carryOut i (Fin.cons x indexes))
    | .error fault => return [.error fault]
  | _, indexes, .query index batches rest => do
    let found ← ((indexes index).query (batches i)).run
    return found.map some :: (← rest.carryOut i indexes)

def group (calls : Calls n α 0) : Group n (Content α) (List (CallResult α)) where
  programs := .ofFn fun i => calls.carryOut i Fin.elim0
  mailboxes := .empty

def Admissible : {held : Nat} → (Fin held → Joined n α) → Calls n α held → Prop
  | _, _, .done => True
  | _, indexes, .join joined rest => rest.Admissible (Fin.cons joined indexes)
  | _, indexes, .query index batches rest =>
    PartitionedIndex.Admitted (indexes index).shares (indexes index).options batches ∧
      rest.Admissible indexes

/-- Every call goes as it should: an index is joined, batches that go together are answered, and
others are refused. -/
inductive Regular : {held : Nat} → (Fin held → Joined n α) → Calls n α held →
    List (Course n α) → Prop where
  | done {held : Nat} (indexes : Fin held → Joined n α) : Regular indexes .done []
  | join {held : Nat} {indexes : Fin held → Joined n α} (joined : Joined n α)
      {rest : Calls n α (held + 1)} {c : Course n α} {later : List (Course n α)} (h : c.Joins)
      (hrest : Regular (Fin.cons joined indexes) rest later) :
      Regular indexes (.join joined rest) (c :: later)
  | query {held : Nat} {indexes : Fin held → Joined n α} (index : Fin held)
      (batches : Fin n → List (Query α)) {rest : Calls n α held} {c : Course n α}
      {later : List (Course n α)}
      (h : c.Goes (PartitionedIndex.Compatible (indexes index).options batches))
      (hrest : Regular indexes rest later) :
      Regular indexes (.query index batches rest) (c :: later)

theorem exists_join (joined : Joined n α) : ∃ c : Course n α, c.Joins ∧
    ∀ i, Program.Performs (Stage.course c.stages i)
      (PartitionedIndex.build ⟨n, i⟩ (joined.shares i).index (joined.options i)).run
        (.done (.ok (joined.onRank i))) := by
  obtain ⟨stages, htags, hperf⟩ := PartitionedIndex.passes_build joined.shares joined.options
  exact ⟨⟨stages, fun _ => .ok none⟩, ⟨htags, fun _ => rfl⟩, hperf⟩

variable [LawfulScalar α]

theorem exists_query (joined : Joined n α) {batches : Fin n → List (Query α)}
    (h : PartitionedIndex.Admitted joined.shares joined.options batches) :
    ∃ c : Course n α, c.Goes (PartitionedIndex.Compatible joined.options batches) ∧
      ∃ found : Fin n → Except SearchFault (HitTable α),
      (∀ i, (found i).map some = c.result i) ∧
      ∀ i, Program.Performs (Stage.course c.stages i) ((joined.onRank i).query (batches i)).run
        (.done (found i)) := by
  rcases PartitionedIndex.passes_query h with
    ⟨hapart, fault, stages, htags, hperf⟩ |
      ⟨hall, rounds, hrounds, tables, stages, htags, hperf⟩
  · exact ⟨⟨stages, fun _ => .error (.batch fault)⟩,
      Or.inr ⟨hapart, htags, fault, fun _ => rfl⟩, _, fun _ => rfl, hperf⟩
  · exact ⟨⟨stages, fun i => .ok (some (tables i))⟩,
      Or.inl ⟨hall, rounds, hrounds, htags, fun i => ⟨tables i, rfl⟩⟩, _, fun _ => rfl, hperf⟩

/-- All ranks go through the stages of the calls, one call after the other. -/
theorem exists_courses {held : Nat} (calls : Calls n α held) (indexes : Fin held → Joined n α)
    (h : calls.Admissible indexes) : ∃ courses : List (Course n α), calls.Regular indexes courses ∧
      ∀ i, Program.Performs (Stage.course (courses.flatMap (·.stages)) i)
        (calls.carryOut i fun index => (indexes index).onRank i)
        (.done (courses.map (·.result i))) := by
  induction calls with
  | done => exact ⟨[], .done indexes, fun _ => .nil _⟩
  | join joined rest ih =>
    obtain ⟨c, hc, hfirst⟩ := exists_join joined
    obtain ⟨later, hregular, hlater⟩ := ih (Fin.cons joined indexes) h
    simp only [Joined.onRank_cons] at hlater
    refine ⟨c :: later, .join joined hc hregular, fun i => ?_⟩
    rw [List.flatMap_cons, Stage.course_append, carryOut, List.map_cons, hc.2 i]
    refine (hfirst i).andThen ?_
    have hall := (hlater i).bind fun results => Program.done (.ok none :: results)
    exact hall
  | query index batches rest ih =>
    obtain ⟨hadmitted, hrest⟩ := h
    obtain ⟨c, hc, found, hfound, hfirst⟩ := exists_query (indexes index) hadmitted
    obtain ⟨later, hregular, hlater⟩ := ih indexes hrest
    refine ⟨c :: later, .query index batches hc hregular, fun i => ?_⟩
    rw [List.flatMap_cons, Stage.course_append, carryOut, List.map_cons, ← hfound i]
    refine (hfirst i).andThen ?_
    have hall := (hlater i).bind fun results => Program.done ((found i).map some :: results)
    exact hall

omit [LawfulScalar α] in
theorem group_eq (calls : Calls n α 0) :
    calls.group = Group.of (fun i => calls.carryOut i Fin.elim0) .none :=
  (Group.of_none _).symm

/-- Calls of all ranks in the same order, with any boxes, end in every order of actions, with
tables or one common refusal for each query and nothing left under way, and until then the ranks
are in step. -/
theorem safe_on_every_run (calls : Calls n α 0) (h : calls.Admissible Fin.elim0) :
    ∃ courses : List (Course n α), calls.Regular Fin.elim0 courses ∧
      (∀ log g, Group.Recorded calls.group log g →
        Group.InStep (courses.flatMap (·.stages)) log g) ∧
      Group.AlwaysEnds (Group.Settled fun i => courses.map (·.result i)) calls.group := by
  obtain ⟨courses, hregular, hperf⟩ := calls.exists_courses Fin.elim0 h
  have hnone : ∀ i, (fun index : Fin 0 => (Fin.elim0 index : Joined n α).onRank i) = Fin.elim0 :=
    fun _ => funext fun index => index.elim0
  simp only [hnone] at hperf
  refine ⟨courses, hregular, fun log g hrecorded => ?_, ?_⟩
  · rw [group_eq] at hrecorded
    exact hrecorded.inStep hperf
  · rw [group_eq]
    exact Group.alwaysEnds_of_performs hperf

/-- Two ranks join an index, put nearest queries to it, and then batches of different kinds. -/
def twoRankCalls : Calls 2 Binary64 0 :=
  .join ⟨PartitionedIndex.twoRanks, fun _ => {}⟩ <|
  .query (Fin.last 0) (fun i => (PartitionedIndex.nearOrigin i).map .nearest) <|
  .query (Fin.last 0) (fun i =>
    if i.val = 0 then [.nearest ⟨.origin, 1⟩] else [.overlapping (.ofPoint .origin)]) .done

theorem safe_on_every_run_twoRanks : ∃ courses : List (Course 2 Binary64),
    twoRankCalls.Regular Fin.elim0 courses ∧
      (∀ log g, Group.Recorded twoRankCalls.group log g →
        Group.InStep (courses.flatMap (·.stages)) log g) ∧
      Group.AlwaysEnds (Group.Settled fun i => courses.map (·.result i)) twoRankCalls.group := by
  have hadmissible : twoRankCalls.Admissible Fin.elim0 := by
    refine ⟨.of_hitBound (fun i => ⟨some .nearest, ?_⟩) (by decide) (by decide) (by decide),
      .of_hitBound (fun i => ⟨some (if i.val = 0 then .nearest else .overlapping), ?_⟩) (by decide)
        (by decide) (by decide), trivial⟩
    · revert i
      decide
    · revert i
      decide
  exact twoRankCalls.safe_on_every_run hadmissible

end Calls

end SpatialSearch
