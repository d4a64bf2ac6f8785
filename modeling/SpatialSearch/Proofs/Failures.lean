import SpatialSearch.Proofs.Exchanges
import SpatialSearch.Proofs.NearestQueries
import SpatialSearch.Proofs.QueryTables

/-!
# How queries fail

What a query does between its exchanges cannot fail: the roster finds the ranks for every query,
whatever the boxes, and the answers are put in a table unless the rank gives up. So a batch that has
been agreed upon fails only as its exchanges do. `Contract.Yields` extends what a contract says of
the results of a program to its failures.
-/

namespace SpatialSearch

namespace Contract

variable {π β γ ε ε' : Type} {c : Contract π} {rank : Nat} {P : β → Prop} {Q : γ → Prop}
  {E : ε → Prop}

/-- A program that keeps to a contract, of which all results have one property and all failures
another. -/
def Yields (c : Contract π) (rank : Nat) (P : β → Prop) (E : ε → Prop)
    (x : ExceptT ε (Program π) β) : Prop :=
  c.Keeps rank (fun outcome => (∀ a, outcome = .ok a → P a) ∧ ∀ e, outcome = .error e → E e) x.run

theorem yields_done {outcome : Except ε β} (hok : ∀ a, outcome = .ok a → P a)
    (herror : ∀ e, outcome = .error e → E e) : c.Yields rank P E (.mk (.done outcome)) :=
  .done ⟨hok, herror⟩

theorem yields_pure {a : β} (h : P a) : c.Yields rank P E (pure a : ExceptT ε (Program π) β) :=
  yields_done (fun _ heq => Except.ok.inj heq ▸ h) nofun

theorem Yields.bind {x : ExceptT ε (Program π) β} {f : β → ExceptT ε (Program π) γ}
    (hx : c.Yields rank P E x) (hf : ∀ a, P a → c.Yields rank Q E (f a)) :
    c.Yields rank Q E (x >>= f) := by
  rw [Yields, run_bind]
  refine Keeps.bind hx fun outcome houtcome => ?_
  cases outcome with
  | ok a => exact hf a (houtcome.1 a rfl)
  | error e => exact .done ⟨nofun, fun _ heq => Except.error.inj heq ▸ houtcome.2 e rfl⟩

theorem Yields.mono {P' : β → Prop} {x : ExceptT ε (Program π) β} (hx : c.Yields rank P E x)
    (h : ∀ a, P a → P' a) : c.Yields rank P' E x := by
  have hbind := hx.bind (f := pure) fun a ha => yields_pure (h a ha)
  rwa [bind_pure] at hbind

/-- The failures of a part become those of the whole. -/
theorem Yields.adapt {x : ExceptT ε (Program π) β} (hx : c.Yields rank P E x) {f : ε → ε'}
    {E' : ε' → Prop} (hf : ∀ e, E e → E' (f e)) : c.Yields rank P E' (x.adapt f) := by
  refine Keeps.bind hx fun outcome houtcome => ?_
  cases outcome with
  | ok a => exact yields_pure (houtcome.1 a rfl)
  | error e => exact .done ⟨nofun, fun _ heq => Except.error.inj heq ▸ hf e (houtcome.2 e rfl)⟩

/-- A program that cannot fail, among those that can. -/
theorem Keeps.yields_lift {p : Program π β} (hp : c.Keeps rank P p) :
    c.Yields rank P E (ExceptT.lift p : ExceptT ε (Program π) β) :=
  Keeps.bind hp fun _ ha => yields_pure ha

/-- What a contract says of the results alone leaves the failures open. -/
theorem Ensures.yields {x : ExceptT ε (Program π) β} (hx : c.Ensures rank P x) :
    c.Yields rank P (fun _ => True) x := by
  rw [Yields, ← Program.bind_done x.run]
  exact Keeps.bind hx fun outcome houtcome => .done ⟨houtcome, fun _ _ => trivial⟩

end Contract

namespace PartitionedIndex

open Contract

variable {α : Type} [Scalar α]

/-! ### Queries with exchanges of any kind -/

section Parametric

variable (x : PartitionedIndex α)
  (exchange : (round : Nat) → List (Nat × Request α) → Search α (List (Answer α)))

def refineBy (queries : List (NearestQuery α)) : Search α (HitTable α) := do
  let asked ← Search.ofIndex (x.askedFirst queries)
  let requests ← Search.ofIndex (requestsFrom firstRequests 0 (queries.zip asked))
  let found ← deal queries.length (← exchange 0 requests)
  let found := bestOfEach queries found
  let requests ← Search.ofIndex <|
    requestsFrom x.secondRequests 0 (queries.zip (asked.zip found))
  let more ← deal queries.length (← exchange 1 requests)
  let found := bestOfEach queries (found.zipWith (· ++ ·) more)
  tabulate queries.length found.flatten true

def encloseBy (queries : List (NearestQuery α)) : Search α (HitTable α) := do
  let limits ← Search.ofCount (x.coveringLimits queries)
  let requests ← Search.ofIndex (requestsFrom x.coveringRequests 0 (queries.zip limits))
  let found ← deal queries.length (← exchange 0 requests)
  tabulate queries.length (bestOfEach queries found).flatten true

def answerSpatialBy (queries : List (Query α)) : Search α (HitTable α) := do
  let requests ← Search.ofIndex (requestsFrom x.spatialRequests 0 queries)
  let answers ← exchange 0 requests
  tabulate queries.length (answers.mergeSort (·.number ≤ ·.number)) false

def answerKindBy (queries : List (Query α)) : QueryKind → Search α (HitTable α)
  | .nearest =>
    match x.options.method with
    | .refining => x.refineBy exchange (nearestQueries queries)
    | .enclosing => x.encloseBy exchange (nearestQueries queries)
  | _ => x.answerSpatialBy exchange queries

def queryBy (queries : List (Query α)) : Search α (HitTable α) := do
  let kind ← Search.ofExcept (Batch.check x.options queries)
  match ← x.agree kind with
  | none => return .empty queries.length false
  | some kind => x.answerKindBy exchange queries kind

theorem queryBy_exchange (queries : List (Query α)) :
    x.queryBy (fun _ => x.exchange) queries = x.query queries := by
  unfold queryBy query
  congr 1
  funext kind
  congr 1
  funext agreed
  cases agreed with
  | none => rfl
  | some kind => cases kind <;> rfl

end Parametric

/-! ### Requests -/

/-- Something to send to a rank that can answer it with room for so many neighbors. -/
structure Sendable (size room : Nat) (r : Nat × Request α) : Prop where
  dest_lt : r.1 < size
  k_le : ∀ t, r.2.query = .nearest t → t.k ≤ room

omit [Scalar α] in
theorem requestsFrom_succeeds {β : Type} {P : Nat × Request α → Prop}
    {f : Nat → β → Except IndexFault (List (Nat × Request α))} {items : List β}
    (h : ∀ item ∈ items, ∀ number, ∃ requests, f number item = .ok requests ∧ ∀ r ∈ requests, P r)
    (number : Nat) :
    ∃ requests, requestsFrom f number items = .ok requests ∧ ∀ r ∈ requests, P r := by
  induction items generalizing number with
  | nil => exact ⟨[], rfl, List.forall_mem_nil _⟩
  | cons item rest ih =>
    obtain ⟨hitem, hrest⟩ := List.forall_mem_cons.mp h
    obtain ⟨first, hfirst, hfirstAll⟩ := hitem number
    obtain ⟨others, hothers, hothersAll⟩ := ih hrest (number + 1)
    refine ⟨first ++ others, ?_, List.forall_mem_append.mpr ⟨hfirstAll, hothersAll⟩⟩
    rw [requestsFrom, hfirst, hothers]
    rfl

variable {n room : Nat}

omit [Scalar α] in
theorem sendable_asks {number : Nat} {t : NearestQuery α} {limit : α} {ranks : List Nat}
    (hranks : ∀ rank ∈ ranks, rank < n) (hk : t.k ≤ room) :
    ∀ r ∈ ranks.map (ask number t limit), Sendable n room r := by
  intro r hr
  obtain ⟨rank, hrank, rfl⟩ := List.mem_map.mp hr
  refine ⟨hranks rank hrank, fun t' ht' => ?_⟩
  cases ht'
  exact hk

omit [Scalar α] in
theorem lt_of_mem_map_val {ranks : List (Fin n)} : ∀ rank ∈ ranks.map Fin.val, rank < n := by
  intro rank hrank
  obtain ⟨b, -, rfl⟩ := List.mem_map.mp hrank
  exact b.isLt

variable [LawfulScalar α] (shares : Fin n → Share α) (options : SearchOptions) (i : Fin n)

theorem spatialRequests_succeeds {queries : List (Query α)}
    (hk : ∀ q ∈ queries, ∀ t, q = .nearest t → t.k ≤ room) :
    ∃ requests, requestsFrom (joint shares options i).spatialRequests 0 queries = .ok requests ∧
      ∀ r ∈ requests, Sendable n room r := by
  refine requestsFrom_succeeds (fun q hq number => ?_) 0
  have hranks : ∃ ranks : List Nat, (Roster.joint shares).ranksFor q = .ok ranks ∧
      ∀ rank ∈ ranks, rank < n := by
    rw [Roster.ranksFor.eq_def]
    split
    · refine ⟨_, rfl, ?_⟩
      rw [Roster.joint, Roster.ofHoldings, Roster.searchable_joint, List.map_map]
      exact lt_of_mem_map_val
    · rename_i hnearest
      have hspatial : q.isSpatial = true := by
        refine q.spatial_or_nearest.resolve_right ?_
        rintro ⟨t, ht⟩
        exact hnearest t ht
      exact ⟨_, Roster.ranksMatching_joint shares hspatial, lt_of_mem_map_val⟩
  obtain ⟨ranks, hok, hlt⟩ := hranks
  refine ⟨_, congrArg (Except.map _) hok, fun r hr => ?_⟩
  obtain ⟨rank, hrank, rfl⟩ := List.mem_map.mp hr
  exact ⟨hlt rank hrank, hk q hq⟩

theorem firstRequests_succeeds {targets : List (NearestQuery α)}
    (hk : ∀ t ∈ targets, t.k ≤ room) :
    ∃ asked, (joint shares options i).askedFirst targets = .ok asked ∧
      ∃ requests, requestsFrom firstRequests 0 (targets.zip asked) = .ok requests ∧
        ∀ r ∈ requests, Sendable n room r := by
  obtain ⟨asked, -, hasked⟩ := exists_askedFirst shares options i targets
  refine ⟨_, hasked, requestsFrom_succeeds (fun item hitem number => ?_) 0⟩
  obtain ⟨t, ranks⟩ := item
  obtain ⟨ht, hranks⟩ := List.of_mem_zip hitem
  obtain ⟨q, -, rfl⟩ := List.mem_map.mp hranks
  exact ⟨_, rfl, sendable_asks lt_of_mem_map_val (hk t ht)⟩

theorem secondRequests_succeeds {targets : List (NearestQuery α)}
    (hk : ∀ t ∈ targets, t.k ≤ room) (rows : List (List Nat × List (Answer α))) :
    ∃ requests, requestsFrom (joint shares options i).secondRequests 0 (targets.zip rows) =
      .ok requests ∧ ∀ r ∈ requests, Sendable n room r := by
  refine requestsFrom_succeeds (fun item hitem number => ?_) 0
  obtain ⟨t, asked, found⟩ := item
  rw [secondRequests]
  refine ⟨_, congrArg (Except.map _) (ranksNear_joint shares _ _), ?_⟩
  refine sendable_asks (fun rank hrank => ?_) (hk t (List.of_mem_zip hitem).1)
  exact lt_of_mem_map_val rank (List.mem_filter.mp hrank).1

theorem coveringRequests_succeeds {targets : List (NearestQuery α)}
    (hk : ∀ t ∈ targets, t.k ≤ room) (limits : List α) :
    ∃ requests, requestsFrom (joint shares options i).coveringRequests 0 (targets.zip limits) =
      .ok requests ∧ ∀ r ∈ requests, Sendable n room r := by
  refine requestsFrom_succeeds (fun item hitem number => ?_) 0
  obtain ⟨t, limit⟩ := item
  exact ⟨_, congrArg (Except.map _) (ranksNear_joint shares _ _),
    sendable_asks lt_of_mem_map_val (hk t (List.of_mem_zip hitem).1)⟩

/-! ### Rounds -/

section Rounds

variable {shares options i} {c : Contract (Content α)} {rank : Nat} {E : SearchFault → Prop}
  (hexcuses : ∀ cause, c.excuses cause)

include hexcuses

omit [Scalar α] [LawfulScalar α] in
theorem yields_abort {β : Type} {P : β → Prop} (cause : Abort) :
    c.Yields rank P E (Search.abort cause : Search α β) :=
  .leave (.gaveUp (hexcuses cause))

omit [Scalar α] [LawfulScalar α] in
theorem yields_ofCount {β : Type} (result : Except Abort β) :
    c.Yields rank (fun _ => True) E (Search.ofCount result : Search α β) := by
  cases result with
  | ok a => exact yields_pure trivial
  | error cause => exact yields_abort hexcuses cause

omit [Scalar α] [LawfulScalar α] in
theorem yields_deal (queries : Nat) (answers : List (Answer α)) :
    c.Yields rank (fun _ => True) E (deal queries answers) := by
  have hnumbers : c.Yields rank (fun _ => True) E (checkNumbers queries answers) := by
    rw [checkNumbers]
    split
    · exact yields_abort hexcuses _
    · exact yields_pure trivial
  exact hnumbers.bind fun _ _ => yields_pure trivial

omit [LawfulScalar α] in
theorem yields_tabulate (queries : Nat) (answers : List (Answer α)) (measured : Bool) :
    c.Yields rank (fun _ => True) E (tabulate queries answers measured) := by
  have hits : ∀ hits : List (Nat × Hit α), c.Yields rank (fun _ => True) E
      (if HitTable.inOrder queries 0 hits then pure (.ofHits queries hits measured)
        else Search.abort .outOfOrder : Search α (HitTable α)) := by
    intro hits
    split
    · exact yields_pure trivial
    · exact yields_abort hexcuses _
  exact hits _

variable {exchange : Nat → List (Nat × Request α) → Search α (List (Answer α))}
  (hexchange : ∀ round requests, (∀ r ∈ requests, Sendable n room r) →
    c.Yields rank (fun _ => True) E (exchange round requests))

include hexchange

theorem yields_refineBy {targets : List (NearestQuery α)} (hk : ∀ t ∈ targets, t.k ≤ room) :
    c.Yields rank (fun _ => True) E ((joint shares options i).refineBy exchange targets) := by
  obtain ⟨asked, hasked, requests, hrequests, hsendable⟩ :=
    firstRequests_succeeds shares options i hk
  rw [refineBy, hasked, Search.ofIndex_ok_bind, hrequests, Search.ofIndex_ok_bind]
  refine (hexchange 0 requests hsendable).bind fun answers _ => ?_
  refine (yields_deal hexcuses _ answers).bind fun found _ => ?_
  obtain ⟨requests, hrequests, hsendable⟩ := secondRequests_succeeds shares options i hk
    (asked.zip (bestOfEach targets found))
  dsimp only
  rw [hrequests, Search.ofIndex_ok_bind]
  refine (hexchange 1 requests hsendable).bind fun answers _ => ?_
  refine (yields_deal hexcuses _ answers).bind fun more _ => ?_
  exact yields_tabulate hexcuses _ _ _

theorem yields_encloseBy {targets : List (NearestQuery α)} (hk : ∀ t ∈ targets, t.k ≤ room) :
    c.Yields rank (fun _ => True) E ((joint shares options i).encloseBy exchange targets) := by
  refine (yields_ofCount hexcuses _).bind fun limits _ => ?_
  obtain ⟨requests, hrequests, hsendable⟩ := coveringRequests_succeeds shares options i hk limits
  rw [hrequests, Search.ofIndex_ok_bind]
  refine (hexchange 0 requests hsendable).bind fun answers _ => ?_
  refine (yields_deal hexcuses _ answers).bind fun found _ => ?_
  exact yields_tabulate hexcuses _ _ _

theorem yields_answerSpatialBy {queries : List (Query α)}
    (hk : ∀ q ∈ queries, ∀ t, q = .nearest t → t.k ≤ room) : c.Yields rank (fun _ => True) E
      ((joint shares options i).answerSpatialBy exchange queries) := by
  obtain ⟨requests, hrequests, hsendable⟩ := spatialRequests_succeeds shares options i hk
  rw [answerSpatialBy, hrequests, Search.ofIndex_ok_bind]
  refine (hexchange 0 requests hsendable).bind fun answers _ => ?_
  exact yields_tabulate hexcuses _ _ _

/-- A batch of which no query asks for too many neighbors is answered, unless an exchange fails or
the rank gives up. -/
theorem yields_answerKindBy {queries : List (Query α)}
    (hk : ∀ q ∈ queries, ∀ t, q = .nearest t → t.k ≤ room) (kind : QueryKind) :
    c.Yields rank (fun _ => True) E
      ((joint shares options i).answerKindBy exchange queries kind) := by
  have hnearest : ∀ t ∈ nearestQueries queries, t.k ≤ room := by
    intro t ht
    obtain ⟨q, hq, heq⟩ := List.mem_filterMap.mp ht
    cases q with
    | nearest t' =>
      obtain rfl := Option.some.inj heq
      exact hk _ hq _ rfl
    | overlapping box => cases heq
    | touching ball => cases heq
  cases kind with
  | nearest =>
    rw [answerKindBy]
    split
    · exact yields_refineBy hexcuses hexchange hnearest
    · exact yields_encloseBy hexcuses hexchange hnearest
  | overlapping => exact yields_answerSpatialBy hexcuses hexchange hk
  | touching => exact yields_answerSpatialBy hexcuses hexchange hk

end Rounds

end PartitionedIndex

end SpatialSearch
