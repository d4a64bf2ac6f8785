import SpatialSearch.Proofs.Failures

/-!
# What is checked before anything is sent

A rank looks through its own batch before it talks to the others. It refuses the batch exactly if
some query has no place in it, and blames the first such query; it has sent and taken nothing then.
Any other batch is announced to all ranks, and of what comes after that nothing counts as a refusal
without a message, not even in a group of one rank, which has nobody to send to.
-/

namespace SpatialSearch

namespace Batch

variable {α : Type} [Scalar α] {options : SearchOptions} {kind : QueryKind} {number : Nat}
  {q : Query α} {fault : SearchFault}

/-- A query that has no place in a batch of a kind: it is of another kind, its radius is negative or
not a number, or it asks for no neighbors or for more than the options allow. -/
def Unacceptable (options : SearchOptions) (kind : QueryKind) (q : Query α) : Prop :=
  q.kind ≠ kind ∨ match q with
    | .overlapping _ => False
    | .touching ball => Scalar.isNaN ball.radius = true ∨ ball.radius < 0
    | .nearest t => t.k = 0 ∨ options.neighborLimit < t.k

instance : Decidable (Unacceptable options kind q) :=
  match q with
  | .overlapping _ => inferInstanceAs (Decidable (_ ≠ _ ∨ False))
  | .touching ball =>
    inferInstanceAs (Decidable (_ ≠ _ ∨ Scalar.isNaN ball.radius = true ∨ ball.radius < 0))
  | .nearest t => inferInstanceAs (Decidable (_ ≠ _ ∨ t.k = 0 ∨ options.neighborLimit < t.k))

/-- What a query is blamed for: first for its kind, then for its own form, and last for the number of
its neighbors. -/
inductive Wrong (options : SearchOptions) (kind : QueryKind) (number : Nat) :
    Query α → SearchFault → Prop where
  | otherKind {q : Query α} (h : q.kind ≠ kind) :
      Wrong options kind number q (.batch (.mixedKinds number q.kind kind))
  | badRadius {ball : Ball α} (hkind : kind = .touching)
      (h : Scalar.isNaN ball.radius = true ∨ ball.radius < 0) :
      Wrong options kind number (.touching ball) (.batch (.malformed number .negativeRadius))
  | noNeighbors {t : NearestQuery α} (hkind : kind = .nearest) (h : t.k = 0) :
      Wrong options kind number (.nearest t) (.batch (.malformed number .noNeighbors))
  | tooMany {t : NearestQuery α} (hkind : kind = .nearest) (hpos : 0 < t.k)
      (h : options.neighborLimit < t.k) :
      Wrong options kind number (.nearest t) (.tooManyNeighbors t.k options.neighborLimit)

/-- The fault of a batch is what the first of its queries that has no place in it is blamed for. The
kind of a batch is that of its first query. -/
def FirstWrong (options : SearchOptions) (queries : List (Query α)) (fault : SearchFault) : Prop :=
  ∃ first, queries.head? = some first ∧ ∃ before q after, queries = before ++ q :: after ∧
    (∀ p ∈ before, ¬ Unacceptable options first.kind p) ∧
    Wrong options first.kind before.length q fault

theorem Wrong.unacceptable (h : Wrong options kind number q fault) :
    Unacceptable options kind q := by
  cases h with
  | otherKind h => exact Or.inl h
  | badRadius _ h => exact Or.inr h
  | noNeighbors _ h => exact Or.inr (Or.inl h)
  | tooMany _ _ h => exact Or.inr (Or.inr h)

theorem Unacceptable.exists_wrong (h : Unacceptable options kind q) (number : Nat) :
    ∃ fault, Wrong options kind number q fault := by
  by_cases hkind : q.kind = kind
  · have h := h.resolve_left (not_not.mpr hkind)
    cases q with
    | overlapping box => exact h.elim
    | touching ball => exact ⟨_, .badRadius hkind.symm h⟩
    | nearest t =>
      by_cases hzero : t.k = 0
      · exact ⟨_, .noNeighbors hkind.symm hzero⟩
      · exact ⟨_, .tooMany hkind.symm (Nat.pos_of_ne_zero hzero) (h.resolve_left hzero)⟩
  · exact ⟨_, .otherKind hkind⟩

/-! ### The checks -/

/-- A query of the kind of its batch is blamed for its form or for the number of its neighbors. -/
theorem checkQuery_of_kind (hkind : q.kind = kind) : checkQuery options kind number q =
    match q.check with
    | .error fault => .error (.batch (.malformed number fault))
    | .ok () => checkLimit options q :=
  if_neg (not_not.mpr hkind)

theorem checkQuery_of_wrong (h : Wrong options kind number q fault) :
    checkQuery options kind number q = .error fault := by
  cases h with
  | otherKind h => exact if_pos h
  | @badRadius ball hkind h =>
    have hcheck : (Query.touching ball).check = .error .negativeRadius := if_pos (by simpa using h)
    rw [checkQuery_of_kind (q := .touching ball) hkind.symm, hcheck]
  | @noNeighbors t hkind h =>
    have hcheck : (Query.nearest t).check = .error .noNeighbors := if_pos h
    rw [checkQuery_of_kind (q := .nearest t) hkind.symm, hcheck]
  | @tooMany t hkind hpos h =>
    have hcheck : (Query.nearest t).check = .ok () := if_neg (Nat.ne_of_gt hpos)
    rw [checkQuery_of_kind (q := .nearest t) hkind.symm, hcheck]
    exact if_pos h

theorem checkQuery_of_acceptable (h : ¬ Unacceptable options kind q) :
    checkQuery options kind number q = .ok () := by
  obtain ⟨hkind, hform⟩ := not_or.mp h
  rw [checkQuery_of_kind (not_not.mp hkind)]
  cases q with
  | overlapping box => rfl
  | touching ball =>
    have hcheck : (Query.touching ball).check = .ok () := if_neg (by simpa using hform)
    rw [hcheck]
    rfl
  | nearest t =>
    obtain ⟨hzero, hmany⟩ := not_or.mp hform
    have hcheck : (Query.nearest t).check = .ok () := if_neg hzero
    rw [hcheck]
    exact if_neg hmany

theorem valid_of_acceptable (h : ¬ Unacceptable options kind q) : Valid options kind q := by
  have hcheck : checkFrom options kind 0 [q] = .ok () := by
    rw [checkFrom, checkQuery_of_acceptable h]
    rfl
  exact valid_of_checkFrom hcheck q List.mem_cons_self

/-- The queries before the first wrong one pass, and those after it are not looked at. -/
theorem checkFrom_of_wrong {before after : List (Query α)}
    (hbefore : ∀ p ∈ before, ¬ Unacceptable options kind p)
    (h : Wrong options kind (number + before.length) q fault) :
    checkFrom options kind number (before ++ q :: after) = .error fault := by
  induction before generalizing number with
  | nil =>
    rw [List.length_nil, Nat.add_zero] at h
    rw [List.nil_append, checkFrom, checkQuery_of_wrong h]
  | cons p rest ih =>
    obtain ⟨hp, hrest⟩ := List.forall_mem_cons.mp hbefore
    rw [List.length_cons, Nat.add_comm rest.length, ← Nat.add_assoc] at h
    rw [List.cons_append, checkFrom, checkQuery_of_acceptable hp]
    exact ih hrest h

theorem check_of_firstWrong {queries : List (Query α)} (h : FirstWrong options queries fault) :
    check options queries = .error fault := by
  obtain ⟨first, hfirst, before, q, after, hqueries, hbefore, hwrong⟩ := h
  cases queries with
  | nil => cases hfirst
  | cons p rest =>
    obtain rfl := Option.some.inj hfirst
    rw [← Nat.zero_add before.length] at hwrong
    rw [check, hqueries, checkFrom_of_wrong hbefore hwrong]
    rfl

/-- If some query has no place in a batch then one of these is the first. -/
theorem exists_firstWrong {queries : List (Query α)} {first : Query α}
    (hfirst : queries.head? = some first)
    (h : ∃ q ∈ queries, Unacceptable options first.kind q) :
    ∃ fault, FirstWrong options queries fault := by
  obtain ⟨q, hq⟩ : ∃ q, queries.find? (Unacceptable options first.kind ·) = some q := by
    rw [← Option.isSome_iff_exists, List.find?_isSome]
    simpa using h
  obtain ⟨hwrong, before, after, hqueries, hbefore⟩ := List.find?_eq_some_iff_append.mp hq
  obtain ⟨fault, hfault⟩ := (of_decide_eq_true hwrong).exists_wrong before.length
  exact ⟨fault, first, hfirst, before, q, after, hqueries, by simpa using hbefore, hfault⟩

/-- The check of a batch finds the fault of its first wrong query, or none if there is none. -/
theorem check_error_iff {queries : List (Query α)} :
    check options queries = .error fault ↔ FirstWrong options queries fault := by
  refine ⟨fun h => ?_, check_of_firstWrong⟩
  cases queries with
  | nil => cases h
  | cons first rest =>
    have hsome : ∃ q ∈ first :: rest, Unacceptable options first.kind q := by
      by_contra hnone
      have hvalid : ∀ q ∈ first :: rest, Valid options first.kind q :=
        fun q hq => valid_of_acceptable fun hbad => hnone ⟨q, hq, hbad⟩
      rw [check_eq hvalid] at h
      cases h
    obtain ⟨fault', hfault'⟩ := exists_firstWrong rfl hsome
    rw [check_of_firstWrong hfault'] at h
    cases h
    exact hfault'

theorem exists_firstWrong_iff {queries : List (Query α)} :
    (∃ fault, FirstWrong options queries fault) ↔ ∃ first, queries.head? = some first ∧
      ∃ q ∈ queries, Unacceptable options first.kind q := by
  constructor
  · rintro ⟨fault, first, hfirst, before, q, after, rfl, -, hwrong⟩
    exact ⟨first, hfirst, q, List.mem_append_right _ List.mem_cons_self, hwrong.unacceptable⟩
  · rintro ⟨first, hfirst, h⟩
    exact exists_firstWrong hfirst h

end Batch

/-! ### A group of one rank -/

namespace Exchange

variable {π β : Type}

/-- A rank alone gets from everybody what it has for itself. -/
theorem swap_alone (kind : ElementKind π β) (tag : Tag) (i : Fin 1) (outgoing : Nat → β) :
    swap kind tag ⟨1, i⟩ outgoing = pure [outgoing 0] := by
  obtain rfl := Subsingleton.elim i 0
  rfl

end Exchange

namespace Plan

variable {π : Type} {i : Fin 1} {destinations : List Nat}

def alone (i : Fin 1) (destinations : List Nat) : Plan :=
  ⟨⟨1, i⟩, destinations, [destinations.count 0], [destinations.count 0]⟩

theorem negotiate_alone (counts : ElementKind π Nat) (i : Fin 1)
    (h : ∀ dest ∈ destinations, dest < 1) :
    negotiate counts ⟨1, i⟩ destinations = pure (alone i destinations) := by
  have hfind : destinations.find? ((⟨1, i⟩ : Seat).size ≤ ·) = none := by
    simpa using h
  rw [negotiate, hfind]
  dsimp only
  rw [Exchange.swap_alone]
  rfl

/-- All that a rank alone receives comes from itself. -/
theorem lt_of_mem_sources_alone {source : Nat} (hsource : source ∈ (alone i destinations).sources) :
    source < 1 := by
  obtain ⟨⟨count, rank⟩, hrank, hsource⟩ := List.mem_flatMap.mp hsource
  rw [List.eq_of_mem_replicate hsource]
  exact (List.mem_zipIdx' hrank).1

end Plan

namespace Contract

variable {π β : Type} {rank : Nat}

def free (π : Type) : Contract π := ⟨fun _ _ _ => True, fun _ => True⟩

/-- What a rank alone posts comes back to it, unless there is no room for it. -/
theorem yields_post_alone (kind : ElementKind π β) (i : Fin 1) {destinations : List Nat}
    {items : List β} (hlength : items.length = (Plan.alone i destinations).destinations.length) :
    (free π).Yields rank (fun arrived => ∀ b ∈ arrived, b ∈ items) (fun _ => False)
      ((Plan.alone i destinations).post kind items) := by
  obtain rfl := Subsingleton.elim i 0
  rw [Plan.post, if_neg (not_not.mpr hlength)]
  have hroom : ∀ (result : Except Abort Nat) (arrived : List β), (∀ b ∈ arrived, b ∈ items) →
      (free π).Yields rank (fun arrived => ∀ b ∈ arrived, b ∈ items) (fun _ => False)
        (Exchange.ofCount result >>= fun _ => pure arrived : Exchange π (List β)) := by
    intro result arrived harrived
    cases result with
    | ok _ => exact yields_pure harrived
    | error cause => exact .leave (.gaveUp trivial)
  refine hroom _ ([Plan.bucket _ 0 items].flatten) fun b hb => ?_
  rw [List.flatten_singleton] at hb
  exact (List.of_mem_zip (mem_bucket hb)).1

end Contract

@[simp] theorem Search.ofExchange_pure_bind {α β γ : Type} (a : β) (f : β → Search α γ) :
    Search.ofExchange (pure a) >>= f = f a := rfl

theorem Group.proceed_of_get {π ρ : Type} {n : Nat} {g : Group n π ρ} {i : Fin n}
    {p : Program π ρ} (h : g.programs.get i = p) : g.proceed i p g.mailboxes = g := by
  subst h
  rw [Group.proceed]
  congr 1
  exact Vector.set_getElem_self _

namespace PartitionedIndex

open Contract

variable {α : Type} [Scalar α]

omit [Scalar α] in
/-- A rank alone agrees with itself on the kind of its batch. -/
theorem agree_alone (x : PartitionedIndex α) {i : Fin 1} (hseat : x.seat = ⟨1, i⟩)
    (kind : Option QueryKind) : x.agree kind = pure kind := by
  have hagree : Batch.agree [⟨kind, x.options⟩] = .ok kind := by
    rw [Batch.agree_of_same (by simp)]
    cases kind <;> rfl
  rw [agree, hseat, Exchange.gather, Exchange.swap_alone]
  change Search.ofExcept (Batch.agree [⟨kind, x.options⟩]) = _
  rw [hagree]
  rfl

variable [LawfulScalar α]

/-- A rank alone answers its own requests, unless there is no room. -/
theorem yields_exchange_alone (shares : Fin 1 → Share α) (options : SearchOptions) (i : Fin 1)
    {requests : List (Nat × Request α)}
    (h : ∀ r ∈ requests, Sendable 1 options.neighborLimit r) :
    (free (Content α)).Yields i (fun _ => True) (fun _ => False)
      ((joint shares options i).exchange requests) := by
  have hforth : ∀ dest ∈ requests.map (·.1), dest < 1 := by
    intro dest hdest
    obtain ⟨r, hr, rfl⟩ := List.mem_map.mp hdest
    exact (h r hr).dest_lt
  rw [exchange]
  dsimp only
  rw [show (joint shares options i).seat = ⟨1, i⟩ from rfl, Plan.negotiate_alone _ i hforth,
    Search.ofExchange_pure_bind]
  refine ((yields_post_alone Content.ofRequests i ?_).adapt fun _ => id).bind
    fun incoming hincoming => ?_
  · exact (List.length_map _).trans (List.length_map _).symm
  have hrespond : Request.respondAll (joint shares options i).own i incoming
      ⟨.empty options.neighborLimit, []⟩ =
        .ok (incoming.map (Request.answers (shares i) options.neighborLimit i)) := by
    refine Request.respondAll_eq (shares i) i fun r hr t ht => ?_
    obtain ⟨p, hp, rfl⟩ := List.mem_map.mp (hincoming r hr)
    exact (h p hp).k_le t ht
  rw [show (joint shares options i).options = options from rfl, hrespond, Search.ofIndex_ok_bind]
  rw [Plan.negotiate_alone _ i fun dest hdest => ?_, Search.ofExchange_pure_bind]
  · refine ((yields_post_alone Content.ofAnswers i ?_).adapt fun _ => id).mono fun _ _ => trivial
    exact (List.length_map _).trans (List.length_map _).symm
  · obtain ⟨a, ha, rfl⟩ := List.mem_map.mp hdest
    obtain ⟨p, hp, ha⟩ := List.mem_flatMap.mp ha
    obtain ⟨answer, -, rfl⟩ := List.mem_map.mp ha
    exact Plan.lt_of_mem_sources_alone (List.of_mem_zip hp).1

/-! ### Queries -/

variable {n : Nat} {shares : Fin n → Share α} {options : SearchOptions} {i : Fin n}
  {queries : List (Query α)}

omit [Scalar α] [LawfulScalar α] in
/-- A rank that is not alone starts to gather by sending something. -/
theorem exists_send_of_gather {β γ : Type} (kind : ElementKind (Content α) β) (h : 2 ≤ n)
    (i : Fin n) (value : β) (f : List β → Search α γ) : ∃ dest message next,
      (Search.ofExchange (Exchange.gather kind ⟨n, i⟩ value) >>= f).run =
        .send dest message next := by
  have hothers : (Seat.mk n i).others ≠ [] := by
    intro hnone
    have hall : ∀ rank < n, rank = i.val := by
      simpa [Seat.others, Seat.ranks] using hnone
    have hzero := hall 0 (by omega)
    have hone := hall 1 (by omega)
    omega
  obtain ⟨dest, rest, hcons⟩ := List.exists_cons_of_ne_nil hothers
  rw [Exchange.gather, Exchange.swap, hcons]
  exact ⟨dest, _, _, rfl⟩

/-- What a query is from the announcement of its batch on. -/
def announced (x : PartitionedIndex α) (queries : List (Query α)) (kind : Option QueryKind) :
    Search α (HitTable α) := do
  let announcements ← Search.ofExchange <|
    Exchange.gather Content.ofAnnouncements x.seat ⟨kind, x.options⟩
  match ← Search.ofExcept (Batch.agree announcements) with
  | none => return .empty queries.length false
  | some kind => x.answerKind queries kind

omit [LawfulScalar α] in
theorem query_of_check {x : PartitionedIndex α} {kind : Option QueryKind}
    (h : Batch.check x.options queries = .ok kind) :
    x.query queries = announced x queries kind := by
  rw [query, h, Search.ofExcept_ok_bind, agree, bind_assoc, announced]
  refine congrArg _ (funext fun announcements => congrArg _ (funext fun agreed => ?_))
  cases agreed with
  | none => rfl
  | some kind => cases kind <;> rfl

omit [LawfulScalar α] in
/-- A batch that is not in order is refused as it is checked. -/
theorem run_query_of_firstWrong {x : PartitionedIndex α} {fault : SearchFault}
    (h : Batch.FirstWrong x.options queries fault) :
    (x.query queries).run = .done (.error fault) := by
  rw [query, Batch.check_of_firstWrong h]
  rfl

/-- A batch in order of a rank alone is answered, unless the rank gives up. -/
theorem yields_query_alone (shares : Fin 1 → Share α) (options : SearchOptions) (i : Fin 1)
    {kind : Option QueryKind} (h : Batch.check options queries = .ok kind) :
    (free (Content α)).Yields i (fun _ => True) (fun _ => False)
      ((joint shares options i).query queries) := by
  rw [← queryBy_exchange, queryBy, show (joint shares options i).options = options from rfl, h,
    Search.ofExcept_ok_bind, agree_alone _ rfl]
  cases kind with
  | none => exact yields_pure trivial
  | some kind =>
    exact yields_answerKindBy (fun _ => trivial)
      (fun _ _ hsendable => yields_exchange_alone shares options i hsendable)
      (Batch.k_le_of_check h) kind

/-- Nothing after the check of a batch counts as a refusal without a message. -/
theorem run_query_ne_error {kind : Option QueryKind} (h : Batch.check options queries = .ok kind)
    (fault : SearchFault) :
    ((joint shares options i).query queries).run ≠ .done (.error fault) := by
  intro hrun
  by_cases hn : 2 ≤ n
  · rw [query_of_check (x := joint shares options i) h] at hrun
    obtain ⟨dest, message, next, hsend⟩ := exists_send_of_gather Content.ofAnnouncements hn i
      ⟨kind, options⟩ fun announcements => do
        match ← Search.ofExcept (Batch.agree announcements) with
        | none => return .empty queries.length false
        | some kind => (joint shares options i).answerKind queries kind
    rw [announced] at hrun
    cases hsend.symm.trans hrun
  · obtain rfl : n = 1 := by
      have := i.pos
      omega
    have hyields := yields_query_alone shares options i h
    rw [Yields, hrun] at hyields
    cases hyields with
    | done houtcome => exact houtcome.2 fault rfl

/-- A query fails before it sends or takes anything exactly if the check of its batch fails. -/
theorem run_query_iff {fault : SearchFault} :
    ((joint shares options i).query queries).run = .done (.error fault) ↔
      Batch.FirstWrong options queries fault := by
  refine ⟨fun hrun => ?_, fun h => run_query_of_firstWrong h⟩
  cases hcheck : Batch.check options queries with
  | ok kind => exact absurd hrun (run_query_ne_error hcheck fault)
  | error fault' =>
    have hfirst := Batch.check_error_iff.mp hcheck
    rw [run_query_of_firstWrong (x := joint shares options i) hfirst] at hrun
    cases hrun
    exact hfirst

/-- A query fails before it sends or takes anything exactly if some query of its batch has no place
in it, and then for the reason that the first such query is blamed for. Nothing has happened in the
group then: the rank may go on as if it had been told so right away. Any other batch is announced to
all ranks under the kind of its queries, if it has any. -/
theorem checks_are_exact (shares : Fin n → Share α) (options : SearchOptions) (i : Fin n)
    (queries : List (Query α)) :
    ((∃ fault, ((joint shares options i).query queries).run = .done (.error fault)) ↔
      ∃ first, queries.head? = some first ∧
        ∃ q ∈ queries, Batch.Unacceptable options first.kind q) ∧
    (∀ fault, ((joint shares options i).query queries).run = .done (.error fault) ↔
      Batch.FirstWrong options queries fault) ∧
    (∀ fault, Batch.FirstWrong options queries fault →
      ∀ {ρ : Type} (g : Group n (Content α) ρ)
        (next : Except SearchFault (HitTable α) → Program (Content α) ρ),
        g.programs.get i = ((joint shares options i).query queries).run.bind next →
          g = g.proceed i (next (.error fault)) g.mailboxes) ∧
    ((∀ fault, ((joint shares options i).query queries).run ≠ .done (.error fault)) →
      ∃ kind, (queries = [] → kind = none) ∧ (∀ q ∈ queries, kind = some q.kind) ∧
        (joint shares options i).query queries =
          (joint shares options i).announced queries kind) := by
  refine ⟨?_, fun fault => run_query_iff, fun fault hfault ρ g next hg => ?_, fun hnone => ?_⟩
  · simp only [run_query_iff]
    exact Batch.exists_firstWrong_iff
  · rw [run_query_of_firstWrong (x := joint shares options i) hfault] at hg
    exact (Group.proceed_of_get hg).symm
  · cases hcheck : Batch.check options queries with
    | error fault => exact absurd (run_query_iff.mpr (Batch.check_error_iff.mp hcheck)) (hnone fault)
    | ok kind =>
      refine ⟨kind, fun hnil => ?_, fun q hq => ?_, query_of_check hcheck⟩
      · rw [Batch.kind_of_check hcheck, hnil]
        rfl
      · exact Batch.kind_of_mem_checked hcheck hq

def mixedBatch : List (Query Binary64) :=
  [.nearest ⟨.origin, 1⟩, .touching ⟨.origin, .negInfinity⟩, .nearest ⟨.origin, 0⟩]

/-- The second query is blamed, and for its kind; the first one alone would be announced. -/
theorem checks_are_exact_mixedBatch :
    ((joint twoRanks {} 0).query mixedBatch).run =
      .done (.error (.batch (.mixedKinds 1 .touching .nearest))) ∧
    (joint twoRanks {} 0).query (mixedBatch.take 1) =
      (joint twoRanks {} 0).announced (mixedBatch.take 1) (some .nearest) := by
  constructor
  · refine ((checks_are_exact twoRanks {} 0 mixedBatch).2.1 _).mpr
      ⟨_, rfl, mixedBatch.take 1, _, _, rfl, by decide, .otherKind (by decide)⟩
  · obtain ⟨hrefused, -, -, hannounced⟩ := checks_are_exact twoRanks {} 0 (mixedBatch.take 1)
    obtain ⟨kind, -, hkind, hquery⟩ := hannounced fun fault hrun => by
      obtain ⟨first, hfirst, hbad⟩ := hrefused.mp ⟨fault, hrun⟩
      cases hfirst
      exact absurd hbad (by decide)
    rw [hquery, hkind _ List.mem_cons_self]
    rfl

/-- Minus zero is not negative. -/
example : ¬ Batch.Unacceptable {} .touching
    (.touching ⟨.origin, (⟨Binary64.signBit⟩ : Binary64)⟩) := by decide

end PartitionedIndex

end SpatialSearch
