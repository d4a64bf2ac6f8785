import Mathlib.Order.WellFounded
import SpatialSearch.Proofs.Batches

/-!
# Verdicts on batches

Whether the batches of a group go together is found out by every rank for itself, from what
all ranks announce. `Verdict` says what has to come out, without a scan: a rank with other
options than the first rank comes before all else, then a batch of another kind than the
first one that is not empty. Every rank comes to this verdict in whatever order the ranks
act, and then everything is under way again as it was before.
-/

namespace SpatialSearch

/-- The first element in an order that has a property is the one that is found. -/
theorem find?_of_first {β : Type} {r : β → β → Prop} {l : List β} {p : β → Bool} {a : β}
    (hl : l.Pairwise r) (ha : a ∈ l) (hp : p a = true)
    (hbefore : ∀ b ∈ l, r b a → p b = false) : l.find? p = some a := by
  obtain ⟨before, after, rfl⟩ := List.append_of_mem ha
  have hnone : before.find? p = none := by
    refine List.find?_eq_none.mpr fun b hb => ?_
    have hba := (List.pairwise_append.mp hl).2.2 b hb a List.mem_cons_self
    simp [hbefore b (List.mem_append_left _ hb) hba]
  rw [List.find?_append, hnone, List.find?_cons_of_pos hp, Option.none_or]

theorem exists_first {n : Nat} {p : Fin n → Prop} (h : ∃ i, p i) :
    ∃ i, p i ∧ ∀ j < i, ¬ p j := by
  obtain ⟨i, hi, hmin⟩ := wellFounded_lt.has_min {i | p i} h
  exact ⟨i, hi, fun j hj hpj => hmin j hpj hj⟩

namespace Batch

variable {α : Type} {n : Nat}

/-- What a group concludes of the options and the batches of its ranks. -/
inductive Verdict (options : Fin n → SearchOptions) (batches : Fin n → List (Query α)) :
    Except SearchFault (Option QueryKind) → Prop where
  | optionsDiffer (zero i : Fin n) (hzero : zero.val = 0) (differ : options i ≠ options zero)
      (before : ∀ j < i, options j = options zero) :
      Verdict options batches (.error (.batch (.optionsDiffer i)))
  /-- The first rank with queries of another kind than those of the first rank that has any. -/
  | kindsDiffer (first i : Fin n) {p q : Query α} (same : ∀ i j, options i = options j)
      (hp : p ∈ batches first) (empty : ∀ j < first, batches j = []) (hq : q ∈ batches i)
      (differ : q.kind ≠ p.kind) (before : ∀ j < i, ∀ r ∈ batches j, r.kind = p.kind) :
      Verdict options batches (.error (.batch (.kindsDiffer i q.kind first p.kind)))
  | nothing (same : ∀ i j, options i = options j) (empty : ∀ i, batches i = []) :
      Verdict options batches (.ok none)
  | agreed {i : Fin n} {p : Query α} (same : ∀ i j, options i = options j) (hp : p ∈ batches i)
      (kind : ∀ j, ∀ q ∈ batches j, q.kind = p.kind) :
      Verdict options batches (.ok (some p.kind))

/-- There is always a verdict. -/
theorem exists_verdict (options : Fin n → SearchOptions) (batches : Fin n → List (Query α)) :
    ∃ verdict, Verdict options batches verdict := by
  by_cases hdiffer : ∃ i j, options i ≠ options j
  · obtain ⟨i, j, hij⟩ := hdiffer
    let zero : Fin n := ⟨0, i.pos⟩
    have hsome : ∃ k, options k ≠ options zero := by
      by_contra hnone
      have hall : ∀ k, options k = options zero := not_exists_not.mp hnone
      exact hij ((hall i).trans (hall j).symm)
    obtain ⟨k, hk, hbefore⟩ := exists_first hsome
    exact ⟨_, .optionsDiffer zero k rfl hk fun m hm => not_not.mp (hbefore m hm)⟩
  · have hsame : ∀ i j, options i = options j :=
      fun i j => by_contra fun hij => hdiffer ⟨i, j, hij⟩
    by_cases hqueries : ∃ i, batches i ≠ []
    · obtain ⟨first, hfirst, hempty⟩ := exists_first hqueries
      obtain ⟨p, hp⟩ := List.exists_mem_of_ne_nil _ hfirst
      by_cases hkinds : ∃ i, ∃ q ∈ batches i, q.kind ≠ p.kind
      · obtain ⟨i, ⟨q, hq, hdiffer⟩, hbefore⟩ := exists_first hkinds
        refine ⟨_, .kindsDiffer first i hsame hp (fun j hj => not_not.mp (hempty j hj)) hq hdiffer
          fun j hj r hr => ?_⟩
        by_contra hkind
        exact hbefore j hj ⟨r, hr, hkind⟩
      · refine ⟨_, .agreed hsame hp fun j q hq => ?_⟩
        by_contra hkind
        exact hkinds ⟨j, q, hq, hkind⟩
    · exact ⟨_, .nothing hsame fun i => by_contra fun hi => hqueries ⟨i, hi⟩⟩

/-- The ranks with queries, by their announcements. -/
theorem submitted_ofFn (announced : Fin n → Announcement) :
    submitted (List.ofFn announced) = (List.finRange n).filterMap fun i =>
      (announced i).kind.map fun kind => (i.val, kind) := by
  rw [submitted, Plan.zipIdx_ofFn, List.filterMap_map]
  rfl

theorem mem_submitted {announced : Fin n → Announcement} {i : Fin n} {kind : QueryKind}
    (h : (announced i).kind = some kind) : (i.val, kind) ∈ submitted (List.ofFn announced) := by
  rw [submitted_ofFn, List.mem_filterMap]
  exact ⟨i, List.mem_finRange i, by rw [h]; rfl⟩

theorem exists_of_mem_submitted {announced : Fin n → Announcement} {s : Nat × QueryKind}
    (h : s ∈ submitted (List.ofFn announced)) :
    ∃ i : Fin n, i.val = s.1 ∧ (announced i).kind = some s.2 := by
  rw [submitted_ofFn, List.mem_filterMap] at h
  obtain ⟨i, -, hs⟩ := h
  obtain ⟨kind, hkind, rfl⟩ := Option.map_eq_some_iff.mp hs
  exact ⟨i, rfl, hkind⟩

theorem pairwise_submitted (announced : Fin n → Announcement) :
    (submitted (List.ofFn announced)).Pairwise (·.1 < ·.1) := by
  rw [submitted_ofFn, List.pairwise_filterMap]
  refine (List.pairwise_lt_finRange n).imp fun {i j} hij s hs t ht => ?_
  obtain ⟨_, -, rfl⟩ := Option.map_eq_some_iff.mp hs
  obtain ⟨_, -, rfl⟩ := Option.map_eq_some_iff.mp ht
  exact hij

variable [Scalar α] {options : Fin n → SearchOptions} {batches : Fin n → List (Query α)}
  {kinds : Fin n → Option QueryKind}

/-- The announced kind is that of every query of a batch in order. -/
theorem kind_of_mem (hkinds : ∀ i, check (options i) (batches i) = .ok (kinds i)) {i : Fin n}
    {q : Query α} (hq : q ∈ batches i) : kinds i = some q.kind :=
  kind_of_mem_checked (hkinds i) hq

theorem exists_mem_of_kind (hkinds : ∀ i, check (options i) (batches i) = .ok (kinds i))
    {i : Fin n} {kind : QueryKind} (h : kinds i = some kind) :
    ∃ q ∈ batches i, q.kind = kind := by
  rw [kind_of_check (hkinds i), Option.map_eq_some_iff] at h
  obtain ⟨q, hq, hkind⟩ := h
  exact ⟨q, List.mem_of_mem_head? hq, hkind⟩

theorem kind_of_empty (hkinds : ∀ i, check (options i) (batches i) = .ok (kinds i)) {i : Fin n}
    (hi : batches i = []) : kinds i = none := by
  rw [kind_of_check (hkinds i), hi]
  rfl

omit [Scalar α] in
theorem options_of_same (kinds : Fin n → Option QueryKind) (same : ∀ i j, options i = options j) :
    ∀ a ∈ List.ofFn fun i => (⟨kinds i, options i⟩ : Announcement),
      ∀ b ∈ List.ofFn fun i => (⟨kinds i, options i⟩ : Announcement), a.options = b.options := by
  intro a ha b hb
  obtain ⟨i, rfl⟩ := List.mem_ofFn.mp ha
  obtain ⟨j, rfl⟩ := List.mem_ofFn.mp hb
  exact same i j

/-- The rank with other options than rank zero is found. -/
theorem agree_of_differ (announced : Fin n → Announcement) {zero i : Fin n} (hzero : zero.val = 0)
    (differ : (announced i).options ≠ (announced zero).options)
    (before : ∀ j < i, (announced j).options = (announced zero).options) :
    agree (List.ofFn announced) = .error (.batch (.optionsDiffer i)) := by
  have hhead : (List.ofFn announced).head? = some (announced zero) := by
    rw [List.head?_eq_getElem?, ← hzero, List.getElem?_ofFn, dif_pos zero.isLt]
  have hfound : (List.ofFn announced).findIdx?
      (fun a => (List.ofFn announced).head?.any (·.options != a.options)) = some i.val := by
    rw [List.findIdx?_eq_some_iff_getElem, hhead]
    refine ⟨by simp, ?_, fun j hj => ?_⟩
    · simpa using differ.symm
    · have hsame := before ⟨j, hj.trans i.isLt⟩ hj
      simpa using hsame.symm
  rw [agree, hfound]

/-- The rank with another kind than the first rank with queries is found. -/
theorem agreeOnKind_of_differ {announced : Fin n → Announcement} {first i : Fin n}
    {firstKind kind : QueryKind} (hfirst : (announced first).kind = some firstKind)
    (empty : ∀ j < first, (announced j).kind = none) (hi : (announced i).kind = some kind)
    (differ : kind ≠ firstKind)
    (before : ∀ j < i, ∀ k, (announced j).kind = some k → k = firstKind) :
    agreeOnKind (List.ofFn announced) =
      .error (.batch (.kindsDiffer i kind first firstKind)) := by
  have hpairs := pairwise_submitted announced
  have hhead : (submitted (List.ofFn announced)).find? (fun _ => true) =
      some (first.val, firstKind) := by
    refine find?_of_first hpairs (mem_submitted hfirst) rfl fun s hs hlt => ?_
    obtain ⟨j, hj, hkind⟩ := exists_of_mem_submitted hs
    rw [empty j (hj.trans_lt hlt)] at hkind
    nomatch hkind
  cases hlist : submitted (List.ofFn announced) with
  | nil =>
    rw [hlist] at hhead
    nomatch hhead
  | cons s rest =>
    rw [hlist] at hhead hpairs
    obtain rfl : s = (first.val, firstKind) := Option.some.inj hhead
    have hmem : (i.val, kind) ∈ rest := by
      have hi' := mem_submitted hi
      rw [hlist] at hi'
      refine (List.mem_cons.mp hi').resolve_left fun heq => ?_
      exact differ (Prod.mk.inj heq).2
    have hfound : rest.find? (·.2 != firstKind) = some (i.val, kind) := by
      refine find?_of_first (List.pairwise_cons.mp hpairs).2 hmem (by simpa using differ)
        fun s hs hlt => ?_
      obtain ⟨j, hj, hkind⟩ := exists_of_mem_submitted
        (hlist ▸ List.mem_cons_of_mem (first.val, firstKind) hs)
      simpa using before j (hj.trans_lt hlt) s.2 hkind
    rw [agreeOnKind, hlist]
    simp only [hfound]

/-- The scan of the announcements comes to the verdict. -/
theorem agree_eq_of_verdict (hkinds : ∀ i, check (options i) (batches i) = .ok (kinds i))
    {verdict : Except SearchFault (Option QueryKind)} (h : Verdict options batches verdict) :
    agree (List.ofFn fun i => ⟨kinds i, options i⟩) = verdict := by
  cases h with
  | optionsDiffer zero i hzero differ before =>
    exact agree_of_differ (fun i => ⟨kinds i, options i⟩) hzero differ before
  | kindsDiffer first i same hp empty hq differ before =>
    rw [agree_of_same (options_of_same kinds same)]
    have hempty : ∀ j < first, kinds j = none := fun j hj => kind_of_empty hkinds (empty j hj)
    refine agreeOnKind_of_differ (kind_of_mem hkinds hp) hempty (kind_of_mem hkinds hq) differ
      fun j hj kind hkind => ?_
    obtain ⟨r, hr, rfl⟩ := exists_mem_of_kind hkinds hkind
    exact before j hj r hr
  | nothing same empty =>
    have hnil : submitted (List.ofFn fun i => (⟨kinds i, options i⟩ : Announcement)) = [] := by
      refine List.eq_nil_iff_forall_not_mem.mpr fun s hs => ?_
      obtain ⟨i, -, hkind⟩ := exists_of_mem_submitted hs
      rw [kind_of_empty hkinds (empty i)] at hkind
      cases hkind
    rw [agree_of_same (options_of_same kinds same), agreeOnKind, hnil]
  | @agreed i p same hp kind =>
    have hkind : ∀ a ∈ List.ofFn fun i => (⟨kinds i, options i⟩ : Announcement),
        a.kind = none ∨ a.kind = some p.kind := by
      intro a ha
      obtain ⟨j, rfl⟩ := List.mem_ofFn.mp ha
      cases hj : kinds j with
      | none => exact Or.inl rfl
      | some own =>
        obtain ⟨q, hq, rfl⟩ := exists_mem_of_kind hkinds hj
        exact Or.inr (congrArg some (kind j q hq))
    have hi : (⟨kinds i, options i⟩ : Announcement) ∈
        List.ofFn fun i => (⟨kinds i, options i⟩ : Announcement) := List.mem_ofFn.mpr ⟨i, rfl⟩
    have halike := fun a ha => options_of_same kinds same a ha _ hi
    rcases agree_eq (options i) p.kind _ halike hkind with ⟨hagree, -⟩ | ⟨-, hall⟩
    · exact hagree
    · have hnot := (hall _ hi).symm.trans (kind_of_mem hkinds hp)
      cases hnot

/-- There is only one verdict on batches that are in order. -/
theorem Verdict.unique (hkinds : ∀ i, check (options i) (batches i) = .ok (kinds i))
    {verdict other : Except SearchFault (Option QueryKind)} (h : Verdict options batches verdict)
    (h' : Verdict options batches other) : other = verdict :=
  (agree_eq_of_verdict hkinds h').symm.trans (agree_eq_of_verdict hkinds h)

end Batch

namespace PartitionedIndex

variable {α : Type} [Scalar α] {n : Nat}

/-- The group of ranks that find out the kind of all batches, with some messages under way. -/
def consulting (x : Fin n → PartitionedIndex α) (kinds : Fin n → Option QueryKind)
    (waiting : Queues n (Content α)) :
    Group n (Content α) (Except SearchFault (Option QueryKind)) where
  programs := .ofFn fun i => ((x i).agree (kinds i)).run
  mailboxes := waiting.toMailboxes

/-- On batches that every rank has found in order there is one verdict, and all ranks come to it
in whatever order they act. Whether the verdict is for the batches or against them, then what
is under way is what was under way before. -/
theorem agree_reaches_verdict {x : Fin n → PartitionedIndex α} {batches : Fin n → List (Query α)}
    {kinds : Fin n → Option QueryKind} {waiting : Queues n (Content α)}
    (hseat : ∀ i, (x i).seat = ⟨n, i⟩)
    (hkinds : ∀ i, Batch.check (x i).options (batches i) = .ok (kinds i))
    (hclear : ∀ s d, s ≠ d → waiting s d = []) :
    ∃ verdict, Batch.Verdict (fun i => (x i).options) batches verdict ∧
      (∀ other, Batch.Verdict (fun i => (x i).options) batches other → other = verdict) ∧
      Group.AlwaysEnds (fun g => (∀ i, g.programs.get i = .done verdict) ∧
        ∀ s d, g.mailboxes.queue s d = waiting s d) (consulting x kinds waiting) := by
  obtain ⟨verdict, hverdict⟩ := Batch.exists_verdict (fun i => (x i).options) batches
  refine ⟨verdict, hverdict, fun other => hverdict.unique hkinds, ?_⟩
  obtain ⟨stages, -, hperf⟩ := passes_agree_of_seat hseat kinds
  rw [Batch.agree_eq_of_verdict hkinds hverdict] at hperf
  have hwaiting : Queues.none.beside (fun s => waiting s s) = waiting := by
    funext s d
    by_cases hsd : s = d
    · subst hsd
      exact if_pos rfl
    · rw [Queues.beside_of_ne _ _ hsd, hclear s d hsd]
      rfl
  have hends := Group.alwaysEnds_beside hperf fun s => waiting s s
  rw [hwaiting] at hends
  exact hends

def threeBatches : Fin 3 → List (Query Binary64)
  | 0 => []
  | 1 => [.nearest ⟨.origin, 1⟩]
  | 2 => [.overlapping (.ofPoint .origin)]

theorem agree_reaches_verdict_threeBatches :
    let x : Fin 3 → PartitionedIndex Binary64 := joint (fun _ => twoRanks 0) {}
    let waiting : Queues 3 (Content Binary64) :=
      fun s d => if s = d then [⟨.user, .plain .signal [()]⟩] else []
    Group.AlwaysEnds (fun g =>
        (∀ i, g.programs.get i = .done (.error (.batch (.kindsDiffer 2 .overlapping 1 .nearest)))) ∧
          ∀ s d, g.mailboxes.queue s d = waiting s d)
      (consulting x (fun i => (threeBatches i).head?.map Query.kind) waiting) := by
  intro x waiting
  have hkinds : ∀ i, Batch.check (x i).options (threeBatches i) =
      .ok ((threeBatches i).head?.map Query.kind) := by decide
  have hseat : ∀ i, (x i).seat = ⟨3, i⟩ := fun _ => rfl
  have hclear : ∀ s d, s ≠ d → waiting s d = [] := fun _ _ hsd => if_neg hsd
  obtain ⟨verdict, -, hunique, hends⟩ := agree_reaches_verdict hseat hkinds hclear
  have hempty : ∀ j < (1 : Fin 3), threeBatches j = [] := by
    intro j hj
    obtain rfl : j = 0 := by omega
    rfl
  have hbefore : ∀ j < (2 : Fin 3), ∀ r ∈ threeBatches j, r.kind = .nearest := by decide
  have hverdict : Batch.Verdict (fun i => (x i).options) threeBatches
      (.error (.batch (.kindsDiffer 2 .overlapping 1 .nearest))) :=
    .kindsDiffer 1 2 (fun _ _ => rfl) List.mem_cons_self hempty List.mem_cons_self nofun hbefore
  rw [hunique _ hverdict]
  exact hends

end PartitionedIndex

end SpatialSearch
