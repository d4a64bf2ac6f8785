import SpatialSearch.Proofs.Rounds
import SpatialSearch.Proofs.Tables

/-!
# Batches of a group

Batches that are in order on every rank and of one kind over all ranks are agreed upon, and
all ranks go on in the same way. The answers of a round are dealt out to the queries of a
batch, and a table of answers in the order of the queries has one row for each of them.
-/

namespace SpatialSearch

namespace Batch

variable {α : Type} [Scalar α] {options : SearchOptions} {kind : QueryKind}

def Valid (options : SearchOptions) (kind : QueryKind) (q : Query α) : Prop :=
  q.kind = kind ∧ q.check = .ok () ∧ checkLimit options q = .ok ()

omit [Scalar α] in
theorem checkLimit_of_spatial {q : Query α} (h : q.isSpatial = true) :
    checkLimit options q = .ok () := by
  cases q with
  | nearest n => nomatch h
  | overlapping box => rfl
  | touching ball => rfl

omit [Scalar α] in
theorem limit_of_checkLimit {t : NearestQuery α} (h : checkLimit options (.nearest t) = .ok ()) :
    t.k ≤ options.neighborLimit := by
  rw [checkLimit] at h
  split at h
  · nomatch h
  · exact Nat.not_lt.mp ‹_›

theorem Valid.bounds {t : NearestQuery α} (h : Valid options kind (.nearest t)) :
    0 < t.k ∧ t.k ≤ options.neighborLimit := by
  refine ⟨Nat.pos_of_ne_zero fun hzero => ?_, limit_of_checkLimit h.2.2⟩
  have hcheck := h.2.1
  rw [Query.check, if_pos hzero] at hcheck
  nomatch hcheck

theorem checkFrom_eq {queries : List (Query α)} (h : ∀ q ∈ queries, Valid options kind q)
    (number : Nat) : checkFrom options kind number queries = .ok () := by
  induction queries generalizing number with
  | nil => rfl
  | cons q rest ih =>
    obtain ⟨hkind, hcheck, hlimit⟩ := h q List.mem_cons_self
    have hq : checkQuery options kind number q = .ok () := by
      rw [checkQuery, if_neg (not_not.mpr hkind), hcheck]
      exact hlimit
    rw [checkFrom, hq]
    exact ih (fun q hq => h q (List.mem_cons_of_mem _ hq)) (number + 1)

theorem check_eq {queries : List (Query α)} (h : ∀ q ∈ queries, Valid options kind q) :
    check options queries = .ok (if queries.isEmpty then none else some kind) := by
  cases queries with
  | nil => rfl
  | cons q rest =>
    have hkind : q.kind = kind := (h q List.mem_cons_self).1
    subst hkind
    rw [check, checkFrom_eq h 0]
    rfl

theorem valid_of_checkFrom {queries : List (Query α)} {number : Nat}
    (h : checkFrom options kind number queries = .ok ()) :
    ∀ q ∈ queries, Valid options kind q := by
  induction queries generalizing number with
  | nil => exact fun _ hq => nomatch hq
  | cons q rest ih =>
    have hq : checkQuery options kind number q = .ok () := by
      rw [checkFrom] at h
      split at h
      · nomatch h
      · assumption
    rw [checkFrom, hq] at h
    refine List.forall_mem_cons.mpr ⟨?_, ih h⟩
    rw [checkQuery] at hq
    split at hq
    · nomatch hq
    · rename_i hkind
      split at hq
      · nomatch hq
      · exact ⟨not_not.mp hkind, by assumption, hq⟩

theorem valid_of_check_cons {first : Query α} {rest : List (Query α)} {found : Option QueryKind}
    (h : check options (first :: rest) = .ok found) :
    found = some first.kind ∧ ∀ q ∈ first :: rest, Valid options first.kind q := by
  rw [check] at h
  cases hall : checkFrom options first.kind 0 (first :: rest) with
  | error fault =>
    rw [hall] at h
    nomatch h
  | ok _ =>
    rw [hall] at h
    exact ⟨(Except.ok.inj h).symm, valid_of_checkFrom hall⟩

theorem kind_of_check {queries : List (Query α)} {found : Option QueryKind}
    (h : check options queries = .ok found) : found = queries.head?.map Query.kind := by
  cases queries with
  | nil => exact (Except.ok.inj h).symm
  | cons first rest => exact (valid_of_check_cons h).1

/-- What a batch in order is made of. -/
theorem valid_of_check {queries : List (Query α)} {found : Option QueryKind}
    (h : check options queries = .ok found) :
    ∀ q ∈ queries, ∃ kind, found = some kind ∧ Valid options kind q := by
  cases queries with
  | nil => exact fun _ hq => nomatch hq
  | cons first rest =>
    obtain ⟨hfound, hall⟩ := valid_of_check_cons h
    exact fun q hq => ⟨first.kind, hfound, hall q hq⟩

/-- All queries of a batch in order are of its kind. -/
theorem kind_of_mem_checked {queries : List (Query α)} {found : Option QueryKind} {q : Query α}
    (h : check options queries = .ok found) (hq : q ∈ queries) : found = some q.kind := by
  obtain ⟨kind, hfound, hvalid⟩ := valid_of_check h q hq
  rw [hfound, hvalid.1]

/-- No query of a batch in order asks for more neighbors than the options allow. -/
theorem k_le_of_check {queries : List (Query α)} {found : Option QueryKind}
    (h : check options queries = .ok found) :
    ∀ q ∈ queries, ∀ t, q = .nearest t → t.k ≤ options.neighborLimit := by
  rintro q hq t rfl
  obtain ⟨_, -, hvalid⟩ := valid_of_check h _ hq
  exact hvalid.bounds.2

/-- Ranks that do not agree blame their batches. -/
theorem fault_of_agree {announcements : List Announcement} {cause : SearchFault}
    (h : agree announcements = .error cause) : ∃ fault, cause = .batch fault := by
  rw [agree] at h
  split at h
  · exact ⟨_, (Except.error.inj h).symm⟩
  · rw [agreeOnKind] at h
    split at h
    · nomatch h
    · split at h
      · exact ⟨_, (Except.error.inj h).symm⟩
      · nomatch h

/-- Ranks that agree have the same options, and batches of the agreed kind unless these are
empty. -/
theorem same_of_agree {announcements : List Announcement} {agreed : Option QueryKind}
    (h : agree announcements = .ok agreed) :
    (∀ a ∈ announcements, ∀ b ∈ announcements, a.options = b.options) ∧
      ∀ a ∈ announcements, ∀ kind, a.kind = some kind → agreed = some kind := by
  rw [agree] at h
  split at h
  · nomatch h
  · rename_i hsame
    rw [List.findIdx?_eq_none_iff] at hsame
    constructor
    · intro a ha b hb
      obtain ⟨first, rest, rfl⟩ := List.exists_cons_of_ne_nil (List.ne_nil_of_mem ha)
      have hfirst : ∀ c ∈ first :: rest, first.options = c.options := by
        intro c hc
        simpa using hsame c hc
      rw [← hfirst a ha, ← hfirst b hb]
    · intro a ha kind hkind
      obtain ⟨rank, hrank⟩ := List.mem_iff_getElem?.mp ha
      have hmem : (rank, kind) ∈ submitted announcements := by
        refine List.mem_filterMap.mpr ⟨(a, rank), List.mem_zipIdx_iff_getElem?.mpr hrank, ?_⟩
        simp [hkind]
      rw [agreeOnKind] at h
      split at h
      · rename_i hnil
        rw [hnil] at hmem
        nomatch hmem
      · rename_i first firstKind rest hlist
        split at h
        · nomatch h
        · rename_i hrest
          rw [List.find?_eq_none] at hrest
          rw [hlist] at hmem
          rcases List.mem_cons.mp hmem with heq | hlater
          · obtain ⟨-, rfl⟩ := Prod.mk.inj heq
            exact (Except.ok.inj h).symm
          · have : kind = firstKind := by simpa using hrest _ hlater
            exact this ▸ (Except.ok.inj h).symm

/-- Ranks with the same options look at their kinds. -/
theorem agree_of_same {announcements : List Announcement}
    (h : ∀ a ∈ announcements, ∀ b ∈ announcements, a.options = b.options) :
    agree announcements = agreeOnKind announcements := by
  have hsame : announcements.findIdx?
      (fun a => announcements.head?.any (·.options != a.options)) = none := by
    refine List.findIdx?_eq_none_iff.mpr fun a ha => ?_
    cases hhead : announcements.head? with
    | none => rfl
    | some first => simp [h first (List.mem_of_mem_head? hhead) a ha]
  rw [agree, hsame]

/-- Ranks with the same options whose batches are of one kind agree. -/
theorem agree_eq (options : SearchOptions) (kind : QueryKind)
    (announcements : List Announcement)
    (hoptions : ∀ a ∈ announcements, a.options = options)
    (hkind : ∀ a ∈ announcements, a.kind = none ∨ a.kind = some kind) :
    (agree announcements = .ok (some kind) ∧ ∃ a ∈ announcements, a.kind = some kind) ∨
      agree announcements = .ok none ∧ ∀ a ∈ announcements, a.kind = none := by
  have hsubmitted : ∀ p ∈ submitted announcements,
      p.2 = kind ∧ ∃ a ∈ announcements, a.kind = some kind := by
    intro p hp
    obtain ⟨⟨a, rank⟩, ha, hp⟩ := List.mem_filterMap.mp hp
    dsimp only at hp
    have hmem := List.fst_mem_of_mem_zipIdx ha
    rcases hkind a hmem with hnone | hsome
    · rw [hnone] at hp
      nomatch hp
    · rw [hsome] at hp
      exact ⟨congrArg Prod.snd (Option.some.inj hp).symm, a, hmem, hsome⟩
  rw [agree_of_same fun a ha b hb => (hoptions a ha).trans (hoptions b hb).symm, agreeOnKind]
  cases hlist : submitted announcements with
  | nil =>
    refine Or.inr ⟨rfl, fun a ha => ?_⟩
    obtain ⟨rank, hrank⟩ := List.mem_iff_getElem?.mp ha
    have hnone := List.filterMap_eq_nil_iff.mp hlist (a, rank)
      (List.mem_zipIdx_iff_getElem?.mpr hrank)
    exact Option.map_eq_none_iff.mp hnone
  | cons first rest =>
    obtain ⟨rfl, hsome⟩ := hsubmitted first (hlist ▸ List.mem_cons_self)
    have hrest : rest.find? (·.2 != first.2) = none := by
      refine List.find?_eq_none.mpr fun p hp => ?_
      simpa using (hsubmitted p (hlist ▸ List.mem_cons_of_mem _ hp)).1
    dsimp only
    rw [hrest]
    exact Or.inl ⟨rfl, hsome⟩

end Batch

namespace PartitionedIndex

variable {α : Type} [Scalar α] {n : Nat}

theorem map_finRange_getElem {β : Type} (l : List β) :
    ((List.finRange l.length).map fun q => l[q]) = l :=
  List.ext_getElem (by simp) fun m _ _ => by simp

theorem mapM_eq_ok {ε β γ : Type} {f : β → Except ε γ} {l : List β} {g : Fin l.length → γ}
    (h : ∀ q, f l[q] = .ok (g q)) : l.mapM f = .ok ((List.finRange l.length).map g) := by
  have hmap : ((List.finRange l.length).map fun q => l[q]).mapM f =
      .ok ((List.finRange l.length).map g) := by
    rw [List.mapM_map, show (f ∘ fun q : Fin l.length => l[q]) = fun q => .ok (g q) from funext h]
    exact List.mapM_pure
  rwa [map_finRange_getElem] at hmap

theorem zip_map_finRange {β γ : Type} (l : List β) (f : Fin l.length → γ) :
    l.zip ((List.finRange l.length).map f) =
      (List.finRange l.length).map fun q => (l[q], f q) := by
  have hzip : ((List.finRange l.length).map fun q => l[q]).zip ((List.finRange l.length).map f) =
      (List.finRange l.length).map fun q => (l[q], f q) := List.zip_map'
  rwa [map_finRange_getElem] at hzip

def answerKind (x : PartitionedIndex α) (queries : List (Query α)) :
    QueryKind → Search α (HitTable α)
  | .nearest =>
    match x.options.method with
    | .refining => x.refine (nearestQueries queries)
    | .enclosing => x.enclose (nearestQueries queries)
  | _ => x.answerSpatial queries

omit [Scalar α] in
/-- All ranks conclude the same from what they announce, whatever they hold. -/
theorem passes_agree_of_seat {x : Fin n → PartitionedIndex α} (hseat : ∀ i, (x i).seat = ⟨n, i⟩)
    (kinds : Fin n → Option QueryKind) :
    Passes [.gather] (fun i => ((x i).agree (kinds i)).run)
      fun _ => Batch.agree (List.ofFn fun i => ⟨kinds i, (x i).options⟩) := by
  simp only [agree, hseat]
  exact ((Exchange.passes_gather Content.ofAnnouncements
    fun i => ⟨kinds i, (x i).options⟩).adapt _).bind (Passes.done _)

theorem passes_agree (shares : Fin n → Share α) (options : Fin n → SearchOptions)
    (kinds : Fin n → Option QueryKind) :
    Passes [.gather] (fun i => ((joint shares (options i) i).agree (kinds i)).run)
      fun _ => Batch.agree (List.ofFn fun i => ⟨kinds i, options i⟩) :=
  passes_agree_of_seat (fun _ => rfl) kinds

theorem together_agree {shares : Fin n → Share α} {options : SearchOptions}
    {kinds : Fin n → Option QueryKind} {agreed : Option QueryKind}
    (h : Batch.agree (List.ofFn fun i => ⟨kinds i, options⟩) = .ok agreed) :
    Together (fun i => (joint shares options i).agree (kinds i)) fun _ => agreed := by
  have hpasses := passes_agree shares (fun _ => options) kinds
  rw [h] at hpasses
  exact hpasses.together

/-- Valid batches of one kind are answered on all ranks, unless there are no queries at all. -/
theorem together_query_cases (shares : Fin n → Share α) (options : SearchOptions)
    {kind : QueryKind} {queries : Fin n → List (Query α)}
    (hvalid : ∀ i, ∀ q ∈ queries i, Batch.Valid options kind q) :
    ((∃ i, queries i ≠ []) ∧ ∀ tables,
      Together (fun i => (joint shares options i).answerKind (queries i) kind) tables →
        Together (fun i => (joint shares options i).query (queries i)) tables) ∨
      (∀ i, queries i = []) ∧
        Together (fun i => (joint shares options i).query (queries i)) fun _ => .empty 0 false := by
  let kinds : Fin n → Option QueryKind := fun i =>
    if (queries i).isEmpty then none else some kind
  have hcheck : ∀ i, Batch.check options (queries i) = .ok (kinds i) :=
    fun i => Batch.check_eq (hvalid i)
  have hagree := Batch.agree_eq options kind (List.ofFn fun i => ⟨kinds i, options⟩)
    (by simp [kinds]) (by grind)
  simp only [query, show ∀ i, (joint shares options i).options = options from fun _ => rfl,
    hcheck, Search.ofExcept_ok_bind]
  rcases hagree with ⟨hok, hsome⟩ | ⟨hok, hnone⟩
  · refine Or.inl ⟨?_, fun tables hanswer => ?_⟩
    · obtain ⟨a, ha, hkind⟩ := hsome
      obtain ⟨i, rfl⟩ := List.mem_ofFn.mp ha
      refine ⟨i, fun hnil => ?_⟩
      simp [kinds, hnil] at hkind
    · refine (together_agree hok).bind ?_
      cases kind <;> exact hanswer
  · have hnil : ∀ i, queries i = [] := by
      intro i
      have := hnone ⟨kinds i, options⟩ (List.mem_ofFn.mpr ⟨i, rfl⟩)
      simpa [kinds] using this
    refine Or.inr ⟨hnil, ?_⟩
    refine (together_agree hok).bind ?_
    simp only [hnil]
    exact (Passes.done _).together

theorem together_query (shares : Fin n → Share α) {options : SearchOptions} {kind : QueryKind}
    {queries : Fin n → List (Query α)}
    (hvalid : ∀ i, ∀ q ∈ queries i, Batch.Valid options kind q)
    {P : Fin n → HitTable α → Prop}
    (hblank : (∀ i, queries i = []) → ∀ i, P i (.empty 0 false))
    (hanswer : ∃ tables, Together (fun i => (joint shares options i).answerKind (queries i) kind)
      tables ∧ ∀ i, P i (tables i)) :
    ∃ tables, Together (fun i => (joint shares options i).query (queries i)) tables ∧
      ∀ i, P i (tables i) := by
  rcases together_query_cases shares options hvalid with ⟨-, hquery⟩ | ⟨hnil, hquery⟩
  · obtain ⟨tables, hbody, hP⟩ := hanswer
    exact ⟨tables, hquery tables hbody, hP⟩
  · exact ⟨_, hquery, hblank hnil⟩

omit [Scalar α] in
/-- The requests of a batch, query by query. -/
theorem requestsFrom_eq {β : Type} {m : Nat}
    {requests : Nat → β → Except IndexFault (List (Nat × Request α))} {items : Fin m → β}
    {expected : Fin m → List (Nat × Request α)} {number : Nat}
    (h : ∀ q, requests (number + q.val) (items q) = .ok (expected q)) :
    requestsFrom requests number ((List.finRange m).map items) =
      .ok ((List.finRange m).flatMap expected) := by
  induction m generalizing number with
  | zero => rfl
  | succ m ih =>
    have hfirst := h 0
    have hrest : requestsFrom requests (number + 1)
        ((List.finRange m).map fun q => items q.succ) =
          .ok ((List.finRange m).flatMap fun q => expected q.succ) := by
      refine ih fun q => ?_
      have := h q.succ
      rwa [Fin.val_succ, Nat.add_comm q.val, ← Nat.add_assoc] at this
    rw [List.finRange_succ, List.map_cons, List.map_map, requestsFrom, List.flatMap_cons,
      List.flatMap_map]
    rw [Fin.val_zero, Nat.add_zero] at hfirst
    rw [hfirst, show items ∘ Fin.succ = fun q => items q.succ from rfl, hrest]
    rfl

omit [Scalar α] in
/-- The answers to each query of a batch. -/
theorem deal_eq {m : Nat} {answers : List (Answer α)} (h : ∀ a ∈ answers, a.number < m) :
    deal m answers = pure ((List.finRange m).map fun q => answers.filter (·.number == q.val)) := by
  have hfind : answers.find? (m ≤ ·.number) = none := by
    simpa using h
  have hrange : List.range m = (List.finRange m).map Fin.val := by simp
  rw [deal, checkNumbers, hfind, hrange, List.map_map]
  exact pure_bind () _

def toHit (measured : Bool) (a : Answer α) : Hit α :=
  ⟨a.index, a.rank, if measured then some a.distance else none⟩

/-- Answers with the numbers of their queries, as a table takes them. -/
def numberedHits (measured : Bool) (answers : List (Answer α)) : List (Nat × Hit α) :=
  answers.map fun a => (a.number, toHit measured a)

theorem tabulate_eq_ofHits {m : Nat} {answers : List (Answer α)} (measured : Bool)
    (hsorted : answers.Pairwise (·.number ≤ ·.number)) (hlt : ∀ a ∈ answers, a.number < m) :
    tabulate m answers measured = pure (.ofHits m (numberedHits measured answers) measured) := by
  refine if_pos (HitTable.inOrder_of_pairwise (List.pairwise_map.mpr hsorted) ?_
    fun _ _ => Nat.zero_le _)
  intro h hh
  obtain ⟨a, ha, rfl⟩ := List.mem_map.mp hh
  exact hlt a ha

/-- The rows of answers in the order of their queries. -/
theorem tabulate_eq {m : Nat} {answers : List (Answer α)} (measured : Bool)
    (hsorted : answers.Pairwise (·.number ≤ ·.number)) (hlt : ∀ a ∈ answers, a.number < m) :
    ∃ table, tabulate m answers measured = pure table ∧ table.size = m ∧
      ∀ q < m, table.hits? q =
        some ((answers.filter (·.number == q)).map (toHit measured)) := by
  refine ⟨_, tabulate_eq_ofHits measured hsorted hlt, HitTable.size_ofHits, fun q hq => ?_⟩
  rw [numberedHits, HitTable.hits?_ofHits (List.pairwise_map.mpr hsorted) hq, List.filter_map,
    List.map_map]
  congr 1
  refine List.map_congr_left fun a _ => ?_
  cases measured <;> rfl

/-- Every rank joins its index with those of the others and then puts a batch of queries to
the whole. -/
def session (shares : Fin n → Share α) (options : SearchOptions)
    (queries : Fin n → List (Query α)) :
    Group n (Content α) (Except SearchFault (HitTable α)) where
  programs := .ofFn fun i => ExceptT.run do
    let x ← build ⟨n, i⟩ (shares i).index options
    x.query (queries i)
  mailboxes := .empty

/-- There is room for all requests that a rank can get and for all answers to each batch. -/
def Fits (shares : Fin n → Share α) (queries : Fin n → List (Query α)) : Prop :=
  ∑ i, (queries i).length < Count.room ∧
    ∀ i, ((queries i).map fun q => ∑ b, q.mostHits (shares b)).sum < Count.room

def Answered (P : Fin n → HitTable α → Prop)
    (g : Group n (Content α) (Except SearchFault (HitTable α))) : Prop :=
  ∀ i, ∃ table, g.programs.get i = .done (.ok table) ∧ P i table

def twoRanks : Fin 2 → Share Binary64 := fun i =>
  ⟨Index.twoPoints, if i = 0 then .tree else .scan⟩

theorem alwaysEnds_session {shares : Fin n → Share α} {options : SearchOptions}
    {queries : Fin n → List (Query α)} {tables : Fin n → HitTable α}
    (h : Together (fun i => (joint shares options i).query (queries i)) tables)
    {P : Fin n → HitTable α → Prop} (hP : ∀ i, P i (tables i)) :
    Group.AlwaysEnds (Answered P) (session shares options queries) := by
  have hsession := (passes_build shares fun _ => options).together.bind
    (q := fun i x => x.query (queries i)) h
  refine hsession.alwaysEnds fun i => ⟨tables i, ?_, hP i⟩
  rw [Group.programs_get_of]

end PartitionedIndex

end SpatialSearch
