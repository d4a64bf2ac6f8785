import SpatialSearch.Index.Assembly
import SpatialSearch.Index.Basic
import SpatialSearch.Proofs.Binary64Laws
import SpatialSearch.Proofs.Shortlist

/-!
# Searching one set of entries

A tree of boxes and a linear scan over the same entries give the same answers: to a spatial
query the entries that match it, to a nearest query the first candidates in their order.
`BoxNode.Bounding` is what pruning relies on, and every tree that is built has it; which
cuts the tree was built from does not matter.
-/

namespace SpatialSearch

open LawfulScalar

namespace Entry

variable {α : Type} [Scalar α] [LawfulScalar α]

def AllNumeric (entries : List (Entry α)) : Prop := ∀ e ∈ entries, e.box.Numeric

instance (entries : List (Entry α)) : Decidable (AllNumeric entries) :=
  inferInstanceAs (Decidable (∀ e ∈ entries, _))

omit [LawfulScalar α] in
theorem AllNumeric.boxes {entries : List (Entry α)} (h : AllNumeric entries) :
    ∀ b ∈ entries.map (·.box), b.Numeric :=
  List.forall_mem_map.mpr h

omit [LawfulScalar α] in
theorem AllNumeric.of_perm {l m : List (Entry α)} (hl : AllNumeric l) (hp : m.Perm l) :
    AllNumeric m :=
  fun e he => hl e (hp.subset he)

theorem bounds_encloses {entries : List (Entry α)} (h : AllNumeric entries) {e : Entry α}
    (he : e ∈ entries) : (bounds entries).Encloses e.box :=
  Box.unionAll_encloses h.boxes e.box (List.mem_map_of_mem he)

end Entry

namespace BoxNode

variable {α : Type} [Scalar α] [LawfulScalar α]

/-- The box of every subtree encloses the boxes of the entries below it. -/
def Bounding : BoxNode α → Prop
  | leaf b _ => b.Numeric
  | branch b left right =>
    (∀ e ∈ left.leaves ++ right.leaves, b.Encloses e.box) ∧ left.Bounding ∧ right.Bounding

theorem Bounding.encloses {node : BoxNode α} (h : node.Bounding) {e : Entry α}
    (he : e ∈ node.leaves) : node.box.Encloses e.box := by
  cases node with
  | leaf b i =>
    rw [List.mem_singleton.mp he]
    exact Box.Numeric.encloses_self h
  | branch b left right => exact h.1 e he

end BoxNode

namespace SplitRule

variable {α : Type} [Scalar α] [LawfulScalar α]

/-- Whichever way entries are divided, they are the leaves, and every box encloses what is
below it. -/
theorem grow_spec (rule : SplitRule α) (entries : List (Entry α))
    (h : 0 < entries.length) (hnum : Entry.AllNumeric entries) :
    (rule.grow entries h).Bounding ∧ (rule.grow entries h).leaves.Perm entries := by
  fun_induction grow rule entries h with
  | case1 entries h h2 ihleft ihright =>
    have hp := rule.perm entries
    have hall := Entry.AllNumeric.of_perm hnum hp
    obtain ⟨hbl, hpl⟩ := ihleft fun e he => hall e (List.mem_append_left _ he)
    obtain ⟨hbr, hpr⟩ := ihright fun e he => hall e (List.mem_append_right _ he)
    have hleaves := (hpl.append hpr).trans hp
    exact ⟨⟨fun e he => Entry.bounds_encloses hnum (hleaves.subset he), hbl, hbr⟩, hleaves⟩
  | case2 entries h h2 =>
    obtain ⟨e, rfl⟩ : ∃ e, entries = [e] := List.length_eq_one_iff.mp (by omega)
    have hbox : Entry.bounds [e] = e.box := Box.empty_union (hnum e List.mem_cons_self)
    constructor
    · rw [BoxNode.Bounding, hbox]
      exact hnum e List.mem_cons_self
    · rw [BoxNode.leaves, hbox]
      exact .refl _

end SplitRule

namespace BoxNode

variable {α : Type} [Scalar α] [LawfulScalar α]

theorem build_spec (entries : List (Entry α)) (h : 0 < entries.length)
    (hnum : Entry.AllNumeric entries) :
    (build entries h).Bounding ∧ (build entries h).leaves.Perm entries := by
  rw [← SplitRule.grow_cheapest]
  exact SplitRule.cheapest.grow_spec entries h hnum

/-- The pruned walk meets the matching entries and no others, each as often as it occurs. -/
theorem visit_perm {node : BoxNode α} (h : node.Bounding) (q : Query α) :
    (node.visit q).Perm (node.leaves.filter fun e => q.accepts e.box) := by
  induction node with
  | leaf b i =>
    rw [visit, leaves, List.filter_singleton]
    cases q.accepts b <;> exact .refl _
  | branch b left right ihleft ihright =>
    obtain ⟨hall, hleft, hright⟩ := h
    rw [visit, leaves, List.filter_append]
    by_cases hb : q.accepts b
    · rw [if_pos hb]
      exact ((ihright hright).append (ihleft hleft)).trans List.perm_append_comm
    · have hnone : (left.leaves ++ right.leaves).filter (fun e => q.accepts e.box) = [] :=
        List.filter_eq_nil_iff.mpr fun e he hacc =>
          hb (Query.accepts_of_encloses q (hall e he) hacc)
      rw [if_neg hb, ← List.filter_append, hnone]

/-- Whatever is kept when a subtree is entered, afterwards its candidates have been seen. -/
theorem nearest_keeps {node : BoxNode α} (h : node.Bounding) (target : Point α)
    {k capacity : Nat} (hk : 0 < k) (hroom : k ≤ capacity) {queue : NeighborHeap α}
    {seen : List (Neighbor α)} (hq : NearestPass.Keeps k capacity queue seen) :
    ∃ next, ExceptT.run (node.nearest target k) queue = (.ok (), next) ∧
      NearestPass.Keeps k capacity next (seen ++ Entry.candidates target node.leaves) := by
  induction node generalizing queue seen with
  | leaf b i =>
    rw [nearest, NearestPass.run_bind, NearestPass.run_promising]
    dsimp only
    split
    · rename_i hgood
      have hne : b.isEmpty = false := by
        rw [Bool.and_eq_true, Bool.not_eq_true'] at hgood
        exact hgood.1
      have hcand : Entry.candidates target (leaf b i).leaves = [⟨b.distance target, i⟩] := by
        simp [Entry.candidates, leaves, hne]
      rw [hcand]
      exact hq.consider hk hroom _
    · rename_i hbad
      exact ⟨queue, rfl, hq.pass_over (fun e he => h.encloses he) (Bool.eq_false_iff.mpr hbad)⟩
  | branch b left right ihleft ihright =>
    obtain ⟨hall, hleft, hright⟩ := h
    rw [nearest, NearestPass.run_bind, NearestPass.run_promising]
    dsimp only
    split
    · rw [leaves, Entry.candidates_append]
      split
      · obtain ⟨mid, hmid, hkmid⟩ := ihleft hleft hq
        obtain ⟨last, hlast, hklast⟩ := ihright hright hkmid
        rw [NearestPass.run_bind, hmid]
        exact ⟨last, hlast, List.append_assoc seen _ _ ▸ hklast⟩
      · obtain ⟨mid, hmid, hkmid⟩ := ihright hright hq
        obtain ⟨last, hlast, hklast⟩ := ihleft hleft hkmid
        rw [NearestPass.run_bind, hmid]
        refine ⟨last, hlast, hklast.of_perm ?_⟩
        rw [List.append_assoc]
        exact List.perm_append_comm.append_left seen
    · rename_i hbad
      exact ⟨queue, rfl, hq.pass_over hall (Bool.eq_false_iff.mpr hbad)⟩

/-! ### Any boxes

Coordinates that are not numbers can spoil an answer, but a search over them does not fail and
does not report an entry twice. -/

omit [LawfulScalar α] in
theorem length_leaves_build (entries : List (Entry α)) (h : 0 < entries.length) :
    (build entries h).leaves.length = entries.length := by
  fun_induction build entries h with
  | case1 entries h h2 ihleft ihright =>
    rw [leaves, List.length_append, ihleft, ihright, ← List.length_append]
    exact (Split.append_perm entries).length_eq
  | case2 entries h h2 =>
    rw [leaves, List.length_singleton]
    omega

omit [LawfulScalar α] in
theorem length_visit_le (node : BoxNode α) (q : Query α) :
    (node.visit q).length ≤ node.leaves.length := by
  induction node with
  | leaf b i =>
    rw [visit]
    split
    · exact Nat.le_refl _
    · exact Nat.zero_le _
  | branch b left right ihleft ihright =>
    rw [visit, leaves, List.length_append]
    split
    · rw [List.length_append]
      omega
    · exact Nat.zero_le _

/-- Whatever the boxes, the entries of a subtree are seen without a failure, each at most
once. -/
theorem nearest_succeeds (node : BoxNode α) (target : Point α) {k capacity : Nat} (hk : 0 < k)
    (hroom : k ≤ capacity) {queue : NeighborHeap α} {seen : List (Neighbor α)}
    (hq : NearestPass.Keeps k capacity queue seen) :
    ∃ next more, ExceptT.run (node.nearest target k) queue = (.ok (), next) ∧
      NearestPass.Keeps k capacity next (seen ++ more) ∧ more.length ≤ node.leaves.length := by
  induction node generalizing queue seen with
  | leaf b i =>
    rw [nearest, NearestPass.run_bind, NearestPass.run_promising]
    dsimp only
    split
    · obtain ⟨next, hnext, hkeeps⟩ := hq.consider hk hroom ⟨b.distance target, i⟩
      exact ⟨next, _, hnext, hkeeps, Nat.le_refl _⟩
    · exact ⟨queue, [], rfl, (List.append_nil seen).symm ▸ hq, Nat.zero_le _⟩
  | branch b left right ihleft ihright =>
    rw [nearest, NearestPass.run_bind, NearestPass.run_promising]
    dsimp only
    rw [leaves, List.length_append]
    split
    · split
      · obtain ⟨mid, first, hmid, hkmid, hfirst⟩ := ihleft hq
        obtain ⟨last, second, hlast, hklast, hsecond⟩ := ihright hkmid
        rw [NearestPass.run_bind, hmid]
        refine ⟨last, first ++ second, hlast, List.append_assoc seen _ _ ▸ hklast, ?_⟩
        rw [List.length_append]
        omega
      · obtain ⟨mid, first, hmid, hkmid, hfirst⟩ := ihright hq
        obtain ⟨last, second, hlast, hklast, hsecond⟩ := ihleft hkmid
        rw [NearestPass.run_bind, hmid]
        refine ⟨last, first ++ second, hlast, List.append_assoc seen _ _ ▸ hklast, ?_⟩
        rw [List.length_append]
        omega
    · exact ⟨queue, [], rfl, (List.append_nil seen).symm ▸ hq, Nat.zero_le _⟩

end BoxNode

namespace BoxTree

variable {α : Type} [Scalar α]

theorem root_ofEntries {entries : List (Entry α)} (h : 0 < entries.length) :
    (ofEntries entries).root = some (.build entries h) := by
  simp only [ofEntries, dif_pos h]

end BoxTree

namespace LinearScan

variable {α : Type} [Scalar α] [LawfulScalar α]

omit [LawfulScalar α] in
theorem nearest_cons (e : Entry α) (rest : List (Entry α)) (target : Point α) (k : Nat) :
    LinearScan.nearest ⟨e :: rest⟩ target k =
      (if e.box.isEmpty then pure () else
        NearestPass.consider k ⟨e.box.distance target, e.index⟩) >>= fun _ =>
          LinearScan.nearest ⟨rest⟩ target k := rfl

omit [LawfulScalar α] in
/-- A scan offers its candidates as one stream. -/
theorem nearest_eq_considerAll (entries : List (Entry α)) (target : Point α) (k : Nat) :
    LinearScan.nearest ⟨entries⟩ target k =
      NearestPass.considerAll k (Entry.candidates target entries) := by
  induction entries with
  | nil => rfl
  | cons e rest ih =>
    rw [nearest_cons, ih]
    by_cases hempty : e.box.isEmpty = true
    · have hskipped : Entry.candidates target (e :: rest) = Entry.candidates target rest := by
        simp [Entry.candidates, hempty]
      rw [if_pos hempty, hskipped]
      rfl
    · have hoffered : Entry.candidates target (e :: rest) =
          ⟨e.box.distance target, e.index⟩ :: Entry.candidates target rest := by
        simp [Entry.candidates, hempty]
      rw [if_neg hempty, hoffered]
      rfl

theorem nearest_keeps (entries : List (Entry α)) (target : Point α) {k capacity : Nat}
    (hk : 0 < k) (hroom : k ≤ capacity) {queue : NeighborHeap α} {seen : List (Neighbor α)}
    (hq : NearestPass.Keeps k capacity queue seen) :
    ∃ next, ExceptT.run (LinearScan.nearest ⟨entries⟩ target k) queue = (.ok (), next) ∧
      NearestPass.Keeps k capacity next (seen ++ Entry.candidates target entries) := by
  rw [nearest_eq_considerAll]
  exact hq.considerAll hk hroom _

end LinearScan

namespace Query

variable {α : Type} [Scalar α]

/-- How an entry is reported: an overlap has the distance zero, every other hit its distance
from the center or the target. -/
def report (q : Query α) (e : Entry α) : Neighbor α :=
  match q with
  | overlapping _ => ⟨0, e.index⟩
  | touching ball => ⟨e.box.distance ball.center, e.index⟩
  | nearest n => ⟨e.box.distance n.target, e.index⟩

end Query

namespace Index

variable {α : Type} [Scalar α] [LawfulScalar α]

omit [LawfulScalar α] in
@[simp] theorem size_ofEntries (entries : List (Entry α)) (kind : IndexKind) :
    (ofEntries entries kind).size = entries.length := by cases kind <;> rfl

omit [LawfulScalar α] in
@[simp] theorem nonEmptySize_ofEntries (entries : List (Entry α)) (kind : IndexKind) :
    (ofEntries entries kind).nonEmptySize = Entry.countNonEmpty entries := by
  cases kind <;> rfl

omit [LawfulScalar α] in
@[simp] theorem bounds_ofEntries (entries : List (Entry α)) (kind : IndexKind) :
    (ofEntries entries kind).bounds = Entry.bounds entries := by
  cases kind with
  | scan => rfl
  | tree =>
    by_cases hpos : 0 < entries.length
    · rw [ofEntries, bounds, BoxTree.bounds, BoxTree.root_ofEntries hpos, Option.elim_some,
        BoxNode.build]
      split <;> rfl
    · rw [List.length_eq_zero_iff.mp (Nat.eq_zero_of_not_pos hpos)]
      rfl

/-- Both kinds of index find the matching entries, each as often as it occurs. -/
theorem matching_perm {entries : List (Entry α)} (hnum : Entry.AllNumeric entries)
    (kind : IndexKind) {q : Query α} (hq : q.isSpatial = true) :
    ∃ hits, (ofEntries entries kind).matching q = .ok hits ∧
      hits.Perm (entries.filter fun e => q.accepts e.box) := by
  rw [matching.eq_def, if_pos hq]
  refine ⟨_, rfl, ?_⟩
  cases kind with
  | scan => exact .refl _
  | tree =>
    change (BoxTree.visit (.ofEntries entries) q).Perm _
    by_cases hpos : 0 < entries.length
    · have hroot := BoxTree.root_ofEntries hpos
      obtain ⟨hbound, hleaves⟩ := BoxNode.build_spec entries hpos hnum
      rw [BoxTree.visit, hroot, Option.elim_some]
      exact (BoxNode.visit_perm hbound q).trans (hleaves.filter _)
    · have hnil : entries = [] := List.length_eq_zero_iff.mp (Nat.eq_zero_of_not_pos hpos)
      subst hnil
      exact .refl _

omit [LawfulScalar α] in
theorem answer_eq {i : Index α} {q : Query α} (hq : q.isSpatial = true) {hits : List (Entry α)}
    (h : i.matching q = .ok hits) : i.answer q = .ok (hits.map q.report) := by
  cases q with
  | nearest n => nomatch hq
  | overlapping box =>
    rw [answer, h]
    rfl
  | touching ball =>
    rw [answer, h]
    rfl

/-- The pass of either kind of index sees the candidates of all entries. -/
theorem nearestInto_eq {entries : List (Entry α)} (hnum : Entry.AllNumeric entries)
    (kind : IndexKind) (target : Point α) {k : Nat} (hk : 0 < k) (scratch : Scratch α)
    (hroom : k ≤ scratch.queue.capacity) :
    (ofEntries entries kind).nearestInto target k scratch = (.ok (),
      ⟨scratch.queue.clear, scratch.found ++
        Ranking.firsts Neighbor.order k (Entry.candidates target entries)⟩) := by
  have hstart := fun k => NearestPass.keeps_clear k scratch.queue
  cases kind with
  | scan =>
    obtain ⟨next, hnext, hkeeps⟩ :=
      LinearScan.nearest_keeps entries target hk hroom (hstart k)
    exact NearestPass.run_eq hk hroom hnext hkeeps
  | tree =>
    by_cases hpos : 0 < entries.length
    · have hroot := BoxTree.root_ofEntries hpos
      obtain ⟨hbound, hleaves⟩ := BoxNode.build_spec entries hpos hnum
      obtain ⟨next, hnext, hkeeps⟩ := BoxNode.nearest_keeps hbound target
        (k := min k entries.length) (by omega) (by omega) (hstart _)
      have hpass : ExceptT.run ((BoxTree.ofEntries entries).nearest target k)
          scratch.queue.clear = (.ok (), next) := by
        rw [BoxTree.nearest, hroot]
        exact hnext
      rw [← Ranking.firsts_min (Entry.length_candidates_le target entries)]
      exact NearestPass.run_eq hk hroom hpass
        (hkeeps.of_perm (Entry.candidates_perm target hleaves))
    · have hnil : entries = [] := List.length_eq_zero_iff.mp (Nat.eq_zero_of_not_pos hpos)
      subst hnil
      exact NearestPass.run_eq hk hroom rfl (hstart k)

theorem nearest_eq {entries : List (Entry α)} (hnum : Entry.AllNumeric entries)
    (kind : IndexKind) (target : Point α) {k : Nat} (hk : 0 < k) :
    (ofEntries entries kind).nearest target k =
      .ok (Ranking.firsts Neighbor.order k (Entry.candidates target entries)) := by
  rw [nearest, if_neg (Nat.ne_of_gt hk), size_ofEntries]
  by_cases hlen : entries.length = 0
  · rw [if_pos hlen, List.length_eq_zero_iff.mp hlen]
    simp [Entry.candidates, Ranking.firsts, Ranking.sort]
  · rw [if_neg hlen]
    dsimp only
    rw [nearestInto_eq hnum kind target (k := min k entries.length) (by omega)
      ⟨.empty (min k entries.length), []⟩ (Nat.le_refl _)]
    dsimp only
    rw [List.nil_append, Ranking.firsts_min (Entry.length_candidates_le target entries)]
    rfl

omit [LawfulScalar α] in
/-- Whatever the boxes, a spatial query has an answer, which reports no entry twice. -/
theorem matching_succeeds (entries : List (Entry α)) (kind : IndexKind) {q : Query α}
    (hq : q.isSpatial = true) : ∃ hits, (ofEntries entries kind).matching q = .ok hits ∧
      hits.length ≤ entries.length := by
  rw [matching.eq_def, if_pos hq]
  refine ⟨_, rfl, ?_⟩
  cases kind with
  | scan => exact List.length_filter_le ..
  | tree =>
    change (BoxTree.visit (.ofEntries entries) q).length ≤ _
    by_cases hpos : 0 < entries.length
    · rw [BoxTree.visit, BoxTree.root_ofEntries hpos, Option.elim_some]
      exact (BoxNode.length_visit_le _ q).trans
        (Nat.le_of_eq (BoxNode.length_leaves_build entries hpos))
    · simp [BoxTree.visit, BoxTree.ofEntries, hpos]

/-- Whatever the boxes, a nearest query has an answer, which reports no entry twice. -/
theorem nearestInto_succeeds (entries : List (Entry α)) (kind : IndexKind) (target : Point α)
    {k : Nat} (hk : 0 < k) (scratch : Scratch α) (hroom : k ≤ scratch.queue.capacity) :
    ∃ found, (ofEntries entries kind).nearestInto target k scratch =
      (.ok (), ⟨scratch.queue.clear, scratch.found ++ found⟩) ∧
        found.length ≤ min k entries.length := by
  have hstart := fun k => NearestPass.keeps_clear k scratch.queue
  cases kind with
  | scan =>
    obtain ⟨next, hnext, hkeeps⟩ :=
      LinearScan.nearest_keeps entries target hk hroom (hstart k)
    refine ⟨_, NearestPass.run_eq hk hroom hnext hkeeps, ?_⟩
    have hle := Entry.length_candidates_le target entries
    rw [Ranking.length_firsts, List.nil_append]
    omega
  | tree =>
    by_cases hpos : 0 < entries.length
    · obtain ⟨next, more, hnext, hkeeps, hmore⟩ := BoxNode.nearest_succeeds
        (BoxNode.build entries hpos) target (k := min k entries.length) (by omega) (by omega)
        (hstart _)
      have hpass : ExceptT.run ((BoxTree.ofEntries entries).nearest target k)
          scratch.queue.clear = (.ok (), next) := by
        rw [BoxTree.nearest, BoxTree.root_ofEntries hpos]
        exact hnext
      refine ⟨_, NearestPass.run_eq hk hroom hpass hkeeps, ?_⟩
      rw [Ranking.length_firsts]
      omega
    · have hnil : entries = [] := List.length_eq_zero_iff.mp (Nat.eq_zero_of_not_pos hpos)
      subst hnil
      exact ⟨_, NearestPass.run_eq hk hroom rfl (hstart k), by simp [Ranking.length_firsts]⟩

def reported (entries : List (Entry α)) (target : Point α) (k : Nat) : List (Neighbor α) :=
  (Neighbor.sort (Entry.candidates target entries)).take (min k (Entry.countNonEmpty entries))

omit [LawfulScalar α] in
theorem firsts_candidates (entries : List (Entry α)) (target : Point α) (k : Nat) :
    Ranking.firsts Neighbor.order k (Entry.candidates target entries) =
      reported entries target k := by
  rw [reported, Neighbor.sort_eq]
  exact (Ranking.firsts_min (Nat.le_of_eq (Entry.length_candidates target entries))).symm

/-- Both kinds of index report the same neighbors, whatever scratch space they are lent, and
an index that makes its own space reports them too. -/
theorem nearest_exact {entries : List (Entry α)} (hnum : Entry.AllNumeric entries)
    (kind : IndexKind) (target : Point α) {k : Nat} (hk : 0 < k) :
    (reported entries target k).length = min k (ofEntries entries kind).nonEmptySize ∧
      (∀ scratch : Scratch α, k ≤ scratch.queue.capacity →
        (ofEntries entries kind).nearestInto target k scratch =
          (.ok (), ⟨scratch.queue.clear, scratch.found ++ reported entries target k⟩)) ∧
      (ofEntries entries kind).nearest target k = .ok (reported entries target k) := by
  refine ⟨?_, fun scratch hroom => ?_, ?_⟩
  · rw [← firsts_candidates, Ranking.length_firsts, Entry.length_candidates,
      nonEmptySize_ofEntries]
  · rw [nearestInto_eq hnum kind target hk scratch hroom, firsts_candidates]
  · rw [nearest_eq hnum kind target hk, firsts_candidates]

/-- The pruned walk and the scan find the same entries for a spatial query, each as often as it
occurs, and report the same neighbors. -/
theorem spatial_exact {entries : List (Entry α)} (hnum : Entry.AllNumeric entries)
    (kind : IndexKind) {q : Query α} (hq : q.isSpatial = true) :
    (∃ hits, (ofEntries entries kind).matching q = .ok hits ∧
      hits.Perm (entries.filter fun e => q.accepts e.box)) ∧
      ∃ found, (ofEntries entries kind).answer q = .ok found ∧
        found.Perm ((entries.filter fun e => q.accepts e.box).map q.report) := by
  obtain ⟨hits, hmatch, hperm⟩ := matching_perm hnum kind hq
  exact ⟨⟨hits, hmatch, hperm⟩, _, answer_eq hq hmatch, hperm.map _⟩

/-- A box that is inverted along the first axis, twice under one index, and the canonical empty
box. -/
def invertedBoxes : List (Entry Binary64) :=
  let inverted : Box Binary64 := ⟨⟨.half, 0, 0⟩, .origin⟩
  [⟨4, inverted⟩, ⟨4, inverted⟩, ⟨7, .empty⟩]

theorem spatial_exact_invertedBoxes :
    let q : Query Binary64 := .overlapping ⟨.origin, ⟨.half, .half, .half⟩⟩
    Entry.AllNumeric invertedBoxes ∧ q.isSpatial = true ∧
      (∃ hits, (ofEntries invertedBoxes .tree).matching q = .ok hits ∧
        hits.Perm (invertedBoxes.filter fun e => q.accepts e.box)) ∧
        ∃ found, (ofEntries invertedBoxes .tree).answer q = .ok found ∧
          found.Perm ((invertedBoxes.filter fun e => q.accepts e.box).map q.report) := by
  intro q
  have hnum : Entry.AllNumeric invertedBoxes := by decide
  have hq : q.isSpatial = true := rfl
  exact ⟨hnum, hq, spatial_exact hnum .tree hq⟩

def twoPoints : List (Entry Binary64) :=
  Entry.number [.ofPoint .origin, .ofPoint ⟨.half, .half, .half⟩, .empty]

theorem nearest_exact_twoPoints : Entry.AllNumeric twoPoints ∧ 0 < 3 ∧
    (reported twoPoints .origin 3).length = min 3 (ofEntries twoPoints .tree).nonEmptySize ∧
      (∀ scratch : Scratch Binary64, 3 ≤ scratch.queue.capacity →
        (ofEntries twoPoints .tree).nearestInto .origin 3 scratch =
          (.ok (), ⟨scratch.queue.clear, scratch.found ++ reported twoPoints .origin 3⟩)) ∧
      (ofEntries twoPoints .tree).nearest .origin 3 = .ok (reported twoPoints .origin 3) := by
  have hnum : Entry.AllNumeric twoPoints := by decide
  have hk : 0 < 3 := by decide
  exact ⟨hnum, hk, nearest_exact hnum .tree .origin hk⟩

end Index

end SpatialSearch
