import SpatialSearch.PartitionedIndex.Nearest
import SpatialSearch.Proofs.Rounds

/-!
# Neighbors on all ranks

The neighbors that all ranks together have to offer, and what may be left out of them
without a change to the first `k`: what is farther away than a limit within which there are
`k` others. The limits of the two methods of nearest queries are of this kind.
-/

namespace SpatialSearch

open LawfulScalar

/-- A neighbor and the rank on which it lies. -/
structure Located (α : Type) where
  distance : α
  index : Nat
  rank : Nat

namespace Located

variable {α : Type} [Scalar α]

def order (a b : Located α) : Ordering :=
  ((Scalar.totalOrder a.distance b.distance).then (compare a.index b.index)).then
    (compare a.rank b.rank)

def toHit (l : Located α) : Hit α := ⟨l.index, l.rank, some l.distance⟩

def toAnswer (number : Nat) (l : Located α) : Answer α := ⟨number, l.index, l.rank, l.distance⟩

def onRank (rank : Nat) (c : Neighbor α) : Located α := ⟨c.distance, c.index, rank⟩

variable [LawfulScalar α]

instance : Std.TransCmp (order (α := α)) :=
  have : Std.TransCmp fun a b : Located α => Scalar.totalOrder a.distance b.distance :=
    Ranking.transCmp_on Scalar.totalOrder Located.distance
  inferInstanceAs <| Std.TransCmp <| compareLex (compareLex
    (fun a b : Located α => Scalar.totalOrder a.distance b.distance) (compareOn (·.index)))
    (compareOn (·.rank))

instance : Std.LawfulEqCmp (order (α := α)) where
  eq_of_compare {a b} h := by
    obtain ⟨hfirst, hr⟩ := Ordering.then_eq_eq.mp h
    obtain ⟨hd, hi⟩ := Ordering.then_eq_eq.mp hfirst
    have hdist : a.distance = b.distance := Std.LawfulEqCmp.eq_of_compare hd
    have hindex : a.index = b.index := Std.LawfulEqCmp.eq_of_compare hi
    have hrank : a.rank = b.rank := Std.LawfulEqCmp.eq_of_compare hr
    cases a
    cases b
    simp_all

omit [LawfulScalar α] in
theorem order_onRank (rank : Nat) (a b : Neighbor α) :
    (onRank rank a).order (onRank rank b) = a.order b := by
  simp [order, onRank, Neighbor.order]

theorem isLE_of_distance_lt {a b : Located α} (h : a.distance < b.distance) :
    (a.order b).isLE := by
  rw [order, totalOrder_of_lt h]
  rfl

theorem le_of_isLE {a b : Located α} (ha : Scalar.isNaN a.distance = false)
    (hb : Scalar.isNaN b.distance = false) (h : (a.order b).isLE) : a.distance ≤ b.distance := by
  refine Scalar.le_of_isLE ha hb ?_
  rw [order] at h
  cases hd : Scalar.totalOrder a.distance b.distance with
  | gt =>
    rw [hd] at h
    nomatch h
  | _ => rfl

end Located

namespace Share

variable {α : Type} [Scalar α]

def located (s : Share α) (target : Point α) (rank : Nat) : List (Located α) :=
  (Entry.candidates target s.entries).map (Located.onRank rank)

end Share

namespace Ranking

variable {β γ : Type} {cmp : β → β → Ordering}

variable (cmp) in
theorem countP_firsts_le (k : Nat) (l : List β) (p : β → Bool) :
    (firsts cmp k l).countP p ≤ l.countP p := by
  have hperm : (sort cmp l).Perm l := sort_perm l
  rw [← hperm.countP_eq]
  exact (List.take_sublist k _).countP_le

theorem countP_flatMap_le {l : List γ} {f g : γ → List β} {p : β → Bool}
    (h : ∀ c ∈ l, (f c).countP p ≤ (g c).countP p) :
    (l.flatMap f).countP p ≤ (l.flatMap g).countP p := by
  rw [List.countP_flatMap, List.countP_flatMap]
  exact List.sum_le_sum h

variable [Std.TransCmp cmp] [Std.LawfulEqCmp cmp]

/-- What is dropped from several lists is not among the first `k` if `k` others come before
it. -/
theorem firsts_flatMap_of_count (dropped : γ → List β) {k : Nat} {parts : List γ}
    {f kept : γ → List β}
    (hperm : ∀ c ∈ parts, (kept c ++ dropped c).Perm (f c))
    (hcount : ∀ c ∈ parts, ∀ x ∈ dropped c,
      k ≤ (parts.flatMap kept).countP fun a => (cmp a x).isLE) :
    firsts cmp k (parts.flatMap kept) = firsts cmp k (parts.flatMap f) := by
  have hall : (parts.flatMap kept ++ parts.flatMap dropped).Perm (parts.flatMap f) :=
    (List.flatMap_append_perm parts kept dropped).trans (List.Perm.flatMap_left parts hperm)
  rw [← firsts_congr k hall, firsts_append_of_count]
  intro x hx
  obtain ⟨c, hc, hxc⟩ := List.mem_flatMap.mp hx
  exact hcount c hc x hxc

end Ranking

namespace Share

variable {α : Type} [Scalar α] [LawfulScalar α] {s : Share α}

theorem isNaN_of_mem_located {target : Point α} {rank : Nat} {l : Located α}
    (h : l ∈ s.located target rank) : Scalar.isNaN l.distance = false := by
  obtain ⟨c, hc, rfl⟩ := List.mem_map.mp h
  obtain ⟨e, -, -, rfl⟩ := Entry.mem_candidates.mp hc
  exact Box.isNaN_distance e.box target

/-- The first neighbors on a rank within a limit. -/
theorem filter_firsts_located (target : Point α) (rank k : Nat) (limit : α) :
    (Ranking.firsts Located.order k (s.located target rank)).filter (·.distance ≤ limit) =
      Ranking.firsts Located.order k
        ((s.located target rank).filter (·.distance ≤ limit)) := by
  refine Ranking.filter_firsts k fun a ha b hab hb => ?_
  have hlimit := of_decide_eq_true hb
  exact decide_eq_true
    (le_trans (Located.le_of_isLE (isNaN_of_mem_located ha) (isNaN_of_le hlimit).1 hab) hlimit)

end Share

namespace Roster

variable {α : Type} [Scalar α] {n : Nat}

def near (shares : Fin n → Share α) (target : Point α) (limit : α) : List (Fin n) :=
  (worth shares).filter fun b =>
    (Query.touching ⟨target, limit⟩).accepts (shares b).holdings.bounds

variable [LawfulScalar α] {shares : Fin n → Share α}

/-- A rank that is not near has nothing to offer within the limit. -/
theorem filter_located_of_not_near (hshares : ∀ b, (shares b).AllNumeric) {target : Point α}
    {limit : α} {b : Fin n} (hb : b ∉ near shares target limit) :
    ((shares b).located target b).filter (·.distance ≤ limit) = [] := by
  refine List.filter_eq_nil_iff.mpr fun l hl hle => hb ?_
  obtain ⟨c, hc, rfl⟩ := List.mem_map.mp hl
  obtain ⟨e, he, hne, -⟩ := Entry.mem_candidates.mp hc
  have hbounds := (Share.encloses (hshares b) he).isEmpty hne
  refine List.mem_filter.mpr ⟨?_, ?_⟩
  · exact (mem_worth shares).mpr (Share.isSearchable_of_mem (hshares b) he hne)
  · rw [Query.accepts_touching_iff]
    exact ⟨hbounds, le_trans (Share.distance_bounds_le (hshares b) hc) (of_decide_eq_true hle)⟩

end Roster

namespace Located

variable {α : Type} [Scalar α] {n : Nat}

def all (shares : Fin n → Share α) (target : Point α) : List (Located α) :=
  (List.finRange n).flatMap fun b => (shares b).located target b

/-- What a rank sends back if it is asked. -/
def sent (shares : Fin n → Share α) (target : Point α) (k : Nat) (limit : α) (b : Fin n) :
    List (Located α) :=
  (Ranking.firsts order k ((shares b).located target b)).filter (·.distance ≤ limit)

def sentBy (shares : Fin n → Share α) (target : Point α) (k : Nat) (limit : α)
    (asked : List (Fin n)) : List (Located α) :=
  (List.finRange n).flatMap fun b => if b ∈ asked then sent shares target k limit b else []

/-- The limit that neighbors set for further ones: the distance of the last of `k`. -/
def lastDistance (k : Nat) (found : List (Located α)) : α :=
  found[k - 1]?.elim Scalar.infinity (·.distance)

def foundBy (shares : Fin n → Share α) (room : Nat) (r : Request α) (asked : List (Fin n)) :
    List (Located α) :=
  (List.finRange n).flatMap fun b =>
    if b ∈ asked then ((shares b).hits room r).map (onRank b) else []

theorem foundBy_nil (shares : Fin n → Share α) (room : Nat) (r : Request α) :
    foundBy shares room r [] = [] :=
  List.flatMap_eq_nil_iff.mpr fun _ _ => if_neg List.not_mem_nil

theorem sentBy_nil (shares : Fin n → Share α) (target : Point α) (k : Nat) (limit : α) :
    sentBy shares target k limit [] = [] :=
  List.flatMap_eq_nil_iff.mpr fun _ _ => if_neg List.not_mem_nil

variable [LawfulScalar α] {shares : Fin n → Share α}

/-- Ranks with numeric boxes find their first neighbors within the limit of a request. -/
theorem foundBy_eq (hshares : ∀ b, (shares b).AllNumeric) {room : Nat} {t : NearestQuery α}
    (hk : t.k ≤ room) (number : Nat) (limit : α) (asked : List (Fin n)) :
    foundBy shares room ⟨number, .nearest t, limit⟩ asked =
      sentBy shares t.target t.k limit asked := by
  rw [foundBy, sentBy]
  refine List.flatMap_congr fun b _ => ?_
  split
  · rw [Share.hits_nearest_eq (hshares b) rfl hk, sent, Share.located,
      ← Ranking.map_firsts (f := onRank b.val) (fun x y => (order_onRank b.val x y).symm),
      List.filter_map]
    rfl
  · rfl

/-- What is kept of a rank: everything if it was asked without a limit, and else what is within
the limit. -/
def kept (shares : Fin n → Share α) (target : Point α) (limit : α) (asked : List (Fin n))
    (b : Fin n) : List (Located α) :=
  if b ∈ asked then (shares b).located target b
  else ((shares b).located target b).filter (·.distance ≤ limit)

/-- A limit within which `k` neighbors are kept leaves the first `k` as they are. -/
theorem firsts_kept {target : Point α} {k : Nat} {limit : α} {asked : List (Fin n)}
    (hcount : limit = Scalar.infinity ∨ k ≤
      ((List.finRange n).flatMap (kept shares target limit asked)).countP (·.distance ≤ limit)) :
    Ranking.firsts order k ((List.finRange n).flatMap (kept shares target limit asked)) =
      Ranking.firsts order k (all shares target) := by
  refine Ranking.firsts_flatMap_of_count (fun b =>
    if b ∈ asked then []
    else ((shares b).located target b).filter fun l => !decide (l.distance ≤ limit)) ?_ ?_
  · intro b _
    rw [kept]
    split
    · rw [List.append_nil]
    · exact List.filter_append_perm _ _
  · intro b _ x hx
    split at hx
    · nomatch hx
    · obtain ⟨hx, hfar⟩ := List.mem_filter.mp hx
      rw [Bool.not_eq_true', decide_eq_false_iff_not] at hfar
      have hnum := Share.isNaN_of_mem_located hx
      rcases hcount with rfl | hcount
      · exact absurd (le_infinity hnum) hfar
      · refine hcount.trans (List.countP_mono_left fun a _ ha => ?_)
        have hle := of_decide_eq_true ha
        exact isLE_of_distance_lt
          (Scalar.lt_of_le_of_lt hle (Scalar.lt_of_not_le hnum (isNaN_of_le hle).2 hfar))

theorem sent_infinity (target : Point α) (k : Nat) (b : Fin n) :
    sent shares target k Scalar.infinity b =
      Ranking.firsts order k ((shares b).located target b) := by
  rw [sent, Share.filter_firsts_located]
  congr 1
  exact List.filter_eq_self.mpr fun l hl =>
    decide_eq_true (le_infinity (Share.isNaN_of_mem_located hl))

/-- What some ranks send without a limit and all near ones within it. -/
theorem firsts_sentBy (hshares : ∀ b, (shares b).AllNumeric) (target : Point α) (k : Nat)
    (limit : α) (asked : List (Fin n)) :
    Ranking.firsts order k (sentBy shares target k Scalar.infinity asked ++
        sentBy shares target k limit
          ((Roster.near shares target limit).filter fun b => !asked.contains b)) =
      Ranking.firsts order k ((List.finRange n).flatMap (kept shares target limit asked)) := by
  have hpart : ∀ b : Fin n,
      ((if b ∈ asked then sent shares target k Scalar.infinity b else []) ++
        if b ∈ (Roster.near shares target limit).filter (fun b => !asked.contains b) then
          sent shares target k limit b else []) =
        Ranking.firsts order k (kept shares target limit asked b) := by
    intro b
    rw [kept]
    by_cases hasked : b ∈ asked
    · simp [hasked, sent_infinity]
    · rw [if_neg hasked, if_neg hasked, List.nil_append]
      by_cases hnear : b ∈ Roster.near shares target limit
      · simp [hnear, hasked, sent, Share.filter_firsts_located]
      · rw [Roster.filter_located_of_not_near hshares hnear]
        simp [hnear, Ranking.firsts, Ranking.sort]
  rw [sentBy, sentBy, Ranking.firsts_congr k (List.flatMap_append_perm ..)]
  simp only [hpart]
  exact Ranking.firsts_flatMap_firsts k _ _

theorem isNaN_of_mem_sentBy {target : Point α} {k : Nat} {limit : α} {asked : List (Fin n)}
    {l : Located α} (h : l ∈ sentBy shares target k limit asked) :
    Scalar.isNaN l.distance = false := by
  obtain ⟨b, -, hl⟩ := List.mem_flatMap.mp h
  split at hl
  · exact Share.isNaN_of_mem_located (Ranking.mem_of_mem_firsts (List.mem_filter.mp hl).1)
  · nomatch hl

/-- No neighbor is farther than the last one. -/
theorem le_lastDistance {k : Nat} {l : List (Located α)}
    (hnum : ∀ a ∈ l, Scalar.isNaN a.distance = false) :
    lastDistance k (Ranking.firsts order k l) = Scalar.infinity ∨
      (Ranking.firsts order k l).length = k ∧ ∀ a ∈ Ranking.firsts order k l,
        a.distance ≤ lastDistance k (Ranking.firsts order k l) := by
  have hlen := Ranking.length_firsts order k l
  have hsorted := List.pairwise_iff_getElem.mp (Ranking.pairwise_firsts order k l)
  generalize hfound : Ranking.firsts order k l = found at hlen hsorted
  have hnum : ∀ a ∈ found, Scalar.isNaN a.distance = false :=
    fun a ha => hnum a (Ranking.mem_of_mem_firsts (hfound ▸ ha))
  rw [lastDistance]
  by_cases hlast : k - 1 < found.length
  · rw [List.getElem?_eq_getElem hlast, Option.elim_some]
    refine Or.inr ⟨by omega, fun a ha => ?_⟩
    obtain ⟨j, hj, rfl⟩ := List.getElem_of_mem ha
    rcases Nat.lt_or_ge j (k - 1) with hlt | hge
    · exact le_of_isLE (hnum _ ha) (hnum _ (List.getElem_mem hlast))
        (hsorted j (k - 1) hj hlast hlt)
    · have hjk : j = k - 1 := by omega
      subst hjk
      exact Scalar.le_self (hnum _ ha)
  · rw [List.getElem?_eq_none (Nat.not_lt.mp hlast)]
    exact Or.inl rfl

/-- The last of the first `k` neighbors sets a limit within which `k` are kept. -/
theorem count_of_lastDistance (target : Point α) (k : Nat) (asked : List (Fin n)) {limit : α}
    (hlimit : limit = lastDistance k
      (Ranking.firsts order k (sentBy shares target k Scalar.infinity asked))) :
    limit = Scalar.infinity ∨ k ≤
      ((List.finRange n).flatMap (kept shares target limit asked)).countP
        (·.distance ≤ limit) := by
  rcases le_lastDistance (k := k) (l := sentBy shares target k Scalar.infinity asked)
    (fun a ha => isNaN_of_mem_sentBy ha) with hinf | ⟨hlen, hle⟩
  · exact Or.inl (hlimit.trans hinf)
  · refine Or.inr ?_
    rw [← hlimit] at hle
    have hall : (Ranking.firsts order k (sentBy shares target k Scalar.infinity asked)).countP
        (·.distance ≤ limit) = k :=
      (List.countP_eq_length.mpr fun a ha => decide_eq_true (hle a ha)).trans hlen
    have hsent := Ranking.countP_firsts_le order k
      (sentBy shares target k Scalar.infinity asked) (·.distance ≤ limit)
    have hkept : (sentBy shares target k Scalar.infinity asked).countP (·.distance ≤ limit) ≤
        ((List.finRange n).flatMap (kept shares target limit asked)).countP
          (·.distance ≤ limit) := by
      refine Ranking.countP_flatMap_le fun b _ => ?_
      by_cases hb : b ∈ asked
      · rw [if_pos hb, kept, if_pos hb, sent_infinity]
        exact Ranking.countP_firsts_le ..
      · rw [if_neg hb]
        exact Nat.zero_le _
    omega

/-- Within the covering radius `k` neighbors are kept. -/
theorem count_of_coveringRadius (hshares : ∀ b, (shares b).AllNumeric) {target : Point α}
    (htarget : target.Numeric)
    (hreach : ∀ b ∈ Roster.worth shares, (shares b).holdings.bounds.Reaches target)
    {k : Nat} {limit : α}
    (hlimit : k ≤ (((Roster.worth shares).filter fun b =>
        (shares b).holdings.bounds.farDistance target ≤ limit).map fun b =>
          Entry.countNonEmpty (shares b).entries).sum) (asked : List (Fin n)) :
    k ≤ ((List.finRange n).flatMap (kept shares target limit asked)).countP
        (·.distance ≤ limit) := by
  have hcount : ∀ b, (kept shares target limit asked b).countP (·.distance ≤ limit) =
      ((shares b).located target b).countP (·.distance ≤ limit) := by
    intro b
    rw [kept]
    split
    · rfl
    · rw [List.countP_filter]
      simp
  have hwithin : ∀ b ∈ (Roster.worth shares).filter fun b =>
      (shares b).holdings.bounds.farDistance target ≤ limit,
        Entry.countNonEmpty (shares b).entries ≤
          ((shares b).located target b).countP (·.distance ≤ limit) := by
    intro b hb
    obtain ⟨hworth, hfar⟩ := List.mem_filter.mp hb
    have hfar := of_decide_eq_true hfar
    rw [← Entry.length_candidates target, ← List.length_map (Located.onRank b.val)]
    refine Nat.le_of_eq (List.countP_eq_length.mpr fun l hl => ?_).symm
    obtain ⟨c, hc, rfl⟩ := List.mem_map.mp hl
    exact decide_eq_true
      (le_trans (Share.distance_le_far (hshares b) htarget (hreach b hworth) hc) hfar)
  rw [List.countP_flatMap]
  refine hlimit.trans ((List.sum_le_sum hwithin).trans ?_)
  simp only [Function.comp_def, hcount]
  refine List.Sublist.sum_le_sum (List.Sublist.map _ ?_) fun _ _ => Nat.zero_le _
  exact List.filter_sublist.trans List.filter_sublist

omit [LawfulScalar α] in
theorem length_all (shares : Fin n → Share α) (target : Point α) :
    (all shares target).length = ∑ b, Entry.countNonEmpty (shares b).entries := by
  rw [all, List.length_flatMap, Fin.sum_univ_def]
  refine congrArg List.sum (List.map_congr_left fun b _ => ?_)
  rw [Share.located, List.length_map, Entry.length_candidates]

/-- What a first round leaves open is settled by a second one within the limit it sets. -/
theorem firsts_two_rounds (hshares : ∀ b, (shares b).AllNumeric) (target : Point α) (k : Nat)
    (asked : List (Fin n)) {found : List (Located α)} {limit : α}
    (hfound : found = Ranking.firsts order k (sentBy shares target k Scalar.infinity asked))
    (hlimit : limit = lastDistance k found) :
    Ranking.firsts order k (found ++ sentBy shares target k limit
        ((Roster.near shares target limit).filter fun b => !asked.contains b)) =
      Ranking.firsts order k (all shares target) := by
  rw [hfound, Ranking.firsts_firsts_append, firsts_sentBy hshares]
  exact firsts_kept (count_of_lastDistance target k asked (hfound ▸ hlimit))

/-- One round within a limit that covers `k` neighbors is enough. -/
theorem firsts_one_round (hshares : ∀ b, (shares b).AllNumeric) {target : Point α} {k : Nat}
    {limit : α} (hlimit : limit = Scalar.infinity ∨ k ≤
      ((List.finRange n).flatMap (kept shares target limit [])).countP (·.distance ≤ limit)) :
    Ranking.firsts order k (sentBy shares target k limit (Roster.near shares target limit)) =
      Ranking.firsts order k (all shares target) := by
  have hrounds := firsts_sentBy hshares target k limit []
  have hnear : (Roster.near shares target limit).filter (fun b => !([] : List (Fin n)).contains b) =
      Roster.near shares target limit := List.filter_eq_self.mpr fun _ _ => rfl
  rw [sentBy_nil, List.nil_append, hnear] at hrounds
  rw [hrounds]
  exact firsts_kept hlimit

end Located

end SpatialSearch
