import SpatialSearch.Proofs.LocalSearch

/-!
# Searches in borrowed space

A nearest search that borrows its heap and its list is refused before it touches them or not at
all: nothing that happens on the way through the entries can fail. So one search after the other
may be made in the same space, and the list gains the answers of those that are not refused.
-/

namespace SpatialSearch

/-- A nearest search of one set of entries. -/
structure NearestCall (α : Type) where
  entries : List (Entry α)
  kind : IndexKind
  target : Point α
  k : Nat

namespace NearestCall

variable {α : Type} [Scalar α]

def AllNumeric (c : NearestCall α) : Prop := Entry.AllNumeric c.entries

def answer (c : NearestCall α) : List (Neighbor α) := Index.reported c.entries c.target c.k

def perform (c : NearestCall α) (scratch : Scratch α) : Except IndexFault Unit × Scratch α :=
  (Index.ofEntries c.entries c.kind).nearestInto c.target c.k scratch

/-- Carry out searches one after the other in the same space: how each of them ends, and the space
after the last. -/
def performAll : List (NearestCall α) → Scratch α → List (Except IndexFault Unit) × Scratch α
  | [], scratch => ([], scratch)
  | c :: rest, scratch =>
    let (outcome, scratch) := c.perform scratch
    let (outcomes, scratch) := performAll rest scratch
    (outcome :: outcomes, scratch)

def succeeded (calls : List (NearestCall α)) (outcomes : List (Except IndexFault Unit)) :
    List (NearestCall α) :=
  ((calls.zip outcomes).filter (·.2.isOk)).map (·.1)

/-- How a search in borrowed space can end, and what it leaves behind. -/
inductive Ends (c : NearestCall α) (scratch : Scratch α) :
    Except IndexFault Unit × Scratch α → Prop where
  | noNeighbors (hk : c.k = 0) : Ends c scratch (.error (.badQuery .noNeighbors), scratch)
  | noRoom (hk : 0 < c.k) (hroom : scratch.queue.capacity < c.k) :
      Ends c scratch (.error (.overCapacity scratch.queue.capacity), scratch)
  | found (hk : 0 < c.k) (hroom : c.k ≤ scratch.queue.capacity) :
      Ends c scratch (.ok (), ⟨scratch.queue.clear, scratch.found ++ c.answer⟩)

/-- A search that is refused leaves the borrowed space as it was. -/
theorem perform_of_refused (c : NearestCall α) {scratch : Scratch α} {fault : IndexFault}
    (h : NearestPass.check c.k scratch.queue = .error fault) :
    c.perform scratch = (.error fault, scratch) := by
  rw [perform, Index.nearestInto.eq_def, NearestPass.run, h]

variable {c : NearestCall α} {scratch : Scratch α} {result : Except IndexFault Unit × Scratch α}

/-- How a search ends is decided before it starts. -/
theorem Ends.outcome_eq (h : c.Ends scratch result) :
    result.1 = NearestPass.check c.k scratch.queue := by
  cases h with
  | noNeighbors hk => exact (if_pos hk).symm
  | noRoom hk hroom => exact ((if_neg (Nat.ne_of_gt hk)).trans (if_pos hroom)).symm
  | found hk hroom =>
    exact ((if_neg (Nat.ne_of_gt hk)).trans (if_neg (Nat.not_lt.mpr hroom))).symm

theorem Ends.capacity (h : c.Ends scratch result) :
    result.2.queue.capacity = scratch.queue.capacity := by
  cases h <;> rfl

theorem Ends.found_eq (h : c.Ends scratch result) :
    result.2.found = scratch.found ++ if result.1.isOk then c.answer else [] := by
  cases h with
  | noNeighbors _ => exact (List.append_nil _).symm
  | noRoom _ _ => exact (List.append_nil _).symm
  | found _ _ => rfl

theorem Ends.noNeighbors_iff (h : c.Ends scratch result) :
    result.1 = .error (.badQuery .noNeighbors) ↔ c.k = 0 := by
  cases h with
  | noNeighbors hk => exact ⟨fun _ => hk, fun _ => rfl⟩
  | noRoom hk _ => exact ⟨nofun, fun hzero => absurd hzero (Nat.ne_of_gt hk)⟩
  | found hk _ => exact ⟨nofun, fun hzero => absurd hzero (Nat.ne_of_gt hk)⟩

theorem Ends.noRoom_iff (h : c.Ends scratch result) :
    (∃ room, result.1 = .error (.overCapacity room)) ↔
      0 < c.k ∧ scratch.queue.capacity < c.k := by
  cases h with
  | noNeighbors hk => exact ⟨nofun, fun hpos => absurd hk (Nat.ne_of_gt hpos.1)⟩
  | noRoom hk hroom => exact ⟨fun _ => ⟨hk, hroom⟩, fun _ => ⟨_, rfl⟩⟩
  | found _ hroom => exact ⟨nofun, fun hover => absurd hover.2 (Nat.not_lt.mpr hroom)⟩

theorem Ends.found_iff (h : c.Ends scratch result) :
    result.1 = .ok () ↔ 0 < c.k ∧ c.k ≤ scratch.queue.capacity := by
  cases h with
  | noNeighbors hk => exact ⟨nofun, fun hpos => absurd hk (Nat.ne_of_gt hpos.1)⟩
  | noRoom _ hroom => exact ⟨nofun, fun hfits => absurd hroom (Nat.not_lt.mpr hfits.2)⟩
  | found hk hroom => exact ⟨fun _ => ⟨hk, hroom⟩, fun _ => rfl⟩

theorem Ends.untouched (h : c.Ends scratch result) {fault : IndexFault}
    (hfault : result.1 = .error fault) : result.2 = scratch := by
  cases h with
  | noNeighbors _ => rfl
  | noRoom _ _ => rfl
  | found _ _ => nomatch hfault

variable [LawfulScalar α]

/-- A search ends in one of three ways, of which none is a failure on the way through the
entries. -/
theorem ends_perform (hnum : c.AllNumeric) (scratch : Scratch α) :
    c.Ends scratch (c.perform scratch) := by
  by_cases hk : c.k = 0
  · rw [perform_of_refused c (if_pos hk)]
    exact .noNeighbors hk
  · have hpos := Nat.pos_of_ne_zero hk
    by_cases hroom : scratch.queue.capacity < c.k
    · rw [perform_of_refused c ((if_neg hk).trans (if_pos hroom))]
      exact .noRoom hpos hroom
    · have hroom := Nat.not_lt.mp hroom
      rw [perform, Index.nearestInto_eq hnum c.kind c.target hpos scratch hroom,
        Index.firsts_candidates]
      exact .found hpos hroom

/-- Each of some searches ends as it would without those before it. -/
theorem outcomes_performAll {calls : List (NearestCall α)} (hnum : ∀ c ∈ calls, c.AllNumeric)
    (scratch : Scratch α) : (performAll calls scratch).1 =
      calls.map fun c => NearestPass.check c.k scratch.queue := by
  induction calls generalizing scratch with
  | nil => rfl
  | cons c rest ih =>
    obtain ⟨hc, hrest⟩ := List.forall_mem_cons.mp hnum
    have hends := ends_perform hc scratch
    have hlater := ih hrest (c.perform scratch).2
    simp only [NearestPass.check, hends.capacity] at hlater
    exact congrArg₂ List.cons hends.outcome_eq hlater

/-- The list gains the answers of the searches that are not refused, in their order. -/
theorem found_performAll {calls : List (NearestCall α)} (hnum : ∀ c ∈ calls, c.AllNumeric)
    (scratch : Scratch α) : (performAll calls scratch).2.found =
      scratch.found ++ (succeeded calls (performAll calls scratch).1).flatMap answer := by
  induction calls generalizing scratch with
  | nil => exact (List.append_nil _).symm
  | cons c rest ih =>
    obtain ⟨hc, hrest⟩ := List.forall_mem_cons.mp hnum
    have hfound := (ends_perform hc scratch).found_eq
    rw [performAll]
    generalize c.perform scratch = result at hfound ⊢
    obtain ⟨outcome, after⟩ := result
    dsimp only at hfound ⊢
    rw [ih hrest after, hfound, List.append_assoc, succeeded, succeeded, List.zip_cons_cons,
      List.filter_cons]
    cases outcome <;> rfl

/-- A search is refused for asking for no neighbors, or for more than its heap has room for even if
there are fewer, and for nothing else. A search that is refused leaves the borrowed space as it was.
So of searches one after the other each ends as it would without those before it, and the list gains
the answers of those that are not refused. -/
theorem refusals_touch_nothing {calls : List (NearestCall α)}
    (hnum : ∀ c ∈ calls, c.AllNumeric) (scratch : Scratch α) :
    (∀ c ∈ calls,
      ((c.perform scratch).1 = .error (.badQuery .noNeighbors) ↔ c.k = 0) ∧
      ((∃ room, (c.perform scratch).1 = .error (.overCapacity room)) ↔
        0 < c.k ∧ scratch.queue.capacity < c.k) ∧
      ((c.perform scratch).1 = .ok () ↔ 0 < c.k ∧ c.k ≤ scratch.queue.capacity) ∧
      ∀ fault, (c.perform scratch).1 = .error fault → (c.perform scratch).2 = scratch) ∧
    (performAll calls scratch).1 = (calls.map fun c => (c.perform scratch).1) ∧
    (performAll calls scratch).2.found =
      scratch.found ++ (succeeded calls (performAll calls scratch).1).flatMap answer := by
  refine ⟨fun c hc => ?_, ?_, found_performAll hnum scratch⟩
  · have hends := ends_perform (hnum c hc) scratch
    exact ⟨hends.noNeighbors_iff, hends.noRoom_iff, hends.found_iff, fun _ => hends.untouched⟩
  · rw [outcomes_performAll hnum]
    exact List.map_congr_left fun c hc => (ends_perform (hnum c hc) scratch).outcome_eq.symm

/-- Searches of two points in a heap with room for two: for none, for more than there is room for,
and for one. -/
def threeCalls : List (NearestCall Binary64) :=
  [⟨Index.twoPoints, .tree, .origin, 0⟩, ⟨Index.twoPoints, .scan, .origin, 3⟩,
    ⟨Index.twoPoints, .tree, .origin, 1⟩]

def usedSpace : Scratch Binary64 := ⟨⟨#[⟨.half, 9⟩], 2⟩, [⟨.half, 7⟩]⟩

theorem refusals_touch_nothing_threeCalls : (∀ c ∈ threeCalls, c.AllNumeric) ∧
    (∀ c ∈ threeCalls,
      ((c.perform usedSpace).1 = .error (.badQuery .noNeighbors) ↔ c.k = 0) ∧
      ((∃ room, (c.perform usedSpace).1 = .error (.overCapacity room)) ↔
        0 < c.k ∧ usedSpace.queue.capacity < c.k) ∧
      ((c.perform usedSpace).1 = .ok () ↔ 0 < c.k ∧ c.k ≤ usedSpace.queue.capacity) ∧
      ∀ fault, (c.perform usedSpace).1 = .error fault → (c.perform usedSpace).2 = usedSpace) ∧
    (performAll threeCalls usedSpace).1 = (threeCalls.map fun c => (c.perform usedSpace).1) ∧
    (performAll threeCalls usedSpace).2.found = usedSpace.found ++
      (succeeded threeCalls (performAll threeCalls usedSpace).1).flatMap answer := by
  have htwo : Entry.AllNumeric Index.twoPoints := by decide
  have hnum : ∀ c ∈ threeCalls, c.AllNumeric := by simp [threeCalls, AllNumeric, htwo]
  exact ⟨hnum, refusals_touch_nothing hnum usedSpace⟩

end NearestCall

end SpatialSearch
