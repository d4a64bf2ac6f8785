import SpatialSearch.Proofs.Protocol
import SpatialSearch.Proofs.Standstill

/-!
# Refused batches

A batch that is not in order is refused by its own rank, which sends nothing then and goes on to its
next call. If all ranks refuse their batches, or none does, the ranks stay together and the next
batches are answered as in a fresh group.

If only some ranks refuse, their next batches meet the batches that the others have put already:
these are answered together. The others go on to their own next batches, and wait for ever for the
ranks that have refused.
-/

namespace SpatialSearch

open SpatialSearch.Group

variable {n : Nat} {α : Type} [Scalar α]

namespace Joined

variable (joined : Joined n α)

/-- A rank refuses its batch by itself. -/
def Refuses (batches : Fin n → List (Query α)) (i : Fin n) : Prop :=
  ∃ fault, Batch.check (joined.options i) (batches i) = .error fault

instance (batches : Fin n → List (Query α)) : DecidablePred (joined.Refuses batches) := fun i =>
  match h : Batch.check (joined.options i) (batches i) with
  | .ok _ => isFalse fun hrefuses => nomatch h.symm.trans hrefuses.choose_spec
  | .error fault => isTrue ⟨fault, h⟩

/-- The batches that meet when a rank that refuses its first one goes on to its second. -/
def meeting (first second : Fin n → List (Query α)) (i : Fin n) : List (Query α) :=
  if joined.Refuses first i then second i else first i

def Opens (c : Course n α) : Prop :=
  c.Joins ∧ ∀ i, Program.Performs (Stage.course c.stages i)
    (PartitionedIndex.build ⟨n, i⟩ (joined.shares i).index (joined.options i)).run
      (.done (.ok (joined.onRank i)))

/-- All ranks go through the stages of a course with their batches and get its results. -/
def Carries (batches : Fin n → List (Query α)) (c : Course n α) : Prop :=
  ∀ i, ∃ found, c.result i = found.map some ∧
    Program.Performs (Stage.course c.stages i) ((joined.onRank i).query (batches i)).run
      (.done found)

variable {joined} {first second : Fin n → List (Query α)}

theorem run_query_of_refused {i : Fin n} {fault : SearchFault}
    (h : Batch.check (joined.options i) (first i) = .error fault) :
    ((joined.onRank i).query (first i)).run = .done (.error fault) := by
  have hcheck : Batch.check (joined.onRank i).options (first i) = .error fault := h
  rw [PartitionedIndex.query, hcheck]
  rfl

theorem meeting_of_refused {i : Fin n} (h : joined.Refuses first i) :
    joined.meeting first second i = second i := if_pos h

theorem meeting_of_not_refused {i : Fin n} (h : ¬ joined.Refuses first i) :
    joined.meeting first second i = first i := if_neg h

/-- Batches that all ranks refuse take no stage at all. -/
theorem exists_carries_refused (h : ∀ i, joined.Refuses first i) :
    ∃ c : Course n α, joined.Carries first c := by
  choose fault hfault using h
  refine ⟨⟨[], fun i => .error (fault i)⟩, fun i => ⟨.error (fault i), rfl, ?_⟩⟩
  rw [run_query_of_refused (hfault i)]
  exact .nil _

variable [LawfulScalar α]

theorem exists_carries {batches : Fin n → List (Query α)}
    (h : PartitionedIndex.Admitted joined.shares joined.options batches) :
    ∃ c : Course n α, joined.Carries batches c ∧
      c.Goes (PartitionedIndex.Compatible joined.options batches) := by
  obtain ⟨c, hgoes, found, hfound, hperf⟩ := Calls.exists_query joined h
  exact ⟨c, fun i => ⟨found i, (hfound i).symm, hperf i⟩, hgoes⟩

theorem exists_carries_all {batches : List (Fin n → List (Query α))}
    (h : ∀ b ∈ batches, PartitionedIndex.Admitted joined.shares joined.options b) :
    ∃ courses, List.Forall₂ joined.Carries batches courses := by
  induction batches with
  | nil => exact ⟨[], .nil⟩
  | cons b rest ih =>
    obtain ⟨hb, hrest⟩ := List.forall_mem_cons.mp h
    obtain ⟨c, hc, -⟩ := exists_carries hb
    obtain ⟨courses, hcourses⟩ := ih hrest
    exact ⟨c :: courses, .cons hc hcourses⟩

end Joined

omit [Scalar α] in
/-- In the first stage of a query that is answered every rank sends something to every other. -/
theorem Course.Answers.sends {c : Course n α} (h : c.Answers) :
    ∃ stage rest, c.stages = stage :: rest ∧ ∀ {i r : Fin n}, i ≠ r →
      ∃ m, (⟨.sent, i, m⟩ : Event (Content α)) ∈ stage.events r := by
  obtain ⟨rounds, -, htags, -⟩ := h
  rw [tags, PartitionedIndex.queryTags] at htags
  obtain ⟨stage, rest, hstages, htag, -⟩ := List.map_eq_cons_iff.mp htags
  refine ⟨stage, rest, hstages, fun {i r} hne => ?_⟩
  have hcomplete : stage.tag ≠ .payload := by
    rw [htag]
    decide
  obtain ⟨m, hm⟩ := Option.isSome_iff_exists.mp (stage.complete hcomplete r i)
  exact ⟨m, List.mem_append_left _ (Stage.mem_half.mpr ⟨i, hne, m, hm, rfl⟩)⟩

namespace Calls

def puts : List (Fin n → List (Query α)) → Calls n α 1
  | [] => .done
  | batches :: rest => .query (Fin.last 0) batches (puts rest)

def series (joined : Joined n α) (batches : List (Fin n → List (Query α))) : Calls n α 0 :=
  .join joined (puts batches)

/-- All ranks make the calls together: every message is taken in the stage of the call in which it
was sent, every run ends, and every rank gets the results of the courses. -/
structure SideBySide (calls : Calls n α 0) (courses : List (Course n α)) : Prop where
  inStep : ∀ log g, Group.Recorded calls.group log g →
    Group.InStep (courses.flatMap (·.stages)) log g
  ends : Group.AlwaysEnds (Group.Settled fun i => courses.map (·.result i)) calls.group

variable {joined : Joined n α} {i : Fin n} {indexes : Fin 1 → PartitionedIndex α}

theorem carryOut_puts_cons (batches : Fin n → List (Query α))
    (rest : List (Fin n → List (Query α))) : (puts (batches :: rest)).carryOut i indexes =
      ((indexes (Fin.last 0)).query (batches i)).run.bind fun found =>
        ((puts rest).carryOut i indexes).bind fun results =>
          .done (found.map some :: results) := rfl

theorem performs_puts (hindex : indexes (Fin.last 0) = joined.onRank i)
    {batches more : List (Fin n → List (Query α))} {courses : List (Course n α)}
    (h : List.Forall₂ joined.Carries batches courses) {events : List (Event (Content α))}
    {rest : Program (Content α) (List (CallResult α))}
    (hmore : Program.Performs events ((puts more).carryOut i indexes) rest) :
    Program.Performs (Stage.course (courses.flatMap (·.stages)) i ++ events)
      ((puts (batches ++ more)).carryOut i indexes)
      (rest.bind fun results => .done (courses.map (·.result i) ++ results)) := by
  induction h with
  | nil =>
    change Program.Performs events _ (rest.bind .done)
    rw [Program.bind_done]
    exact hmore
  | @cons b c _ later hc _ ih =>
    obtain ⟨found, hfound, hperf⟩ := hc i
    rw [List.flatMap_cons, Stage.course_append, List.append_assoc, List.cons_append,
      carryOut_puts_cons, hindex]
    refine hperf.andThen ?_
    have hlater := ih.bind fun results => Program.done (found.map some :: results)
    rw [Program.bind_assoc] at hlater
    rw [List.map_cons, hfound]
    exact hlater

omit [Scalar α] in
theorem cons_last (x : PartitionedIndex α) :
    (Fin.cons x Fin.elim0 : Fin 1 → PartitionedIndex α) (Fin.last 0) = x := rfl

/-- The ranks join the index, then put batches to it that all of them carry, and then more. -/
theorem performs_series {joining : Course n α} (hopens : joined.Opens joining)
    {batches more : List (Fin n → List (Query α))} {courses : List (Course n α)}
    (h : List.Forall₂ joined.Carries batches courses) {events : List (Event (Content α))}
    {rest : Program (Content α) (List (CallResult α))}
    (hmore : Program.Performs events
      ((puts more).carryOut i (Fin.cons (joined.onRank i) Fin.elim0)) rest) :
    Program.Performs (Stage.course ((joining :: courses).flatMap (·.stages)) i ++ events)
      ((series joined (batches ++ more)).carryOut i Fin.elim0)
      (rest.bind fun results => .done (.ok none :: courses.map (·.result i) ++ results)) := by
  have hputs := (performs_puts (cons_last _) h hmore).bind fun results =>
    Program.done (.ok none :: results)
  rw [Program.bind_assoc] at hputs
  rw [List.flatMap_cons, Stage.course_append, List.append_assoc]
  exact (hopens.2 i).andThen hputs

/-- Calls that all ranks carry out in the same stages are made side by side. -/
theorem sideBySide_series {joining : Course n α} (hopens : joined.Opens joining)
    {batches : List (Fin n → List (Query α))} {courses : List (Course n α)}
    (h : List.Forall₂ joined.Carries batches courses) :
    SideBySide (series joined batches) (joining :: courses) := by
  have hperf : ∀ i, Program.Performs (Stage.course ((joining :: courses).flatMap (·.stages)) i)
      ((series joined batches).carryOut i Fin.elim0)
      (.done ((joining :: courses).map (·.result i))) := by
    intro i
    have hnone : Program.Performs [] ((puts []).carryOut i
        (Fin.cons (joined.onRank i) Fin.elim0)) (.done []) := .nil _
    have hall := performs_series hopens h hnone
    rw [List.append_nil, List.append_nil] at hall
    rw [List.map_cons, hopens.1.2 i]
    change Program.Performs _ _ (.done (_ ++ [])) at hall
    rwa [List.append_nil] at hall
  constructor
  · intro log g hrecorded
    rw [group_eq] at hrecorded
    exact hrecorded.inStep hperf
  · rw [group_eq]
    exact Group.alwaysEnds_of_performs hperf

/-! ### Ranks that do not refuse alike -/

/-- The ranks that refuse their first batches have got what their second ones bring together with
the first ones of the others. The others have got that too, and stand still in their second query,
of which they have done a part: each waits for a rank that has refused. -/
structure Parted (joined : Joined n α) (first second : Fin n → List (Query α))
    (before : Fin n → List (CallResult α)) (c : Course n α)
    (g : Group n (Content α) (List (CallResult α))) : Prop where
  ended : ∀ i fault, Batch.check (joined.options i) (first i) = .error fault →
    g.programs.get i = .done (before i ++ [.error fault, c.result i])
  waits : ∀ i, ¬ joined.Refuses first i → ∃ r, joined.Refuses first r ∧ g.WaitsFor i r
  within : ∀ i, ¬ joined.Refuses first i → ∃ events rest,
    Program.Performs events ((joined.onRank i).query (second i)).run rest ∧
      g.programs.get i = rest.bind fun found => .done (before i ++ [c.result i, found.map some])

variable {first second : Fin n → List (Query α)}

/-- What is left of two queries, after some other calls, when the batches that meet have been
answered. -/
def afterMeeting (joined : Joined n α) (first second : Fin n → List (Query α))
    (results : List (CallResult α)) (c : Course n α) (i : Fin n) :
    Program (Content α) (List (CallResult α)) :=
  match Batch.check (joined.options i) (first i) with
  | .error fault => .done (results ++ [.error fault, c.result i])
  | .ok _ => ((joined.onRank i).query (second i)).run.bind fun found =>
    .done (results ++ [c.result i, found.map some])

/-- A rank that has refused is at its end. -/
theorem afterMeeting_of_refused (results : List (CallResult α)) (c : Course n α)
    {fault : SearchFault} (h : Batch.check (joined.options i) (first i) = .error fault) :
    afterMeeting joined first second results c i =
      .done (results ++ [.error fault, c.result i]) := by
  rw [afterMeeting, h]

/-- A rank that has not refused goes on with its second query. -/
theorem afterMeeting_of_not_refused (results : List (CallResult α)) (c : Course n α)
    (h : ¬ joined.Refuses first i) : afterMeeting joined first second results c i =
      ((joined.onRank i).query (second i)).run.bind fun found =>
        .done (results ++ [c.result i, found.map some]) := by
  rw [afterMeeting]
  split
  · rename_i fault hcheck
    exact absurd ⟨fault, hcheck⟩ h
  · rfl

theorem afterMeeting_bind (results : List (CallResult α)) (c : Course n α) (i : Fin n) :
    ((afterMeeting joined first second [] c i).bind fun more => .done (results ++ more)) =
      afterMeeting joined first second results c i := by
  simp only [afterMeeting]
  split
  · rfl
  · rw [Program.bind_assoc]
    rfl

theorem carryOut_puts_pair (hindex : indexes (Fin.last 0) = joined.onRank i) :
    (puts [first, second]).carryOut i indexes =
      ((joined.onRank i).query (first i)).run.bind fun found =>
        ((joined.onRank i).query (second i)).run.bind fun later =>
          .done [found.map some, later.map some] := by
  rw [carryOut_puts_cons, carryOut_puts_cons, hindex]
  simp only [Program.bind_assoc]
  rfl

theorem performs_meeting (hindex : indexes (Fin.last 0) = joined.onRank i) {c : Course n α}
    (h : joined.Carries (joined.meeting first second) c) :
    Program.Performs (Stage.course c.stages i) ((puts [first, second]).carryOut i indexes)
      (afterMeeting joined first second [] c i) := by
  obtain ⟨found, hfound, hperf⟩ := h i
  rw [carryOut_puts_pair hindex]
  by_cases hi : joined.Refuses first i
  · obtain ⟨fault, hcheck⟩ := hi
    rw [Joined.meeting_of_refused ⟨fault, hcheck⟩] at hperf
    rw [Joined.run_query_of_refused hcheck, afterMeeting_of_refused [] c hcheck, hfound]
    exact hperf.bind fun later => Program.done [.error fault, later.map some]
  · rw [Joined.meeting_of_not_refused hi] at hperf
    rw [afterMeeting_of_not_refused [] c hi, hfound]
    exact hperf.bind fun found => ((joined.onRank i).query (second i)).run.bind fun later =>
      Program.done [found.map some, later.map some]

/-- What every rank has done when the batches that meet have been answered. -/
theorem performs_until_meeting {joining c : Course n α} {earlier : List (Fin n → List (Query α))}
    {before : List (Course n α)} (hopens : joined.Opens joining)
    (hbefore : List.Forall₂ joined.Carries earlier before)
    (hmeeting : joined.Carries (joined.meeting first second) c) (i : Fin n) : Program.Performs
      (Stage.course ((joining :: before).flatMap (·.stages) ++ c.stages) i)
      ((series joined (earlier ++ [first, second])).carryOut i Fin.elim0)
      (afterMeeting joined first second (.ok none :: before.map (·.result i)) c i) := by
  rw [Stage.course_append, ← afterMeeting_bind]
  exact performs_series hopens hbefore (performs_meeting (cons_last _) hmeeting)

/-- What every rank would come to if all of them were there for the second query. -/
theorem exists_result_afterMeeting {last : Course n α} (hlast : joined.Carries second last)
    (results : List (CallResult α)) (c : Course n α) (i : Fin n) : ∃ result,
      (joined.Refuses first i → afterMeeting joined first second results c i = .done result) ∧
      (¬ joined.Refuses first i → Program.Performs (Stage.course last.stages i)
        (afterMeeting joined first second results c i) (.done result)) := by
  by_cases hi : joined.Refuses first i
  · obtain ⟨fault, hcheck⟩ := hi
    exact ⟨_, fun _ => afterMeeting_of_refused results c hcheck, fun h => absurd ⟨fault, hcheck⟩ h⟩
  · obtain ⟨found, -, hperf⟩ := hlast i
    refine ⟨results ++ [c.result i, found.map some], fun h => absurd h hi, fun _ => ?_⟩
    rw [afterMeeting_of_not_refused results c hi]
    exact hperf.bind fun found => Program.done (results ++ [c.result i, found.map some])

/-- If a rank refuses its first batch and the second batches would be answered, every run ends with
the ranks parted. -/
theorem alwaysEnds_parted {joining last c : Course n α} {earlier : List (Fin n → List (Query α))}
    {before : List (Course n α)} (hopens : joined.Opens joining)
    (hbefore : List.Forall₂ joined.Carries earlier before)
    (hmeeting : joined.Carries (joined.meeting first second) c)
    (hlast : joined.Carries second last) (hanswers : last.Answers) {r : Fin n}
    (hr : joined.Refuses first r) :
    Group.AlwaysEnds
      (Parted joined first second (fun i => .ok none :: before.map (·.result i)) c)
      (series joined (earlier ++ [first, second])).group := by
  choose result hstops hgoes using fun i =>
    exists_result_afterMeeting hlast (.ok none :: before.map (·.result i)) c i
  obtain ⟨stage, rest, hstages, hsends⟩ := hanswers.sends
  rw [hstages] at hgoes
  have hends := Group.alwaysEnds_of_stopping (performs_until_meeting hopens hbefore hmeeting)
    hstops hgoes fun i hi => ⟨r, hr, hsends fun hir => hi (hir ▸ hr)⟩
  rw [group_eq]
  apply hends.mono
  intro g hg
  constructor
  · intro i fault hcheck
    rw [hg.ended i ⟨fault, hcheck⟩, ← hstops i ⟨fault, hcheck⟩,
      afterMeeting_of_refused _ c hcheck]
  · exact hg.waits
  · intro i hi
    obtain ⟨events, rest, hevents, hperf⟩ := hg.within i hi
    obtain ⟨found, -, hquery⟩ := hlast i
    rw [hstages, ← hevents] at hquery
    obtain ⟨part, hpart, -⟩ := hquery.split
    rw [afterMeeting_of_not_refused _ c hi] at hperf
    exact ⟨events, part, hpart, hperf.unique (hpart.bind _)⟩

variable [LawfulScalar α]

def twoJoined : Joined 2 Binary64 := ⟨PartitionedIndex.twoRanks, fun _ => {}⟩

/-- Every rank asks for as many neighbors as its number says: the first rank for none, which is
refused. -/
def oneRefused (i : Fin 2) : List (Query Binary64) := [.nearest ⟨.origin, i⟩]

def noneRefused (i : Fin 2) : List (Query Binary64) :=
  (PartitionedIndex.nearOrigin i).map .nearest

theorem admitted_noneRefused :
    PartitionedIndex.Admitted twoJoined.shares twoJoined.options noneRefused := by
  refine .of_hitBound (fun i => ⟨some .nearest, ?_⟩) (by decide) (by decide) (by decide)
  revert i
  decide

theorem admitted_meeting_oneRefused : PartitionedIndex.Admitted twoJoined.shares twoJoined.options
    (twoJoined.meeting oneRefused noneRefused) := by
  refine .of_hitBound (fun i => ⟨some .nearest, ?_⟩) (by decide) (by decide) (by decide)
  revert i
  decide

theorem compatible_noneRefused :
    PartitionedIndex.Compatible twoJoined.options noneRefused := by
  refine ⟨fun _ _ => rfl, fun i j p hp q hq => ?_⟩
  rw [List.mem_singleton.mp hp, List.mem_singleton.mp hq]

end Calls

end SpatialSearch
