import Mathlib.Data.List.FinRange
import SpatialSearch.Group.Program

/-!
# Stages of a group

A collective operation goes through stages. In a stage every rank sends what it has for the
others and then takes what they have for it. The agenda of a rank is what it does in some
stages, event by event. What one rank sends another by its agenda is what the other takes from
it by its own, in the same stages.

A stage says nothing of the time at which a rank comes to it: the ranks may be whole stages
apart.
-/

namespace SpatialSearch

inductive Direction where
  | sent
  | taken
deriving DecidableEq

structure Event (π : Type) where
  direction : Direction
  peer : Nat
  message : Message π

namespace Event

variable {π : Type}

/-- The messages that passed between a rank and another one in a direction, each with the number
of its stage. -/
def passed (w : Direction) (peer : Nat) (events : List (Nat × Event π)) :
    List (Nat × Message π) :=
  (events.filter fun e => e.2.direction = w ∧ e.2.peer = peer).map fun e => (e.1, e.2.message)

variable {w : Direction} {peer : Nat}

@[simp] theorem passed_append (a b : List (Nat × Event π)) :
    passed w peer (a ++ b) = passed w peer a ++ passed w peer b := by
  simp [passed]

@[simp] theorem passed_nil : passed w peer ([] : List (Nat × Event π)) = [] := rfl

theorem passed_singleton (number : Nat) (e : Event π) : passed w peer [(number, e)] =
    if e.direction = w ∧ e.peer = peer then [(number, e.message)] else [] := by
  by_cases h : e.direction = w ∧ e.peer = peer <;> simp [passed, h]

theorem mem_passed {events : List (Nat × Event π)} {number : Nat} {message : Message π} :
    (number, message) ∈ passed w peer events ↔ (number, ⟨w, peer, message⟩) ∈ events := by
  simp only [passed, List.mem_map, List.mem_filter, decide_eq_true_eq, Prod.mk.injEq]
  constructor
  · rintro ⟨⟨_, _, _, _⟩, ⟨he, rfl, rfl⟩, rfl, rfl⟩
    exact he
  · intro he
    exact ⟨_, ⟨he, rfl, rfl⟩, rfl, rfl⟩

/-- Nothing is taken before something is sent in the same stage or in an earlier one. -/
def SendsFirst (events : List (Nat × Event π)) : Prop :=
  events.Pairwise fun a b => a.2.direction = .taken → b.2.direction = .sent → a.1 < b.1

end Event

namespace Program

variable {π ρ σ : Type}

/-- If all its messages go through, one program has these events in this order and goes on as
another. -/
inductive Performs : List (Event π) → Program π ρ → Program π ρ → Prop where
  | nil (p : Program π ρ) : Performs [] p p
  | send (dest : Nat) (message : Message π) {next : Except TransferFault Unit → Program π ρ}
      {events : List (Event π)} {q : Program π ρ} (h : Performs events (next (.ok ())) q) :
      Performs (⟨.sent, dest, message⟩ :: events) (.send dest message next) q
  | receive (source : Nat) (message : Message π)
      {next : Except TransferFault (Message π) → Program π ρ} {events : List (Event π)}
      {q : Program π ρ} (h : Performs events (next (.ok message)) q) :
      Performs (⟨.taken, source, message⟩ :: events) (.receive source next) q

theorem Performs.append {p q r : Program π ρ} {a b : List (Event π)} (hp : Performs a p q)
    (hq : Performs b q r) : Performs (a ++ b) p r := by
  induction hp with
  | nil _ => exact hq
  | send dest message _ ih => exact .send dest message (ih hq)
  | receive source message _ ih => exact .receive source message (ih hq)

theorem Performs.bind {p q : Program π ρ} {a : List (Event π)} (h : Performs a p q)
    (f : ρ → Program π σ) : Performs a (p.bind f) (q.bind f) := by
  induction h with
  | nil p => exact .nil _
  | send dest message _ ih => exact .send dest message ih
  | receive source message _ ih => exact .receive source message ih

/-- One program ends with a result, and the one that this result chooses goes on. -/
theorem Performs.andThen {p : Program π ρ} {result : ρ} {f : ρ → Program π σ} {q : Program π σ}
    {a b : List (Event π)} (hp : Performs a p (.done result)) (hf : Performs b (f result) q) :
    Performs (a ++ b) (p.bind f) q :=
  (hp.bind f).append hf

theorem Performs.of_nil {p q : Program π ρ} (h : Performs [] p q) : p = q := by
  cases h
  rfl

/-- A program that has ended has no events. -/
theorem Performs.eq_nil_of_done {result : ρ} {events : List (Event π)} {q : Program π ρ}
    (h : Performs events (.done result) q) : events = [] := by
  cases h
  rfl

theorem Performs.eq_of_gaveUp {cause : Abort} {events : List (Event π)} {q : Program π ρ}
    (h : Performs events (.gaveUp cause) q) : q = .gaveUp cause := by
  cases h
  rfl

theorem Performs.of_sent {dest : Nat} {message : Message π} {events : List (Event π)}
    {p q : Program π ρ} (h : Performs (⟨.sent, dest, message⟩ :: events) p q) :
    ∃ next, p = .send dest message next ∧ Performs events (next (.ok ())) q := by
  cases h with
  | send _ _ h => exact ⟨_, rfl, h⟩

theorem Performs.of_taken {source : Nat} {message : Message π} {events : List (Event π)}
    {p q : Program π ρ} (h : Performs (⟨.taken, source, message⟩ :: events) p q) :
    ∃ next, p = .receive source next ∧ Performs events (next (.ok message)) q := by
  cases h with
  | receive _ _ h => exact ⟨_, rfl, h⟩

end Program

theorem flatMap_filter {β γ : Type} (p : β → Bool) (f : β → List γ) (l : List β) :
    (l.filter p).flatMap f = l.flatMap fun a => if p a then f a else [] := by
  induction l with
  | nil => rfl
  | cons a rest ih =>
    rw [List.flatMap_cons, ← ih]
    by_cases ha : p a
    · rw [List.filter_cons_of_pos ha, List.flatMap_cons, if_pos ha]
    · rw [List.filter_cons_of_neg ha, if_neg ha, List.nil_append]

/-- A step of a collective operation: every rank sends its messages to the others and takes theirs
to it. -/
structure Stage (n : Nat) (π : Type) where
  tag : Tag
  letter : Fin n → Fin n → Option (Message π)
  tag_eq : ∀ s d m, letter s d = some m → m.tag = tag
  /-- A message can be missing only where announced items are posted. -/
  complete : tag ≠ .payload → ∀ s d, (letter s d).isSome

namespace Stage

variable {n : Nat} {π : Type}

def others (i : Fin n) : List (Fin n) := (List.finRange n).filter (· != i)

theorem mem_others {i r : Fin n} : r ∈ others i ↔ r ≠ i := by simp [others]

def between (stage : Stage n π) (i : Fin n) : Direction → Fin n → Option (Message π)
  | .sent, d => stage.letter i d
  | .taken, s => stage.letter s i

def half (stage : Stage n π) (i : Fin n) (w : Direction) : List (Event π) :=
  (others i).flatMap fun r => (stage.between i w r).toList.map (⟨w, r, ·⟩)

def events (stage : Stage n π) (i : Fin n) : List (Event π) :=
  stage.half i .sent ++ stage.half i .taken

def course (stages : List (Stage n π)) (i : Fin n) : List (Event π) :=
  stages.flatMap (·.events i)

theorem course_append (first more : List (Stage n π)) (i : Fin n) :
    course (first ++ more) i = course first i ++ course more i := List.flatMap_append

/-- What a rank does in some stages, each event with the number of its stage. -/
def agendaFrom (i : Fin n) : (number : Nat) → List (Stage n π) → List (Nat × Event π)
  | _, [] => []
  | number, stage :: rest =>
    (stage.events i).map (number, ·) ++ agendaFrom i (number + 1) rest

def agenda (stages : List (Stage n π)) (i : Fin n) : List (Nat × Event π) :=
  agendaFrom i 0 stages

theorem map_snd_agendaFrom (i : Fin n) (number : Nat) (stages : List (Stage n π)) :
    (agendaFrom i number stages).map Prod.snd = course stages i := by
  induction stages generalizing number with
  | nil => rfl
  | cons stage rest ih =>
    rw [agendaFrom, List.map_append, ih, List.map_map]
    exact congrArg (· ++ _) (List.map_id _)

theorem le_of_mem_agendaFrom {i : Fin n} {number : Nat} {stages : List (Stage n π)}
    {e : Nat × Event π} (h : e ∈ agendaFrom i number stages) : number ≤ e.1 := by
  induction stages generalizing number with
  | nil => nomatch h
  | cons stage rest ih =>
    rcases List.mem_append.mp h with h | h
    · obtain ⟨_, -, rfl⟩ := List.mem_map.mp h
      exact Nat.le_refl _
    · exact Nat.le_of_succ_le (ih h)

theorem mem_half {stage : Stage n π} {i : Fin n} {w : Direction} {e : Event π} :
    e ∈ stage.half i w ↔ ∃ r ≠ i, ∃ m, stage.between i w r = some m ∧ e = ⟨w, r, m⟩ := by
  simp only [half, List.mem_flatMap, mem_others, List.mem_map, Option.mem_toList]
  constructor
  · rintro ⟨r, hr, m, hm, rfl⟩
    exact ⟨r, hr, m, hm, rfl⟩
  · rintro ⟨r, hr, m, hm, rfl⟩
    exact ⟨r, hr, m, hm, rfl⟩

/-- Of the parts of a list that belong to different elements only one is picked. -/
theorem flatMap_pick {β γ : Type} [DecidableEq β] {l : List β} (hl : l.Nodup) (b : β)
    (f : β → List γ) :
    (l.flatMap fun a => if a = b then f a else []) = if b ∈ l then f b else [] := by
  induction l with
  | nil => rfl
  | cons a rest ih =>
    obtain ⟨ha, hrest⟩ := List.nodup_cons.mp hl
    rw [List.flatMap_cons, ih hrest]
    by_cases hab : a = b
    · subst hab
      simp [ha]
    · simp [hab, Ne.symm hab]

theorem passed_half (stage : Stage n π) (number : Nat) (i r : Fin n) (w v : Direction) :
    Event.passed w r ((stage.half i v).map (number, ·)) =
      if v = w ∧ r ≠ i then (stage.between i w r).toList.map (number, ·) else [] := by
  have hpart : ∀ a : Fin n, Event.passed w r
      (((stage.between i v a).toList.map fun m => (⟨v, a, m⟩ : Event π)).map (number, ·)) =
        if a = r then if v = w then (stage.between i w r).toList.map (number, ·) else []
        else [] := by
    intro a
    by_cases har : a = r
    · subst har
      by_cases hvw : v = w
      · subst hvw
        cases stage.between i v a <;> simp [Event.passed]
      · cases stage.between i v a <;> simp [Event.passed, hvw]
    · have hval : a.val ≠ r.val := fun h => har (Fin.ext h)
      cases stage.between i v a <;> simp [Event.passed, har, hval]
  rw [half, others, List.map_flatMap]
  simp only [Event.passed, List.filter_flatMap, List.map_flatMap] at hpart ⊢
  simp only [hpart]
  rw [flatMap_pick ((List.nodup_finRange n).filter _) r
    fun _ => if v = w then (stage.between i w r).toList.map (number, ·) else []]
  by_cases hri : r = i
  · simp [hri]
  · simp [hri]

theorem passed_events (stage : Stage n π) (number : Nat) (i r : Fin n) (w : Direction) :
    Event.passed w r ((stage.events i).map (number, ·)) =
      if r = i then [] else (stage.between i w r).toList.map (number, ·) := by
  rw [events, List.map_append, Event.passed_append, passed_half, passed_half]
  by_cases hri : r = i
  · simp [hri]
  · cases w <;> simp [hri]

/-- What one rank sends to another is what the other takes from it, stage by stage. -/
theorem passed_agendaFrom (s d : Fin n) (number : Nat) (stages : List (Stage n π)) :
    Event.passed .sent d (agendaFrom s number stages) =
      Event.passed .taken s (agendaFrom d number stages) := by
  induction stages generalizing number with
  | nil => rfl
  | cons stage rest ih =>
    rw [agendaFrom, agendaFrom, Event.passed_append, Event.passed_append, ih, passed_events,
      passed_events]
    simp only [between, eq_comm]

/-- In every stage a rank sends before it takes. -/
theorem sendsFirst_agendaFrom (i : Fin n) (number : Nat) (stages : List (Stage n π)) :
    Event.SendsFirst (agendaFrom i number stages) := by
  induction stages generalizing number with
  | nil => exact List.Pairwise.nil
  | cons stage rest ih =>
    have hdirection : ∀ {w : Direction} {e : Event π}, e ∈ stage.half i w → e.direction = w := by
      intro w e he
      obtain ⟨_, _, _, _, rfl⟩ := mem_half.mp he
      rfl
    refine List.pairwise_append.mpr ⟨?_, ih (number + 1), ?_⟩
    · rw [List.pairwise_map, events, List.pairwise_append]
      refine ⟨?_, ?_, ?_⟩
      · refine List.pairwise_of_forall_mem_list fun a ha b _ htaken => ?_
        exact Direction.noConfusion ((hdirection ha).symm.trans htaken)
      · refine List.pairwise_of_forall_mem_list fun a _ b hb _ hsent => ?_
        exact Direction.noConfusion ((hdirection hb).symm.trans hsent)
      · intro a ha b _ htaken
        exact Direction.noConfusion ((hdirection ha).symm.trans htaken)
    · intro a ha b hb _ _
      obtain ⟨_, -, rfl⟩ := List.mem_map.mp ha
      exact le_of_mem_agendaFrom hb

theorem exists_peer_of_mem_agenda {i : Fin n} {stages : List (Stage n π)} {e : Nat × Event π}
    (h : e ∈ agenda stages i) : ∃ r : Fin n, r ≠ i ∧ e.2.peer = r := by
  have hmem : e.2 ∈ course stages i := by
    rw [← map_snd_agendaFrom i 0]
    exact List.mem_map_of_mem h
  obtain ⟨stage, -, he⟩ := List.mem_flatMap.mp hmem
  rcases List.mem_append.mp he with he | he
  · obtain ⟨r, hri, _, -, hr⟩ := mem_half.mp he
    exact ⟨r, hri, congrArg Event.peer hr⟩
  · obtain ⟨r, hri, _, -, hr⟩ := mem_half.mp he
    exact ⟨r, hri, congrArg Event.peer hr⟩

end Stage

end SpatialSearch
