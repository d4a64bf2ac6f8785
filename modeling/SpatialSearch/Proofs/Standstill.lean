import SpatialSearch.Proofs.InStep

/-!
# Ranks that stop early

Some ranks of a group may end before the stages do that the others go through. What such a rank
has left out is never sent. The others go on as far as they can: a rank that can do no more waits
for a message, and behind that message stands, at the end of a chain of ranks that wait for each
other, something that a rank has left out, in the same stage or in an earlier one.

So ranks that stop between two runs of stages end as if nobody had stopped, and the others stand
still in the second run. If its first stage lets each of them wait for a rank that has stopped,
it is such a rank that each of them waits for in the end.
-/

namespace SpatialSearch

namespace Program

variable {π ρ σ : Type}

def replay : List (Event π) → Program π Unit
  | [] => .done ()
  | ⟨.sent, peer, message⟩ :: rest => .send peer message fun _ => replay rest
  | ⟨.taken, peer, _⟩ :: rest => .receive peer fun _ => replay rest

theorem performs_replay (events : List (Event π)) : Performs events (replay events) (.done ()) := by
  induction events with
  | nil => exact .nil _
  | cons e rest ih =>
    obtain ⟨direction, peer, message⟩ := e
    cases direction with
    | sent => exact .send peer message ih
    | taken => exact .receive peer message ih

/-- What a program comes to by some events is determined by them. -/
theorem Performs.cancel {a b : List (Event π)} {p q r : Program π ρ} (hq : Performs a p q)
    (hr : Performs (a ++ b) p r) : Performs b q r := by
  induction hq with
  | nil _ => exact hr
  | send dest message _ ih =>
    obtain ⟨_, hp, hrest⟩ := hr.of_sent
    cases hp
    exact ih hrest
  | receive source message _ ih =>
    obtain ⟨_, hp, hrest⟩ := hr.of_taken
    cases hp
    exact ih hrest

theorem Performs.unique {a : List (Event π)} {p q r : Program π ρ} (hq : Performs a p q)
    (hr : Performs a p r) : q = r :=
  (hq.cancel (b := []) ((List.append_nil a).symm ▸ hr)).of_nil

theorem Performs.split {a b : List (Event π)} {p r : Program π ρ} (h : Performs (a ++ b) p r) :
    ∃ q, Performs a p q ∧ Performs b q r := by
  induction a generalizing p with
  | nil => exact ⟨p, .nil p, h⟩
  | cons e rest ih =>
    obtain ⟨direction, peer, message⟩ := e
    cases direction with
    | sent =>
      obtain ⟨_, rfl, hrest⟩ := h.of_sent
      obtain ⟨q, hq, hr⟩ := ih hrest
      exact ⟨q, .send peer message hq, hr⟩
    | taken =>
      obtain ⟨_, rfl, hrest⟩ := h.of_taken
      obtain ⟨q, hq, hr⟩ := ih hrest
      exact ⟨q, .receive peer message hq, hr⟩

end Program

namespace Stage

variable {n : Nat} {π : Type}

theorem agendaFrom_append (i : Fin n) (number : Nat) (first more : List (Stage n π)) :
    agendaFrom i number (first ++ more) =
      agendaFrom i number first ++ agendaFrom i (number + first.length) more := by
  induction first generalizing number with
  | nil => rfl
  | cons stage rest ih =>
    rw [List.cons_append, agendaFrom, agendaFrom, ih, List.append_assoc, List.length_cons]
    congr 3
    omega

theorem lt_of_mem_agendaFrom {i : Fin n} {number : Nat} {stages : List (Stage n π)}
    {e : Nat × Event π} (h : e ∈ agendaFrom i number stages) : e.1 < number + stages.length := by
  induction stages generalizing number with
  | nil => nomatch h
  | cons stage rest ih =>
    rw [List.length_cons]
    rcases List.mem_append.mp h with h | h
    · obtain ⟨_, -, rfl⟩ := List.mem_map.mp h
      omega
    · have := ih h
      omega

theorem pairwise_agendaFrom (i : Fin n) (number : Nat) (stages : List (Stage n π)) :
    (agendaFrom i number stages).Pairwise fun a b => a.1 ≤ b.1 := by
  induction stages generalizing number with
  | nil => exact .nil
  | cons stage rest ih =>
    refine List.pairwise_append.mpr ⟨?_, ih (number + 1), fun a ha b hb => ?_⟩
    · rw [List.pairwise_map]
      exact List.pairwise_of_forall fun _ _ => Nat.le_refl number
    · obtain ⟨_, -, rfl⟩ := List.mem_map.mp ha
      exact (Nat.le_succ number).trans (le_of_mem_agendaFrom hb)

theorem agenda_append (i : Fin n) (first more : List (Stage n π)) : agenda (first ++ more) i =
    agenda first i ++ agendaFrom i first.length more := by
  rw [agenda, agendaFrom_append, Nat.zero_add, agenda]

theorem map_snd_agenda (i : Fin n) (stages : List (Stage n π)) :
    (agenda stages i).map Prod.snd = course stages i := map_snd_agendaFrom i 0 stages

end Stage

namespace Group

variable {n : Nat} {π ρ σ : Type}

theorem Acts.bind {i : Fin n} {p next : Program π ρ} {f f' : Queues n π} (h : Acts i p f next f')
    (k : ρ → Program π σ) : Acts i (p.bind k) f (next.bind k) f' := by
  cases h with
  | send dest message next => exact .send dest message _ f
  | receive source next h => exact .receive source _ h

/-- A rank acts by the event that is next, also when more would follow at its end. -/
theorem Acts.performs {p : Fin n → Program π ρ} {i : Fin n} {next : Program π ρ}
    {f f' : Queues n π} (h : Acts i (p i) f next f') (k : Fin n → ρ → Program π σ) :
    ∃ event, (of (fun j => (p j).bind (k j)) f).nextEvent i = some event ∧
      Program.Performs [event] (p i) next := by
  generalize hp : p i = before at h
  cases h with
  | send dest message next =>
    have hbind : (p i).bind (k i) = .send dest message _ := congrArg (·.bind (k i)) hp
    exact ⟨_, nextEvent_of_send hbind f, .send dest message (.nil _)⟩
  | @receive source next _ message _ h =>
    have hbind : (p i).bind (k i) = .receive source _ := congrArg (·.bind (k i)) hp
    exact ⟨_, nextEvent_of_receive hbind h, .receive source message (.nil _)⟩

/-- Ranks on their way through some stages of which they leave out the ends of their agendas. If a
rank carried out what it leaves out when it has ended, all of them would be aligned. -/
structure Curtailed (stages : List (Stage n π)) (later : Fin n → List (Nat × Event π))
    (origin : Fin n → Program π ρ) (result : Fin n → ρ)
    (finished left : Fin n → List (Nat × Event π)) (p : Fin n → Program π ρ)
    (f : Queues n π) : Prop where
  aligned : Aligned stages (fun _ => .done ()) finished (fun i => left i ++ later i)
    (fun i => (p i).bind fun _ => .replay ((later i).map Prod.snd)) f
  reached : ∀ i, Program.Performs ((finished i).map Prod.snd) (origin i) (p i)
  performs : ∀ i, Program.Performs ((left i).map Prod.snd) (p i) (.done (result i))

/-- A rank waits for a message from another one that is not there. -/
def WaitsFor (g : Group n π ρ) (i source : Fin n) : Prop :=
  ∃ next, g.programs.get i = .receive source next ∧ g.mailboxes.receive i source = .awaited

variable {stages : List (Stage n π)} {later : Fin n → List (Nat × Event π)}
  {origin : Fin n → Program π ρ} {result : Fin n → ρ}
  {finished left : Fin n → List (Nat × Event π)} {p : Fin n → Program π ρ} {f : Queues n π}

theorem Curtailed.start (hagenda : ∀ i, left i ++ later i = Stage.agenda stages i)
    (h : ∀ i, Program.Performs ((left i).map Prod.snd) (origin i) (.done (result i))) :
    Curtailed stages later origin result (fun _ => []) left origin .none where
  aligned := {
    agenda := hagenda
    performs := fun i => by
      rw [List.map_append]
      exact (h i).andThen (Program.performs_replay _)
    flow := fun _ _ => ⟨[], rfl, rfl⟩ }
  reached i := .nil _
  performs := h

/-- What a rank with something left to do is about to do. -/
theorem Curtailed.next (h : Curtailed stages later origin result finished left p f) {i : Fin n}
    {e : Nat × Event π} {rest : List (Nat × Event π)} (hi : left i = e :: rest) :
    (∃ (dest : Fin n) (m : Message π) (next : _), e.2 = ⟨.sent, dest, m⟩ ∧
      p i = .send dest m next) ∨
    ∃ (source : Fin n) (m : Message π) (next : _), e.2 = ⟨.taken, source, m⟩ ∧
      p i = .receive source next := by
  have hperf := h.performs i
  rw [hi, List.map_cons] at hperf
  have hleft : left i ++ later i = e :: (rest ++ later i) := by rw [hi, List.cons_append]
  rcases h.aligned.next hleft with ⟨dest, m, _, he, -, -⟩ | ⟨source, m, _, he, -, -⟩
  · rw [he] at hperf
    obtain ⟨next, hp, -⟩ := hperf.of_sent
    exact Or.inl ⟨dest, m, next, he, hp⟩
  · rw [he] at hperf
    obtain ⟨next, hp, -⟩ := hperf.of_taken
    exact Or.inr ⟨source, m, next, he, hp⟩

/-- An action of a rank is the next event of its agenda. -/
theorem Curtailed.step (h : Curtailed stages later origin result finished left p f) {i : Fin n}
    {e : Nat × Event π} {rest : List (Nat × Event π)} (hi : left i = e :: rest)
    {next : Program π ρ} {f' : Queues n π} (hacts : Acts i (p i) f next f') :
    Curtailed stages later origin result (Function.update finished i (finished i ++ [e]))
      (Function.update left i rest) (Function.update p i next) f' := by
  have hleft : left i ++ later i = e :: (rest ++ later i) := by rw [hi, List.cons_append]
  obtain ⟨hevent, haligned⟩ := h.aligned.step hleft
    (hacts.bind fun _ => .replay ((later i).map Prod.snd))
  obtain ⟨event, hnext, hperf⟩ := hacts.performs fun j _ => .replay ((later j).map Prod.snd)
  obtain rfl : event = e.2 := Option.some.inj (hnext.symm.trans hevent)
  constructor
  · have hlefts := funext fun j =>
      Function.apply_update (fun j (l : List (Nat × Event π)) => l ++ later j) left i rest j
    have hprograms := funext fun j => Function.apply_update (fun j (q : Program π ρ) =>
      q.bind fun _ => Program.replay ((later j).map Prod.snd)) p i next j
    rw [hlefts, hprograms]
    exact haligned
  · have hreached : Program.Performs ((finished i ++ [e]).map Prod.snd) (origin i) next := by
      rw [List.map_append]
      exact (h.reached i).append hperf
    exact update_related
      (R := fun j a q => Program.Performs (List.map Prod.snd a) (origin j) q) h.reached hreached
  · have hrest := h.performs i
    rw [hi] at hrest
    exact update_related
      (R := fun j a q => Program.Performs (List.map Prod.snd a) q (.done (result j)))
      h.performs (hperf.cancel hrest)

/-- A rank acts, if at all, on something that it has left to do. -/
theorem Curtailed.acts_of_act (h : Curtailed stages later origin result finished left p f)
    {i : Fin n} {after : Group n π ρ} (hact : (of p f).act i = some after) :
    ∃ e rest next f', left i = e :: rest ∧ Acts i (p i) f next f' ∧
      after = of (Function.update p i next) f' := by
  cases hi : left i with
  | nil =>
    have hperf := h.performs i
    rw [hi] at hperf
    rw [Group.act, programs_get_of, hperf.of_nil] at hact
    cases hact
  | cons e rest =>
    have hsome : ∃ f₁ next₁ f₂, Acts i (p i) f₁ next₁ f₂ := by
      rcases h.next hi with ⟨dest, m, next, -, hp⟩ | ⟨source, m, next, -, hp⟩
      · exact ⟨f, _, _, hp ▸ Acts.send dest m next f⟩
      · exact ⟨_, _, _, hp ▸ Acts.receive source next (Queues.put_same Queues.none source i [m])⟩
    obtain ⟨_, _, _, hacts⟩ := hsome
    obtain ⟨next, f', hnext, rfl⟩ := Group.acts_of_act hact hacts
    exact ⟨e, rest, next, f', rfl, hnext, rfl⟩

/-- Whatever the order in which they act, the ranks come to a state in which none of them can. -/
theorem Curtailed.alwaysEnds {P : Group n π ρ → Prop}
    (hP : ∀ {finished left p f}, Curtailed stages later origin result finished left p f →
      (∀ i next f', ¬ Acts i (p i) f next f') → P (of p f))
    (h : Curtailed stages later origin result finished left p f) : AlwaysEnds P (of p f) := by
  induction hsize : ∑ i, (left i).length using Nat.strong_induction_on
    generalizing finished left p f with
  | _ size ih =>
    by_cases hstill : ∀ i next f', ¬ Acts i (p i) f next f'
    · refine .ended (fun after hstep => ?_) (hP h hstill)
      obtain ⟨i, hact⟩ := hstep
      obtain ⟨_, _, _, _, -, hacts, -⟩ := h.acts_of_act hact
      exact hstill _ _ _ hacts
    · simp only [not_forall, not_not] at hstill
      obtain ⟨i, next, f', hacts⟩ := hstill
      refine .goes ⟨_, i, hacts.act⟩ fun after hstep => ?_
      obtain ⟨j, hact⟩ := hstep
      obtain ⟨e, rest, next, f', hj, hacts, rfl⟩ := h.acts_of_act hact
      exact ih _ (hsize ▸ sum_length_update_lt hj) (h.step hj hacts) rfl

/-! ### When no rank can act -/

section

variable (h : Curtailed stages later origin result finished left p f)
  (hstill : ∀ i next f', ¬ Acts i (p i) f next f')

include h hstill

/-- A rank that has something left to do waits for a message that has not been sent. -/
theorem Curtailed.awaits {i : Fin n} {e : Nat × Event π} {rest : List (Nat × Event π)}
    (hi : left i = e :: rest) : ∃ (source : Fin n) (m : Message π) (next : _),
      e.2 = ⟨.taken, source, m⟩ ∧ p i = .receive source next ∧ f source i = [] := by
  rcases h.next hi with ⟨dest, m, next, -, hp⟩ | ⟨source, m, next, he, hp⟩
  · exact absurd (hp ▸ Acts.send dest m next f) (hstill i _ _)
  · refine ⟨source, m, next, he, hp, ?_⟩
    cases hq : f source i with
    | nil => rfl
    | cons m' q => exact absurd (hp ▸ Acts.receive source next hq) (hstill i _ _)

/-- What a rank waits for is left out by its sender, or the sender waits itself, in an earlier stage
since it sends before it takes. -/
theorem Curtailed.omitted_or_earlier {i source : Fin n} {number : Nat} {m : Message π}
    {rest : List (Nat × Event π)} (hi : left i = (number, ⟨.taken, source, m⟩) :: rest)
    (hempty : f source i = []) : (number, ⟨.sent, i, m⟩) ∈ later source ∨
      ∃ e' rest', left source = e' :: rest' ∧ e'.1 < number := by
  have hleft : left i ++ later i = (number, ⟨.taken, source, m⟩) :: (rest ++ later i) := by
    rw [hi, List.cons_append]
  rcases List.mem_append.mp (h.aligned.mem_left_of_awaited hleft hempty) with hmem | hmem
  · obtain ⟨first, others, hsource⟩ := List.exists_cons_of_ne_nil (List.ne_nil_of_mem hmem)
    obtain ⟨_, _, _, hfirst, -, -⟩ := h.awaits hstill hsource
    have hahead : left source ++ later source = first :: (others ++ later source) := by
      rw [hsource, List.cons_append]
    have hless := h.aligned.lt_of_sent hahead (by rw [hfirst]) (List.mem_append_left _ hmem)
    exact Or.inr ⟨first, others, hsource, hless⟩
  · exact Or.inl hmem

/-- A rank that has something left to do waits, in the end, for something that is left out, in the
same stage or in an earlier one. -/
theorem Curtailed.exists_later {i : Fin n} {e : Nat × Event π} {rest : List (Nat × Event π)}
    (hi : left i = e :: rest) : ∃ j, ∃ e' ∈ later j, e'.1 ≤ e.1 := by
  induction hnumber : e.1 using Nat.strong_induction_on generalizing i e rest with
  | _ number ih =>
    obtain ⟨source, m, _, he, -, hempty⟩ := h.awaits hstill hi
    obtain rfl : e = (number, ⟨.taken, source, m⟩) := Prod.ext hnumber he
    rcases h.omitted_or_earlier hstill hi hempty with hmem | ⟨e', rest', hsource, hless⟩
    · exact ⟨source, _, hmem, Nat.le_refl _⟩
    · obtain ⟨j, e'', hmem, hle⟩ := ih e'.1 hless hsource rfl
      exact ⟨j, e'', hmem, hle.trans hless.le⟩

end

/-! ### Ranks that stop between two runs of stages -/

section

variable {first more : List (Stage n π)}

/-- Ranks that leave out nothing of a first run of stages come through it before no rank can act. -/
theorem Curtailed.beyond (h : Curtailed (first ++ more) later origin result finished left p f)
    (hstill : ∀ i next f', ¬ Acts i (p i) f next f')
    (hlater : ∀ j, ∀ e ∈ later j, first.length ≤ e.1) (i : Fin n) :
    ∃ events, finished i = Stage.agenda first i ++ events ∧
      events ++ (left i ++ later i) = Stage.agendaFrom i first.length more := by
  have hagenda := h.aligned.agenda i
  rw [Stage.agenda_append] at hagenda
  rcases List.append_eq_append_iff.mp hagenda with ⟨missing, hfirst, hrest⟩ | ⟨events, hdone, hmore⟩
  · cases missing with
    | nil => exact ⟨[], by rw [hfirst, List.append_nil, List.append_nil], hrest⟩
    | cons e missing =>
      have hless : e.1 < first.length := by
        have hmem : e ∈ Stage.agendaFrom i 0 first := by
          rw [← Stage.agenda, hfirst]
          exact List.mem_append_right _ List.mem_cons_self
        have := Stage.lt_of_mem_agendaFrom hmem
        omega
      have hnone : first.length ≤ e.1 := by
        cases hleft : left i with
        | nil =>
          rw [hleft, List.nil_append] at hrest
          exact hlater i e (hrest ▸ List.mem_cons_self)
        | cons e' rest =>
          obtain ⟨j, later', hmem, hle⟩ := h.exists_later hstill hleft
          rw [hleft] at hrest
          obtain ⟨rfl, -⟩ := List.cons.inj hrest
          exact (hlater j later' hmem).trans hle
      omega
  · exact ⟨events, hdone, hmore.symm⟩

variable {stops : Fin n → Prop} [DecidablePred stops] {middle : Fin n → Program π ρ}

/-- All ranks go through a first run of stages. Those that stop are at their ends then, and the
others stand still in a second run, each of them waiting for one that has stopped. -/
structure Stopped (more : List (Stage n π)) (stops : Fin n → Prop) (middle : Fin n → Program π ρ)
    (result : Fin n → ρ) (g : Group n π ρ) : Prop where
  ended : ∀ i, stops i → g.programs.get i = .done (result i)
  waits : ∀ i, ¬ stops i → ∃ r, stops r ∧ g.WaitsFor i r
  within : ∀ i, ¬ stops i → ∃ events rest, events ++ rest = Stage.course more i ∧
    Program.Performs events (middle i) (g.programs.get i)

/-- What a rank leaves out that may stop before some stages. -/
def omitted (number : Nat) (more : List (Stage n π)) (stops : Fin n → Prop) [DecidablePred stops]
    (i : Fin n) : List (Nat × Event π) := if stops i then Stage.agendaFrom i number more else []

theorem omitted_of_stops {number : Nat} {i : Fin n} (h : stops i) :
    omitted number more stops i = Stage.agendaFrom i number more := if_pos h

theorem omitted_of_goes {number : Nat} {i : Fin n} (h : ¬ stops i) :
    omitted number more stops i = [] := if_neg h

theorem le_of_mem_omitted {number : Nat} {i : Fin n} {e : Nat × Event π}
    (he : e ∈ omitted number more stops i) : number ≤ e.1 := by
  rw [omitted] at he
  split at he
  · exact Stage.le_of_mem_agendaFrom he
  · nomatch he

theorem curtailed_of_stopping
    (hfirst : ∀ i, Program.Performs (Stage.course first i) (origin i) (middle i))
    (hstops : ∀ i, stops i → middle i = .done (result i))
    (hgoes : ∀ i, ¬ stops i →
      Program.Performs (Stage.course more i) (middle i) (.done (result i))) :
    ∃ left, Curtailed (first ++ more) (omitted first.length more stops) origin result
      (fun _ => []) left origin .none := by
  refine ⟨fun i => Stage.agenda first i ++ omitted first.length more (¬ stops ·) i,
    Curtailed.start (fun i => ?_) fun i => ?_⟩
  · rw [Stage.agenda_append, List.append_assoc]
    by_cases hi : stops i <;> simp [omitted, hi]
  · rw [List.map_append, Stage.map_snd_agenda]
    refine (hfirst i).append ?_
    by_cases hi : stops i
    · rw [omitted_of_goes (not_not.mpr hi), hstops i hi]
      exact .nil _
    · rw [omitted_of_stops hi, Stage.map_snd_agendaFrom]
      exact hgoes i hi

section

variable (h : Curtailed (first ++ more) (omitted first.length more stops) origin result finished
    left p f)

include h

/-- What a rank that stops would send to one that goes on, that one has left to take. -/
theorem Curtailed.mem_left_of_goes {i r : Fin n} (hi : ¬ stops i) (hr : stops r) {number : Nat}
    {m : Message π} (hm : (number, ⟨.sent, i, m⟩) ∈ Stage.agendaFrom r first.length more) :
    (number, ⟨.taken, r, m⟩) ∈ left i := by
  obtain ⟨waiting, -, hflow⟩ := h.aligned.flow r i
  have hahead := h.aligned.ahead hflow
  rw [omitted_of_goes hi, List.append_nil] at hahead
  rw [← Event.mem_passed, ← hahead]
  refine List.mem_append_right _ (Event.mem_passed.mpr (List.mem_append_right _ ?_))
  rw [omitted_of_stops hr]
  exact hm

variable (hstill : ∀ i next f', ¬ Acts i (p i) f next f')

include hstill

/-- A rank that stops has nothing left to do. -/
theorem Curtailed.left_of_stops {i : Fin n} (hi : stops i) : left i = [] := by
  obtain ⟨events, -, hevents⟩ := h.beyond hstill (fun _ _ => le_of_mem_omitted) i
  rw [omitted_of_stops hi, ← List.append_assoc, List.append_left_eq_self] at hevents
  exact (List.append_eq_nil_iff.mp hevents).2

/-- What a rank has left to do is in the second run. -/
theorem Curtailed.le_of_mem_left {i : Fin n} {e : Nat × Event π} (he : e ∈ left i) :
    first.length ≤ e.1 := by
  obtain ⟨events, -, hevents⟩ := h.beyond hstill (fun _ _ => le_of_mem_omitted) i
  have hmem : e ∈ Stage.agendaFrom i first.length more := by
    rw [← hevents]
    exact List.mem_append_right _ (List.mem_append_left _ he)
  exact Stage.le_of_mem_agendaFrom hmem

/-- A rank that has left to take something in the first stage of the second run waits for one that
stops: any other one has sent all that it sends in that stage. -/
theorem Curtailed.waitsFor_stopped {i : Fin n} {event : Event π}
    (hmem : (first.length, event) ∈ left i) : ∃ r, stops r ∧ (of p f).WaitsFor i r := by
  obtain ⟨⟨number, _⟩, rest, hleft⟩ := List.exists_cons_of_ne_nil (List.ne_nil_of_mem hmem)
  obtain ⟨r, m, next, rfl, hp, hempty⟩ := h.awaits hstill hleft
  have hnumber : number ≤ first.length := by
    have hahead := h.aligned.pairwise_left (Stage.pairwise_agendaFrom i 0 (first ++ more))
    have hpairwise : (left i).Pairwise fun a b => a.1 ≤ b.1 := (List.pairwise_append.mp hahead).1
    rw [hleft] at hmem hpairwise
    rcases List.mem_cons.mp hmem with heq | hmem
    · exact (congrArg Prod.fst heq).ge
    · exact (List.pairwise_cons.mp hpairwise).1 _ hmem
  refine ⟨r, ?_, next, (programs_get_of p f i).trans hp, Queues.receive_toMailboxes_nil hempty⟩
  by_contra hgoes
  rcases h.omitted_or_earlier hstill hleft hempty with hsent | ⟨e', rest', hr, hless⟩
  · rw [omitted_of_goes hgoes] at hsent
    cases hsent
  · have := h.le_of_mem_left hstill (hr ▸ List.mem_cons_self)
    omega

theorem Curtailed.stopped
    (hfirst : ∀ i, Program.Performs (Stage.course first i) (origin i) (middle i))
    (hsends : ∀ i, ¬ stops i → ∃ r, stops r ∧
      ∃ m, (first.length, ⟨.sent, i, m⟩) ∈ Stage.agendaFrom r first.length more) :
    Stopped more stops middle result (of p f) := by
  constructor
  · intro i hi
    have hperf := h.performs i
    rw [h.left_of_stops hstill hi] at hperf
    rw [programs_get_of, hperf.of_nil]
  · intro i hi
    obtain ⟨r, hr, m, hm⟩ := hsends i hi
    exact h.waitsFor_stopped hstill (h.mem_left_of_goes hi hr hm)
  · intro i hi
    obtain ⟨events, hfinished, hevents⟩ := h.beyond hstill (fun _ _ => le_of_mem_omitted) i
    rw [omitted_of_goes hi, List.append_nil] at hevents
    have hreached := h.reached i
    rw [hfinished, List.map_append, Stage.map_snd_agenda] at hreached
    refine ⟨events.map Prod.snd, (left i).map Prod.snd, ?_, ?_⟩
    · rw [← List.map_append, hevents, Stage.map_snd_agendaFrom]
    · rw [programs_get_of]
      exact (hfirst i).cancel hreached

end

/-- If some ranks stop between two runs of stages, and each of the others gets something in the
first stage of the second run from one that stops, then every run ends with the others standing
still in it. -/
theorem alwaysEnds_of_stopping {stage : Stage n π} {rest : List (Stage n π)}
    (hfirst : ∀ i, Program.Performs (Stage.course first i) (origin i) (middle i))
    (hstops : ∀ i, stops i → middle i = .done (result i))
    (hgoes : ∀ i, ¬ stops i →
      Program.Performs (Stage.course (stage :: rest) i) (middle i) (.done (result i)))
    (hsends : ∀ i, ¬ stops i → ∃ r, stops r ∧
      ∃ m, (⟨.sent, i, m⟩ : Event π) ∈ stage.events r) :
    AlwaysEnds (Stopped (stage :: rest) stops middle result) (of origin .none) := by
  obtain ⟨left, hstart⟩ := curtailed_of_stopping hfirst hstops hgoes
  refine hstart.alwaysEnds fun h hstill => h.stopped hstill hfirst fun i hi => ?_
  obtain ⟨r, hr, m, hm⟩ := hsends i hi
  exact ⟨r, hr, m, List.mem_append_left _ (List.mem_map_of_mem hm)⟩

end

end Group

end SpatialSearch
