import Mathlib.Algebra.Order.BigOperators.Group.Finset
import SpatialSearch.Proofs.Determinacy
import SpatialSearch.Proofs.Stages

/-!
# Ranks in step

Programs of all ranks that go through the same stages stay in step, whatever the order of
their actions: what one rank has taken from another is, stage by stage and message by message,
the beginning of what the other has sent to it, and the rest is under way. As long as a rank
has something left to do some rank can act, so the ranks come to their ends, and then no message
is left behind.
-/

namespace SpatialSearch

namespace Group

variable {n : Nat} {π ρ : Type}

/-- What a rank sends or takes with its next action, if that succeeds. -/
def nextEvent (g : Group n π ρ) (rank : Fin n) : Option (Event π) :=
  match g.programs.get rank with
  | .send dest message _ =>
    (g.mailboxes.send rank dest message).toOption.map fun _ => ⟨.sent, dest, message⟩
  | .receive source _ =>
    match g.mailboxes.receive rank source with
    | .delivered message _ => some ⟨.taken, source, message⟩
    | _ => none
  | _ => none

theorem nextEvent_of_send {p : Fin n → Program π ρ} {i dest : Fin n} {m : Message π}
    {next : Except TransferFault Unit → Program π ρ} (h : p i = .send dest m next)
    (f : Queues n π) : (of p f).nextEvent i = some ⟨.sent, dest, m⟩ := by
  have hsend : (of p f).mailboxes.send i dest m = _ := f.send_toMailboxes i dest m
  rw [nextEvent, programs_get_of, h]
  simp only [hsend]
  rfl

theorem nextEvent_of_receive {p : Fin n → Program π ρ} {f : Queues n π} {i source : Fin n}
    {next : Except TransferFault (Message π) → Program π ρ} (h : p i = .receive source next)
    {m : Message π} {rest : List (Message π)} (hf : f source i = m :: rest) :
    (of p f).nextEvent i = some ⟨.taken, source, m⟩ := by
  have hreceive : (of p f).mailboxes.receive i source = _ := Queues.receive_toMailboxes hf
  rw [nextEvent, programs_get_of, h]
  simp only [hreceive]

/-- Ranks on their way through some stages: what each has done and what it has left to do make
up its agenda, what it has left leads to its goal, and what one has sent to another is taken by
that one or under way, in this order. -/
structure Aligned (stages : List (Stage n π)) (goal : Fin n → Program π ρ)
    (finished left : Fin n → List (Nat × Event π)) (p : Fin n → Program π ρ)
    (f : Queues n π) : Prop where
  agenda : ∀ i, finished i ++ left i = Stage.agenda stages i
  performs : ∀ i, Program.Performs ((left i).map Prod.snd) (p i) (goal i)
  flow : ∀ s d : Fin n, ∃ waiting, f s d = waiting.map Prod.snd ∧
    Event.passed .sent d (finished s) = Event.passed .taken s (finished d) ++ waiting

variable {stages : List (Stage n π)} {goal : Fin n → Program π ρ}
  {finished left : Fin n → List (Nat × Event π)} {p : Fin n → Program π ρ} {f : Queues n π}

theorem Aligned.start (h : ∀ i, Program.Performs (Stage.course stages i) (p i) (goal i)) :
    Aligned stages goal (fun _ => []) (Stage.agenda stages) p .none where
  agenda i := List.nil_append _
  performs i := by
    rw [Stage.agenda, Stage.map_snd_agendaFrom]
    exact h i
  flow s d := ⟨[], rfl, rfl⟩

theorem Aligned.pairwise_left (h : Aligned stages goal finished left p f)
    {R : Nat × Event π → Nat × Event π → Prop} {i : Fin n}
    (hR : (Stage.agenda stages i).Pairwise R) : (left i).Pairwise R := by
  rw [← h.agenda] at hR
  exact (List.pairwise_append.mp hR).2.1

/-- A rank that is to take something, and to send something later, does so in a later stage. -/
theorem Aligned.lt_of_sent (h : Aligned stages goal finished left p f) {i : Fin n}
    {first : Nat × Event π} {rest : List (Nat × Event π)} (hi : left i = first :: rest)
    (hfirst : first.2.direction = .taken) {number dest : Nat} {m : Message π}
    (hmem : (number, ⟨.sent, dest, m⟩) ∈ left i) : first.1 < number := by
  have hsends : Event.SendsFirst (left i) :=
    h.pairwise_left (Stage.sendsFirst_agendaFrom i 0 stages)
  rw [hi] at hmem hsends
  have hlater := (List.mem_cons.mp hmem).resolve_left fun heq => by
    rw [← heq] at hfirst
    cases hfirst
  exact (List.pairwise_cons.mp hsends).1 _ hlater hfirst rfl

/-- What is under way and what is still to be sent is what is still to be taken. -/
theorem Aligned.ahead (h : Aligned stages goal finished left p f) {s d : Fin n}
    {waiting : List (Nat × Message π)} (hflow : Event.passed .sent d (finished s) =
      Event.passed .taken s (finished d) ++ waiting) :
    waiting ++ Event.passed .sent d (left s) = Event.passed .taken s (left d) := by
  have hall : Event.passed .taken s (finished d) ++ (waiting ++ Event.passed .sent d (left s)) =
      Event.passed .taken s (finished d) ++ Event.passed .taken s (left d) := by
    rw [← List.append_assoc, ← hflow, ← Event.passed_append, ← Event.passed_append, h.agenda,
      h.agenda]
    exact Stage.passed_agendaFrom s d 0 stages
  exact List.append_cancel_left hall

theorem passed_update (finished : Fin n → List (Nat × Event π)) (i j : Fin n) (e : Nat × Event π)
    (w : Direction) (peer : Nat) :
    Event.passed w peer (Function.update finished i (finished i ++ [e]) j) =
      Event.passed w peer (finished j) ++
        if j = i ∧ e.2.direction = w ∧ e.2.peer = peer then [(e.1, e.2.message)] else [] := by
  by_cases hji : j = i
  · subst hji
    rw [Function.update_self, Event.passed_append, Event.passed_singleton]
    simp only [true_and]
  · rw [Function.update_of_ne hji, if_neg fun h => hji h.1, List.append_nil]

/-- What holds of two families at every index still holds when both are changed at one where it
holds of the new values. -/
theorem update_related {β γ : Type} {R : Fin n → β → γ → Prop} {a : Fin n → β} {b : Fin n → γ}
    (h : ∀ j, R j (a j) (b j)) {i : Fin n} {x : β} {y : γ} (hi : R i x y) (j : Fin n) :
    R j (Function.update a i x j) (Function.update b i y j) := by
  by_cases hji : j = i
  · subst hji
    rw [Function.update_self, Function.update_self]
    exact hi
  · rw [Function.update_of_ne hji, Function.update_of_ne hji]
    exact h j

/-- A rank has had the next event of its agenda. -/
theorem Aligned.advance (h : Aligned stages goal finished left p f) {i : Fin n}
    {e : Nat × Event π} {rest : List (Nat × Event π)} (hi : left i = e :: rest)
    {next : Program π ρ} (hnext : Program.Performs (rest.map Prod.snd) next (goal i))
    {f' : Queues n π} (hflow : ∀ s d : Fin n, ∃ waiting, f' s d = waiting.map Prod.snd ∧
      Event.passed .sent d (Function.update finished i (finished i ++ [e]) s) =
        Event.passed .taken s (Function.update finished i (finished i ++ [e]) d) ++ waiting) :
    Aligned stages goal (Function.update finished i (finished i ++ [e]))
      (Function.update left i rest) (Function.update p i next) f' where
  agenda := by
    have hagenda : finished i ++ [e] ++ rest = Stage.agenda stages i := by
      rw [List.append_assoc, List.singleton_append, ← hi, h.agenda]
    exact update_related (R := fun j a b => a ++ b = Stage.agenda stages j) h.agenda hagenda
  performs := update_related
    (R := fun j a q => Program.Performs (List.map Prod.snd a) q (goal j)) h.performs hnext
  flow := hflow

theorem Aligned.send (h : Aligned stages goal finished left p f) {i dest : Fin n} {number : Nat}
    {m : Message π} {rest : List (Nat × Event π)}
    (hi : left i = (number, ⟨.sent, dest, m⟩) :: rest) {next : Program π ρ}
    (hnext : Program.Performs (rest.map Prod.snd) next (goal i)) :
    Aligned stages goal (Function.update finished i (finished i ++ [(number, ⟨.sent, dest, m⟩)]))
      (Function.update left i rest) (Function.update p i next)
      (f.put i dest (f i dest ++ [m])) := by
  refine h.advance hi hnext fun s d => ?_
  obtain ⟨waiting, hf, hflow⟩ := h.flow s d
  rw [passed_update, passed_update, hflow, if_neg (show ¬ (d = i ∧ Direction.sent = .taken ∧ _)
    from fun hd => Direction.noConfusion hd.2.1), List.append_nil, List.append_assoc]
  by_cases hsd : s = i ∧ d = dest
  · obtain ⟨rfl, rfl⟩ := hsd
    exact ⟨waiting ++ [(number, m)], by simp [hf], by simp⟩
  · have hother : ¬ (s = i ∧ Direction.sent = .sent ∧ dest.val = d.val) := fun hs =>
      hsd ⟨hs.1, Fin.ext hs.2.2.symm⟩
    rw [Queues.put_of_ne hsd, if_neg hother, List.append_nil]
    exact ⟨waiting, hf, rfl⟩

/-- What a rank takes is what the other end has sent in the same stage. -/
theorem Aligned.take (h : Aligned stages goal finished left p f) {i source : Fin n}
    {number : Nat} {m m' : Message π} {rest : List (Nat × Event π)}
    (hi : left i = (number, ⟨.taken, source, m⟩) :: rest) {q : List (Message π)}
    (hq : f source i = m' :: q) :
    m' = m ∧ ∀ next, Program.Performs (rest.map Prod.snd) next (goal i) →
      Aligned stages goal
        (Function.update finished i (finished i ++ [(number, ⟨.taken, source, m⟩)]))
        (Function.update left i rest) (Function.update p i next) (f.put source i q) := by
  obtain ⟨waiting, hf, hflow⟩ := h.flow source i
  have hahead := h.ahead hflow
  have hhead : Event.passed .taken source (left i) =
      (number, m) :: Event.passed .taken source rest := by
    rw [hi]
    simp [Event.passed]
  rw [hhead] at hahead
  rw [hf] at hq
  cases waiting with
  | nil => exact absurd hq.symm (List.cons_ne_nil m' q)
  | cons first later =>
    obtain ⟨rfl, -⟩ := List.cons.inj hahead
    obtain ⟨rfl, rfl⟩ := List.cons.inj hq
    refine ⟨rfl, fun next hnext => h.advance hi hnext fun s d => ?_⟩
    rw [passed_update, passed_update, if_neg (show ¬ (s = i ∧ Direction.taken = .sent ∧ _)
      from fun hs => Direction.noConfusion hs.2.1), List.append_nil]
    by_cases hsd : s = source ∧ d = i
    · obtain ⟨rfl, rfl⟩ := hsd
      refine ⟨later, Queues.put_same .., ?_⟩
      rw [hflow, if_pos ⟨rfl, rfl, rfl⟩, List.append_assoc]
      rfl
    · have hother : ¬ (d = i ∧ Direction.taken = .taken ∧ source.val = s.val) := fun hd =>
        hsd ⟨Fin.ext hd.2.2.symm, hd.1⟩
      rw [Queues.put_of_ne hsd, if_neg hother, List.append_nil]
      exact h.flow s d

/-- What a rank with something left to do is about to do. -/
theorem Aligned.next (h : Aligned stages goal finished left p f) {i : Fin n}
    {e : Nat × Event π} {rest : List (Nat × Event π)} (hi : left i = e :: rest) :
    (∃ (dest : Fin n) (m : Message π) (next : _), e.2 = ⟨.sent, dest, m⟩ ∧
      p i = .send dest m next ∧
        Program.Performs (rest.map Prod.snd) (next (.ok ())) (goal i)) ∨
    ∃ (source : Fin n) (m : Message π) (next : _), e.2 = ⟨.taken, source, m⟩ ∧
      p i = .receive source next ∧
        Program.Performs (rest.map Prod.snd) (next (.ok m)) (goal i) := by
  have hmem : e ∈ Stage.agenda stages i :=
    h.agenda i ▸ List.mem_append_right _ (hi ▸ List.mem_cons_self)
  obtain ⟨r, -, hr⟩ := Stage.exists_peer_of_mem_agenda hmem
  have hperf := h.performs i
  rw [hi, List.map_cons] at hperf
  obtain ⟨number, direction, peer, m⟩ := e
  obtain rfl : peer = r := hr
  cases direction with
  | sent =>
    obtain ⟨next, hp, hnext⟩ := hperf.of_sent
    exact Or.inl ⟨r, m, next, rfl, hp, hnext⟩
  | taken =>
    obtain ⟨next, hp, hnext⟩ := hperf.of_taken
    exact Or.inr ⟨r, m, next, rfl, hp, hnext⟩

/-- What a rank waits for that has not been sent yet is still to be sent. -/
theorem Aligned.mem_left_of_awaited (h : Aligned stages goal finished left p f) {i source : Fin n}
    {number : Nat} {m : Message π} {rest : List (Nat × Event π)}
    (hi : left i = (number, ⟨.taken, source, m⟩) :: rest) (hempty : f source i = []) :
    (number, ⟨.sent, i.val, m⟩) ∈ left source := by
  obtain ⟨waiting, hf, hflow⟩ := h.flow source i
  rw [hempty] at hf
  have hahead := h.ahead hflow
  rw [List.map_eq_nil_iff.mp hf.symm, List.nil_append] at hahead
  rw [← Event.mem_passed, hahead, Event.mem_passed, hi]
  exact List.mem_cons_self

/-- A rank that has something left to do can act, or it waits for what has not been sent. -/
theorem Aligned.acts_or_waits (h : Aligned stages goal finished left p f) {i : Fin n}
    {e : Nat × Event π} {rest : List (Nat × Event π)} (hi : left i = e :: rest) :
    (∃ next f', Acts i (p i) f next f') ∨
      ∃ (source : Fin n) (m : Message π), e.2 = ⟨.taken, source, m⟩ ∧ f source i = [] := by
  rcases h.next hi with ⟨dest, m, next, -, hp, -⟩ | ⟨source, m, next, he, hp, -⟩
  · exact Or.inl ⟨_, _, hp ▸ Acts.send dest m next f⟩
  · cases hq : f source i with
    | nil => exact Or.inr ⟨source, m, he, hq⟩
    | cons m' q => exact Or.inl ⟨_, _, hp ▸ Acts.receive source next hq⟩

/-- As long as a rank has something left to do, some rank can act. -/
theorem Aligned.exists_acts (h : Aligned stages goal finished left p f) {i : Fin n}
    {e : Nat × Event π} {rest : List (Nat × Event π)} (hi : left i = e :: rest) :
    ∃ j e rest, left j = e :: rest ∧ ∃ next f', Acts j (p j) f next f' := by
  -- A rank that waits for a message leads to its sender, which can act or is in an earlier
  -- stage, so that the number of the stage goes down.
  induction hnumber : e.1 using Nat.strong_induction_on generalizing i e rest with
  | _ number ih =>
    rcases h.acts_or_waits hi with hacts | ⟨source, m, he, hempty⟩
    · exact ⟨i, e, rest, hi, hacts⟩
    · obtain ⟨_, _⟩ := e
      subst hnumber he
      have hmem := h.mem_left_of_awaited hi hempty
      obtain ⟨first, later, hsource⟩ := List.exists_cons_of_ne_nil (List.ne_nil_of_mem hmem)
      rcases h.acts_or_waits hsource with hacts | ⟨s, m', hfirst, -⟩
      · exact ⟨source, first, later, hsource, hacts⟩
      · have hless := h.lt_of_sent hsource (by rw [hfirst]) hmem
        exact ih first.1 hless hsource rfl

/-- An action of a rank is the next event of its agenda. -/
theorem Aligned.step (h : Aligned stages goal finished left p f) {i : Fin n}
    {e : Nat × Event π} {rest : List (Nat × Event π)} (hi : left i = e :: rest)
    {next : Program π ρ} {f' : Queues n π} (hacts : Acts i (p i) f next f') :
    (of p f).nextEvent i = some e.2 ∧
      Aligned stages goal (Function.update finished i (finished i ++ [e]))
        (Function.update left i rest) (Function.update p i next) f' := by
  obtain ⟨number, event⟩ := e
  rcases h.next hi with ⟨dest, m, after, rfl, hp, hnext⟩ | ⟨source, m, after, rfl, hp, hnext⟩
  · obtain ⟨rfl, rfl⟩ := hacts.unique (hp ▸ Acts.send dest m after f)
    exact ⟨nextEvent_of_send hp f, h.send hi hnext⟩
  · generalize hprogram : p i = program at hacts
    obtain rfl := hprogram.symm.trans hp
    generalize hsource : source.val = s at hacts
    cases hacts with
    | receive source' _ hq =>
      obtain rfl := Fin.ext hsource
      obtain ⟨rfl, hstep⟩ := h.take hi hq
      exact ⟨nextEvent_of_receive hp hq, hstep _ hnext⟩

/-- Ranks that have nothing left to do are at their goals, with nothing under way. -/
theorem Aligned.ended (h : Aligned stages goal finished left p f) (hnil : ∀ i, left i = []) :
    p = goal ∧ f = .none := by
  constructor
  · funext i
    have hperf := h.performs i
    rw [hnil i] at hperf
    exact hperf.of_nil
  · funext s d
    obtain ⟨waiting, hf, hflow⟩ := h.flow s d
    have hahead := h.ahead hflow
    rw [hnil s, hnil d, Event.passed_nil, Event.passed_nil, List.append_nil] at hahead
    rw [hf, hahead]
    rfl

/-- With every event there is less left to do. -/
theorem sum_length_update_lt {j : Fin n} {e : Nat × Event π} {rest : List (Nat × Event π)}
    (hj : left j = e :: rest) :
    ∑ i, (Function.update left j rest i).length < ∑ i, (left i).length := by
  refine Finset.sum_lt_sum (fun i _ => ?_) ⟨j, Finset.mem_univ j, ?_⟩
  · by_cases hij : i = j
    · subst hij
      rw [Function.update_self, hj]
      exact Nat.le_succ _
    · rw [Function.update_of_ne hij]
  · rw [Function.update_self, hj]
    exact Nat.lt_succ_self _

/-- No rank is about to send to itself or to take from itself. -/
theorem Aligned.next_other (h : Aligned stages goal finished left p f) {i : Fin n}
    {e : Nat × Event π} {rest : List (Nat × Event π)} (hi : left i = e :: rest) :
    (∀ m next, p i ≠ .send i m next) ∧ ∀ next, p i ≠ .receive i next := by
  have hmem : e ∈ Stage.agenda stages i :=
    h.agenda i ▸ List.mem_append_right _ (hi ▸ List.mem_cons_self)
  obtain ⟨r, hri, hr⟩ := Stage.exists_peer_of_mem_agenda hmem
  have hpeer : e.2.peer ≠ i.val := fun heq => hri (Fin.ext (hr.symm.trans heq))
  rcases h.next hi with ⟨dest, m, next, he, hp, -⟩ | ⟨source, m, next, he, hp, -⟩
  · rw [he] at hpeer
    rw [hp]
    exact ⟨fun _ _ heq => hpeer (Program.send.inj heq).1, fun _ heq => nomatch heq⟩
  · rw [he] at hpeer
    rw [hp]
    exact ⟨fun _ _ heq => (nomatch heq), fun _ heq => hpeer (Program.receive.inj heq).1⟩

/-- From wherever they are, the ranks can come to their goals, whatever they have sent to
themselves before. -/
theorem Aligned.runs_beside (h : Aligned stages goal finished left p f)
    (own : Fin n → List (Message π)) :
    Runs p (f.beside own) goal (Queues.none.beside own) := by
  induction hsize : ∑ i, (left i).length using Nat.strong_induction_on
    generalizing finished left p f with
  | _ size ih =>
    by_cases hnil : ∀ i, left i = []
    · obtain ⟨rfl, rfl⟩ := h.ended hnil
      exact .refl _ _
    · obtain ⟨i, hi⟩ := not_forall.mp hnil
      obtain ⟨_, _, hi⟩ := List.exists_cons_of_ne_nil hi
      obtain ⟨j, e, rest, hj, next, f', hacts⟩ := h.exists_acts hi
      obtain ⟨hsend, hreceive⟩ := h.next_other hj
      obtain ⟨m, hpath⟩ := ih _ (hsize ▸ sum_length_update_lt hj) (h.step hj hacts).2 rfl
      exact ⟨m + 1, .cons j (hacts.beside hsend hreceive own) hpath⟩

/-- Nothing is under way from a rank to itself. -/
theorem Aligned.own_eq_nil (h : Aligned stages goal finished left p f) (i : Fin n) :
    f i i = [] := by
  obtain ⟨waiting, hf, hflow⟩ := h.flow i i
  have hnone : Event.passed .sent i (finished i) = [] := by
    refine List.eq_nil_iff_forall_not_mem.mpr fun m hm => ?_
    have hmem := h.agenda i ▸ List.mem_append_left (left i) (Event.mem_passed.mp hm)
    obtain ⟨r, hri, hr⟩ := Stage.exists_peer_of_mem_agenda hmem
    exact hri (Fin.ext hr.symm)
  rw [hnone] at hflow
  rw [hf, (List.append_eq_nil_iff.mp hflow.symm).2]
  rfl

/-- From wherever they are, the ranks can come to their goals. -/
theorem Aligned.runs (h : Aligned stages goal finished left p f) : Runs p f goal .none := by
  have hruns := h.runs_beside fun i => f i i
  have hown : (fun i => f i i) = fun i => Queues.none i i := funext h.own_eq_nil
  rwa [Queues.beside_self, hown, Queues.beside_self] at hruns

/-! ### Every run -/

/-- A group that is reached from another one, and what each rank has sent and taken on the
way. -/
inductive Recorded (start : Group n π ρ) : (Fin n → List (Event π)) → Group n π ρ → Prop where
  | start : Recorded start (fun _ => []) start
  | act {log : Fin n → List (Event π)} {g after : Group n π ρ} (rank : Fin n)
      (h : Recorded start log g) (hact : g.act rank = some after) :
      Recorded start (Function.update log rank (log rank ++ (g.nextEvent rank).toList)) after

/-- All that the ranks have sent and taken belongs to the stages: each has had a beginning of
its agenda, the whole of it if it has ended, and what it has not yet taken of what another has
sent it, message by message in the same stages, is under way to it. -/
def InStep (stages : List (Stage n π)) (log : Fin n → List (Event π)) (g : Group n π ρ) : Prop :=
  ∃ finished : Fin n → List (Nat × Event π),
    (∀ i, finished i <+: Stage.agenda stages i ∧ log i = (finished i).map Prod.snd) ∧
    (∀ i result, g.programs.get i = .done result → finished i = Stage.agenda stages i) ∧
    ∀ s d : Fin n, ∃ waiting, g.mailboxes.queue s d = waiting.map Prod.snd ∧
      Event.passed .sent d (finished s) = Event.passed .taken s (finished d) ++ waiting

/-- A rank with something left to do acts, if at all, without leaving its group. -/
theorem Aligned.acts_of_act (h : Aligned stages goal finished left p f) {i : Fin n}
    {e : Nat × Event π} {rest : List (Nat × Event π)} (hi : left i = e :: rest)
    {after : Group n π ρ} (hact : (of p f).act i = some after) :
    ∃ next f', Acts i (p i) f next f' ∧ after = of (Function.update p i next) f' := by
  rcases h.next hi with ⟨dest, m, next, -, hp, -⟩ | ⟨source, m, next, -, hp, -⟩
  · exact Group.acts_of_act hact (hp ▸ Acts.send dest m next f)
  · exact Group.acts_of_act hact
      (hp ▸ Acts.receive source next (Queues.put_same Queues.none source i [m]))

variable {result : Fin n → ρ}

/-- Whatever ranks do that go through some stages, they stay in step. -/
theorem Recorded.aligned
    (hstart : ∀ i, Program.Performs (Stage.course stages i) (p i) (.done (result i)))
    {log : Fin n → List (Event π)} {g : Group n π ρ} (h : Recorded (of p .none) log g) :
    ∃ finished left p' f, g = of p' f ∧
      Aligned stages (fun i => .done (result i)) finished left p' f ∧
      ∀ i, log i = (finished i).map Prod.snd := by
  induction h with
  | start => exact ⟨_, _, p, .none, rfl, Aligned.start hstart, fun _ => rfl⟩
  | @act log g after rank _ hact ih =>
    obtain ⟨finished, left, p', f, rfl, haligned, hlog⟩ := ih
    cases hleft : left rank with
    | nil =>
      have hdone := haligned.performs rank
      rw [hleft] at hdone
      rw [Group.act, programs_get_of, hdone.of_nil] at hact
      cases hact
    | cons e rest =>
      obtain ⟨next, f', hacts, rfl⟩ := haligned.acts_of_act hleft hact
      obtain ⟨hevent, hnext⟩ := haligned.step hleft hacts
      refine ⟨_, _, _, _, rfl, hnext, fun i => ?_⟩
      rw [hevent]
      by_cases hi : i = rank
      · subst hi
        rw [Function.update_self, Function.update_self, hlog, List.map_append]
        rfl
      · rw [Function.update_of_ne hi, Function.update_of_ne hi, hlog]

theorem Recorded.inStep
    (hstart : ∀ i, Program.Performs (Stage.course stages i) (p i) (.done (result i)))
    {log : Fin n → List (Event π)} {g : Group n π ρ} (h : Recorded (of p .none) log g) :
    InStep stages log g := by
  obtain ⟨finished, left, p', f, rfl, haligned, hlog⟩ := h.aligned hstart
  refine ⟨finished, fun i => ⟨⟨left i, haligned.agenda i⟩, hlog i⟩, fun i r hdone => ?_,
    fun s d => ?_⟩
  · have hperf := haligned.performs i
    rw [← programs_get_of p' f i, hdone] at hperf
    rw [← haligned.agenda i, List.map_eq_nil_iff.mp hperf.eq_nil_of_done, List.append_nil]
  · obtain ⟨waiting, hf, hflow⟩ := haligned.flow s d
    exact ⟨waiting, (Queues.queue_toMailboxes f s d).trans hf, hflow⟩

/-- No rank that goes through some stages gives up. -/
theorem Recorded.not_gaveUp
    (hstart : ∀ i, Program.Performs (Stage.course stages i) (p i) (.done (result i)))
    {log : Fin n → List (Event π)} {g : Group n π ρ} (h : Recorded (of p .none) log g)
    (i : Fin n) (cause : Abort) : g.programs.get i ≠ .gaveUp cause := by
  intro hgaveUp
  obtain ⟨finished, left, p', f, rfl, haligned, -⟩ := h.aligned hstart
  have hperf := haligned.performs i
  rw [programs_get_of] at hgaveUp
  rw [hgaveUp] at hperf
  cases hperf.eq_of_gaveUp

/-- What every run comes to is recorded of some run. -/
theorem AlwaysEnds.exists_recorded {start g : Group n π ρ} {P : Group n π ρ → Prop}
    {log : Fin n → List (Event π)} (hends : AlwaysEnds P g) (h : Recorded start log g) :
    ∃ log last, Recorded start log last ∧ P last := by
  induction hends generalizing log with
  | ended _ hP => exact ⟨log, _, h, hP⟩
  | goes hstep _ ih =>
    obtain ⟨after, rank, hact⟩ := hstep
    exact ih after ⟨rank, hact⟩ (h.act rank hact)

/-- Every rank has its result and no message is under way. -/
def Settled (result : Fin n → ρ) (g : Group n π ρ) : Prop :=
  (∀ i, g.programs.get i = .done (result i)) ∧ ∀ s d, g.mailboxes.queue s d = []

/-- Ranks that go through some stages come to their ends, in whatever order they act and
whatever they have sent to themselves before. -/
theorem alwaysEnds_beside
    (h : ∀ i, Program.Performs (Stage.course stages i) (p i) (.done (result i)))
    (own : Fin n → List (Message π)) :
    AlwaysEnds (fun g => (∀ i, g.programs.get i = .done (result i)) ∧
      ∀ s d, g.mailboxes.queue s d = Queues.none.beside own s d)
      (of p (Queues.none.beside own)) := by
  obtain ⟨m, hpath⟩ := (Aligned.start h).runs_beside own
  refine hpath.alwaysEnds (fun _ => rfl) ⟨fun i => programs_get_of .., fun s d => ?_⟩
  exact Queues.queue_toMailboxes (Queues.none.beside own) s d

theorem alwaysEnds_of_performs
    (h : ∀ i, Program.Performs (Stage.course stages i) (p i) (.done (result i))) :
    AlwaysEnds (Settled result) (of p .none) := by
  have hends := alwaysEnds_beside h fun i => Queues.none i i
  rw [Queues.beside_self] at hends
  exact hends

end Group

end SpatialSearch
