import SpatialSearch.Proofs.InStep

/-!
# Where messages come from

Whatever the programs of the ranks are, and also when ranks leave, the queues of a group are first
in, first out: what one rank has taken from another is the beginning of what that one has sent to
it, and the rest is under way. What a rank has sent and taken is what its program has gone through.
-/

namespace SpatialSearch

namespace Event

variable {π : Type}

def messages (w : Direction) (peer : Nat) (events : List (Event π)) : List (Message π) :=
  (events.filter fun e => e.direction = w ∧ e.peer = peer).map (·.message)

variable {w : Direction} {peer : Nat}

@[simp] theorem messages_append (a b : List (Event π)) :
    messages w peer (a ++ b) = messages w peer a ++ messages w peer b := by
  simp [messages]

@[simp] theorem messages_nil : messages w peer ([] : List (Event π)) = [] := rfl

theorem messages_singleton (e : Event π) : messages w peer [e] =
    if e.direction = w ∧ e.peer = peer then [e.message] else [] := by
  by_cases h : e.direction = w ∧ e.peer = peer <;> simp [messages, h]

theorem mem_messages {events : List (Event π)} {message : Message π} :
    message ∈ messages w peer events ↔ ⟨w, peer, message⟩ ∈ events := by
  simp only [messages, List.mem_map, List.mem_filter, decide_eq_true_eq]
  constructor
  · rintro ⟨⟨_, _, _⟩, ⟨he, rfl, rfl⟩, rfl⟩
    exact he
  · intro he
    exact ⟨_, ⟨he, rfl, rfl⟩, rfl⟩

end Event

namespace Program

variable {π ρ σ : Type}

/-- An action takes one program to another, with the message that goes through, if one does. -/
inductive Turns : Program π ρ → List (Event π) → Program π ρ → Prop where
  | leave (next : Program π ρ) : Turns (.leave next) [] next
  | send (dest : Nat) (message : Message π) (next : Except TransferFault Unit → Program π ρ) :
      Turns (.send dest message next) [⟨.sent, dest, message⟩] (next (.ok ()))
  | sendFails (dest : Nat) (message : Message π)
      (next : Except TransferFault Unit → Program π ρ) (cause : TransferFault) :
      Turns (.send dest message next) [] (next (.error cause))
  | receive (source : Nat) (next : Except TransferFault (Message π) → Program π ρ)
      (message : Message π) :
      Turns (.receive source next) [⟨.taken, source, message⟩] (next (.ok message))
  | receiveFails (source : Nat) (next : Except TransferFault (Message π) → Program π ρ)
      (cause : TransferFault) : Turns (.receive source next) [] (next (.error cause))

/-- Some actions take one program to another, with the messages that go through. -/
inductive Comes (p : Program π ρ) : List (Event π) → Program π ρ → Prop where
  | refl : Comes p [] p
  | turn {events more : List (Event π)} {q r : Program π ρ} (h : Comes p events q)
      (hturn : Turns q more r) : Comes p (events ++ more) r

/-- As long as the first of two programs has not ended, an action is one of its own. -/
theorem Turns.of_bind {p : Program π ρ} {k : ρ → Program π σ} {events : List (Event π)}
    {q : Program π σ} (hp : ∀ result, p ≠ .done result) (h : Turns (p.bind k) events q) :
    ∃ p', Turns p events p' ∧ q = p'.bind k := by
  cases p with
  | done result => exact absurd rfl (hp result)
  | gaveUp cause => nomatch h
  | leave next =>
    cases h with
    | leave => exact ⟨next, .leave next, rfl⟩
  | send dest message next =>
    cases h with
    | send => exact ⟨_, .send dest message next, rfl⟩
    | sendFails _ _ _ cause => exact ⟨_, .sendFails dest message next cause, rfl⟩
  | receive source next =>
    cases h with
    | receive _ _ message => exact ⟨_, .receive source next message, rfl⟩
    | receiveFails _ _ cause => exact ⟨_, .receiveFails source next cause, rfl⟩

end Program

namespace Mailboxes

variable {n : Nat} {π : Type} {m m' : Mailboxes n π}

theorem queue_setQueue (m : Mailboxes n π) (s d a b : Fin n) (q : List (Message π)) :
    (m.setQueue s d q).queue a b = if a = s ∧ b = d then q else m.queue a b := by
  change ((m.queues.set s.val ((m.queues.get s).set d.val q d.isLt) s.isLt)[a.val])[b.val] = _
  rw [Vector.getElem_set]
  by_cases has : s.val = a.val
  · obtain rfl := Fin.ext has
    rw [if_pos rfl, Vector.getElem_set]
    by_cases hbd : d.val = b.val
    · rw [if_pos hbd, if_pos ⟨rfl, Fin.ext hbd.symm⟩]
    · rw [if_neg hbd, if_neg fun h => hbd (congrArg Fin.val h.2.symm)]
      rfl
  · rw [if_neg has, if_neg fun h => has (congrArg Fin.val h.1.symm)]
    rfl

/-- A message that is sent is the last of its queue. -/
theorem queue_of_send {s : Fin n} {dest : Nat} {message : Message π}
    (h : m.send s dest message = .ok m') : ∃ d : Fin n, dest = d ∧ ∀ a b, m'.queue a b =
      m.queue a b ++ if a = s ∧ b = d then [message] else [] := by
  rw [send] at h
  split at h
  · rename_i hdest
    split at h
    · refine ⟨⟨dest, hdest⟩, rfl, fun a b => ?_⟩
      rw [← Except.ok.inj h, queue_setQueue]
      by_cases hab : a = s ∧ b = ⟨dest, hdest⟩
      · rw [if_pos hab, if_pos hab, hab.1, hab.2]
      · rw [if_neg hab, if_neg hab, List.append_nil]
    · cases h
  · cases h

/-- A message that is taken was the first of its queue. -/
theorem queue_of_receive {d : Fin n} {source : Nat} {message : Message π}
    (h : m.receive d source = .delivered message m') : ∃ s : Fin n, source = s ∧ ∀ a b,
      m.queue a b = (if a = s ∧ b = d then [message] else []) ++ m'.queue a b := by
  rw [receive] at h
  split at h
  · rename_i hsource
    split at h
    · rename_i first rest hqueue
      obtain ⟨rfl, rfl⟩ := Arrival.delivered.inj h
      refine ⟨⟨source, hsource⟩, rfl, fun a b => ?_⟩
      rw [queue_setQueue]
      by_cases hab : a = ⟨source, hsource⟩ ∧ b = d
      · rw [if_pos hab, if_pos hab, hab.1, hab.2, hqueue]
        rfl
      · rw [if_neg hab, if_neg hab, List.nil_append]
    · split at h <;> cases h
  · cases h

end Mailboxes

namespace Group

variable {n : Nat} {π ρ : Type} {start g after : Group n π ρ} {log : Fin n → List (Event π)}

theorem programs_get_proceed (g : Group n π ρ) (i j : Fin n) (next : Program π ρ)
    (mailboxes : Mailboxes n π) : (g.proceed i next mailboxes).programs.get j =
      if j = i then next else g.programs.get j := by
  change (g.programs.set i.val next i.isLt)[j.val] = _
  rw [Vector.getElem_set]
  by_cases hij : i.val = j.val
  · rw [if_pos hij, if_pos (Fin.ext hij.symm)]
  · rw [if_neg hij, if_neg fun h => hij (congrArg Fin.val h.symm)]
    rfl

/-- Queues hand on what goes through by an action of a rank: what it sends is the last of its queue
then, and what it takes was the first. -/
def HandsOn (i : Fin n) (events : List (Event π)) (m m' : Mailboxes n π) : Prop :=
  ∀ s d : Fin n, m.queue s d ++ (if s = i then Event.messages .sent d events else []) =
    (if d = i then Event.messages .taken s events else []) ++ m'.queue s d

theorem handsOn_nil {i : Fin n} {m m' : Mailboxes n π} (h : ∀ s d, m'.queue s d = m.queue s d) :
    HandsOn i [] m m' := by
  intro s d
  simp [h]

theorem handsOn_sent {i : Fin n} {dest : Nat} {message : Message π} {m m' : Mailboxes n π}
    (h : m.send i dest message = .ok m') : HandsOn i [⟨.sent, dest, message⟩] m m' := by
  obtain ⟨dest, rfl, hqueue⟩ := Mailboxes.queue_of_send h
  intro s d
  have hdest : dest.val = d.val ↔ d = dest := by rw [Fin.val_inj, eq_comm]
  rw [hqueue, Event.messages_singleton, Event.messages_singleton]
  by_cases hs : s = i <;> by_cases hd : d = dest <;> simp [hs, hd, hdest]

theorem handsOn_taken {i : Fin n} {source : Nat} {message : Message π} {m m' : Mailboxes n π}
    (h : m.receive i source = .delivered message m') :
    HandsOn i [⟨.taken, source, message⟩] m m' := by
  obtain ⟨source, rfl, hqueue⟩ := Mailboxes.queue_of_receive h
  intro s d
  have hsource : source.val = s.val ↔ s = source := by rw [Fin.val_inj, eq_comm]
  rw [hqueue, Event.messages_singleton, Event.messages_singleton]
  by_cases hs : s = source <;> by_cases hd : d = i <;> simp [hs, hd, hsource]

/-- An action of a rank is a turn of its program, and the queues hand on what goes through. -/
theorem turns_of_act {i : Fin n} (h : g.act i = some after) : ∃ next mailboxes,
    after = g.proceed i next mailboxes ∧
    (g.programs.get i).Turns (g.nextEvent i).toList next ∧
    HandsOn i (g.nextEvent i).toList g.mailboxes mailboxes := by
  cases hp : g.programs.get i with
  | done result => simp [act, hp] at h
  | gaveUp cause => simp [act, hp] at h
  | leave next =>
    simp only [act, nextEvent, hp, Option.some.injEq] at h ⊢
    exact ⟨next, _, h.symm, .leave next, handsOn_nil fun _ _ => rfl⟩
  | send dest message next =>
    cases hsend : g.mailboxes.send i dest message with
    | ok mailboxes =>
      simp only [act, nextEvent, hp, hsend, Option.some.injEq] at h ⊢
      exact ⟨_, mailboxes, h.symm, .send dest message next, handsOn_sent hsend⟩
    | error cause =>
      simp only [act, nextEvent, hp, hsend, Option.some.injEq] at h ⊢
      exact ⟨_, _, h.symm, .sendFails dest message next cause, handsOn_nil fun _ _ => rfl⟩
  | receive source next =>
    cases hreceive : g.mailboxes.receive i source with
    | delivered message rest =>
      simp only [act, nextEvent, hp, hreceive, Option.some.injEq] at h ⊢
      exact ⟨_, rest, h.symm, .receive source next message, handsOn_taken hreceive⟩
    | failed cause =>
      simp only [act, nextEvent, hp, hreceive, Option.some.injEq] at h ⊢
      exact ⟨_, _, h.symm, .receiveFails source next cause, handsOn_nil fun _ _ => rfl⟩
    | awaited => simp [act, hp, hreceive] at h

/-- What goes through has a rank of the group at its other end. -/
theorem peer_lt_of_nextEvent {i : Fin n} {e : Event π} (h : g.nextEvent i = some e) :
    e.peer < n := by
  rw [nextEvent] at h
  split at h
  · rename_i dest message _ _
    cases hsend : g.mailboxes.send i dest message with
    | error cause =>
      rw [hsend] at h
      cases h
    | ok mailboxes =>
      rw [hsend] at h
      cases h
      obtain ⟨d, rfl, -⟩ := Mailboxes.queue_of_send hsend
      exact d.isLt
  · split at h
    · rename_i hreceive
      cases h
      obtain ⟨s, rfl, -⟩ := Mailboxes.queue_of_receive hreceive
      exact s.isLt
    · cases h
  · cases h

/-- What a rank has sent and taken is what its program has gone through. -/
theorem Recorded.comes (h : Recorded start log g) (i : Fin n) :
    (start.programs.get i).Comes (log i) (g.programs.get i) := by
  induction h with
  | start => exact .refl
  | @act log g after rank _ hact ih =>
    obtain ⟨next, mailboxes, rfl, hturns, -⟩ := turns_of_act hact
    rw [programs_get_proceed]
    by_cases hi : i = rank
    · subst hi
      rw [Function.update_self, if_pos rfl]
      exact ih.turn hturns
    · rw [Function.update_of_ne hi, if_neg hi]
      exact ih

theorem messages_update (log : Fin n → List (Event π)) (i j : Fin n) (events : List (Event π))
    (w : Direction) (peer : Nat) :
    Event.messages w peer (Function.update log i (log i ++ events) j) =
      Event.messages w peer (log j) ++ if j = i then Event.messages w peer events else [] := by
  by_cases hji : j = i
  · subst hji
    rw [Function.update_self, Event.messages_append, if_pos rfl]
  · rw [Function.update_of_ne hji, if_neg hji, List.append_nil]

/-- What one rank has sent to another is what that one has taken from it and then what is under
way. -/
theorem Recorded.fifo (hempty : ∀ s d, start.mailboxes.queue s d = [])
    (h : Recorded start log g) (s d : Fin n) : Event.messages .sent d (log s) =
      Event.messages .taken s (log d) ++ g.mailboxes.queue s d := by
  induction h with
  | start => rw [hempty]; rfl
  | @act log g after rank _ hact ih =>
    obtain ⟨next, mailboxes, rfl, -, hqueues⟩ := turns_of_act hact
    calc Event.messages .sent d
          (Function.update log rank (log rank ++ (g.nextEvent rank).toList) s)
        = Event.messages .taken s (log d) ++ (g.mailboxes.queue s d ++ if s = rank then
            Event.messages .sent d (g.nextEvent rank).toList else []) := by
          rw [messages_update, ih, List.append_assoc]
      _ = _ := by rw [hqueues s d, ← List.append_assoc, ← messages_update]; rfl

end Group

end SpatialSearch
