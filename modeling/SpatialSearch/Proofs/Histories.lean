import SpatialSearch.Group.Network
import SpatialSearch.Proofs.Mismatches

/-!
# Histories of a group

What the ranks of a group can tell of its queues: what each has asked for and the answer it got.
`Past.Expects` gives the answer to every errand by what has been asked and answered before. The
message that a rank takes next from another is the one at that place among all that were sent to
it, whatever else has been going on; an answer depends on other ranks only through their presence.
The mailboxes of a group answer in this way.
-/

namespace SpatialSearch

variable {n : Nat} {π σ η : Type}

/-- A way for the ranks of a group to exchange messages: with states in `σ`, and with a handle in
`η` for every rank that takes part. -/
structure Transport (n : Nat) (π σ η : Type) where
  start : σ
  handle? : σ → Fin n → Option η
  send : σ → η → Nat → Message π → Except TransferFault σ
  receive : σ → η → Nat → Lookup σ (Message π)
  drop : σ → η → σ

def Mailboxes.transport (n : Nat) (π : Type) : Transport n π (Mailboxes n π) (Fin n) where
  start := .empty
  handle? m rank := if m.present.get rank then some rank else none
  send := Mailboxes.send
  receive m rank source :=
    match m.receive rank source with
    | .delivered message rest => .delivered message rest
    | .failed cause => .failed cause
    | .awaited => .awaited
  drop := Mailboxes.leave

/-- A list of elements and the operation that it belongs to. -/
structure Parcel (K : ElementKinds π) where
  tag : Tag
  key : K.Key
  items : List (K.Value key)

def Parcel.message {K : ElementKinds π} (p : Parcel K) : Message π :=
  ⟨p.tag, (K.kind p.key).pack p.items⟩

/-- What a rank asks for. -/
inductive Errand (K : ElementKinds π) (n : Nat) where
  | send (rank : Fin n) (dest : Nat) (parcel : Parcel K)
  | receive (rank : Fin n) (source : Nat) (tag : Tag) (key : K.Key)
  | drop (rank : Fin n)

namespace Errand

variable {K : ElementKinds π}

def rank : Errand K n → Fin n
  | send rank .. => rank
  | receive rank .. => rank
  | drop rank => rank

/-- Whether an errand is about what one rank sends to another. -/
def Concerns (s d : Fin n) : Errand K n → Prop
  | send rank dest _ => rank = s ∧ dest = d
  | receive rank source .. => rank = d ∧ source = s
  | drop _ => False

inductive Reply (K : ElementKinds π) where
  | sent
  | received (key : K.Key) (items : List (K.Value key))
  | failed (cause : TransferFault)
  | awaited
  | dropped
  | absent
  | gaveUp (cause : Abort)

namespace Reply

def ofUnwrapped (key : K.Key) : Except TransferFault (List (K.Value key)) → Reply K
  | .ok items => received key items
  | .error cause => failed cause

def takes : Reply K → Bool
  | received .. => true
  | failed (.wrongTag ..) => true
  | failed (.wrongKind ..) => true
  | _ => false

/-- Whether nothing has been sent or taken and nobody has left. -/
def isQuiet : Reply K → Bool
  | sent => false
  | dropped => false
  | reply => !reply.takes

end Reply

end Errand

namespace Transport

variable {K : ElementKinds π} (T : Transport n π σ η)

def perform (s : σ) (e : Errand K n) : Errand.Reply K × σ :=
  match T.handle? s e.rank with
  | none => (.absent, s)
  | some h =>
    match e with
    | .send _ dest parcel =>
      match T.send s h dest parcel.message with
      | .ok next => (.sent, next)
      | .error cause => (.failed cause, s)
    | .receive _ source tag key =>
      match T.receive s h source with
      | .delivered message next =>
        (.ofUnwrapped key (message.unwrap (K.kind key) source tag), next)
      | .failed cause => (.failed cause, s)
      | .awaited => (.awaited, s)
      | .gaveUp cause => (.gaveUp cause, s)
    | .drop _ => (.dropped, T.drop s h)

end Transport

namespace Transport

variable {K : ElementKinds π} {T : Transport n π σ η} {s : σ} {h : η} {r : Fin n}

theorem perform_absent {e : Errand K n} (hr : T.handle? s e.rank = none) :
    T.perform s e = (.absent, s) := by
  rw [perform, hr]

theorem perform_send (hr : T.handle? s r = some h) (dest : Nat) (p : Parcel K) :
    T.perform s (.send r dest p) =
      match T.send s h dest p.message with
      | .ok next => (.sent, next)
      | .error cause => (.failed cause, s) := by
  rw [perform, Errand.rank, hr]

theorem perform_receive (hr : T.handle? s r = some h) (source : Nat) (tag : Tag) (key : K.Key) :
    T.perform s (.receive r source tag key) =
      match T.receive s h source with
      | .delivered message next =>
        (.ofUnwrapped key (message.unwrap (K.kind key) source tag), next)
      | .failed cause => (.failed cause, s)
      | .awaited => (.awaited, s)
      | .gaveUp cause => (.gaveUp cause, s) := by
  rw [perform, Errand.rank, hr]

theorem perform_drop (hr : T.handle? s r = some h) :
    T.perform s (.drop r : Errand K n) = (.dropped, T.drop s h) := by
  rw [perform, Errand.rank, hr]

end Transport

/-- Errands in the order in which they were carried out, with their answers. -/
abbrev Past (K : ElementKinds π) (n : Nat) := List (Errand K n × Errand.Reply K)

namespace Transport

variable {K : ElementKinds π} (T : Transport n π σ η)

def after (log : List (Errand K n)) : Past K n × σ :=
  log.foldl (fun (past, s) e => (past ++ [(e, (T.perform s e).1)], (T.perform s e).2))
    ([], T.start)

theorem after_concat (log : List (Errand K n)) (e : Errand K n) : T.after (log ++ [e]) =
    ((T.after log).1 ++ [(e, (T.perform (T.after log).2 e).1)],
      (T.perform (T.after log).2 e).2) := by
  rw [after, List.foldl_append]
  rfl

end Transport

namespace Past

variable {K : ElementKinds π} {past : Past K n} {s d r : Fin n} {e : Errand K n}
  {reply : Errand.Reply K}

/-- The parcels that one rank has sent to another, without those that were refused. -/
def sent (s d : Fin n) (past : Past K n) : List (Parcel K) :=
  past.filterMap fun
    | (.send rank dest parcel, .sent) => if rank = s ∧ dest = d then some parcel else none
    | _ => none

def taken (s d : Fin n) (past : Past K n) : Nat :=
  past.countP fun
    | (.receive rank source _ _, reply) => decide (rank = d ∧ source = s) && reply.takes
    | _ => false

def Gone (r : Fin n) (past : Past K n) : Prop := (.drop r, .dropped) ∈ past

/-- The answer to an errand, by what has been asked and answered before. -/
inductive Expects (past : Past K n) : Errand K n → Errand.Reply K → Prop where
  | absent {e : Errand K n} (h : past.Gone e.rank) : Expects past e .absent
  | dropped {r : Fin n} (h : ¬ past.Gone r) : Expects past (.drop r) .dropped
  | sent {r d : Fin n} {dest : Nat} {p : Parcel K} (h : ¬ past.Gone r) (hdest : dest = d)
      (hd : ¬ past.Gone d) : Expects past (.send r dest p) .sent
  | sentTooLate {r d : Fin n} {dest : Nat} {p : Parcel K} (h : ¬ past.Gone r) (hdest : dest = d)
      (hd : past.Gone d) : Expects past (.send r dest p) (.failed (.departed dest))
  | sentBeyond {r : Fin n} {dest : Nat} {p : Parcel K} (h : ¬ past.Gone r) (hdest : n ≤ dest) :
      Expects past (.send r dest p) (.failed (.noSuchRank dest n))
  | wrongTag {r s : Fin n} {source : Nat} {tag : Tag} {key : K.Key} {p : Parcel K}
      (h : ¬ past.Gone r) (hsource : source = s)
      (hp : (past.sent s r)[past.taken s r]? = some p) (htag : p.tag ≠ tag) :
      Expects past (.receive r source tag key) (.failed (.wrongTag source tag p.tag))
  | wrongKind {r s : Fin n} {source : Nat} {tag : Tag} {key : K.Key} {p : Parcel K}
      (h : ¬ past.Gone r) (hsource : source = s)
      (hp : (past.sent s r)[past.taken s r]? = some p) (htag : p.tag = tag)
      (hkey : p.key ≠ key) :
      Expects past (.receive r source tag key) (.failed (.wrongKind source tag))
  | received {r s : Fin n} {source : Nat} {tag : Tag} {key : K.Key} {items : List (K.Value key)}
      (h : ¬ past.Gone r) (hsource : source = s)
      (hp : (past.sent s r)[past.taken s r]? = some ⟨tag, key, items⟩) :
      Expects past (.receive r source tag key) (.received key items)
  | ended {r s : Fin n} {source : Nat} {tag : Tag} {key : K.Key} (h : ¬ past.Gone r)
      (hsource : source = s) (hp : (past.sent s r)[past.taken s r]? = none)
      (hs : past.Gone s) : Expects past (.receive r source tag key) (.failed (.departed source))
  | awaited {r s : Fin n} {source : Nat} {tag : Tag} {key : K.Key} (h : ¬ past.Gone r)
      (hsource : source = s) (hp : (past.sent s r)[past.taken s r]? = none)
      (hs : ¬ past.Gone s) : Expects past (.receive r source tag key) .awaited
  | receivedBeyond {r : Fin n} {source : Nat} {tag : Tag} {key : K.Key} (h : ¬ past.Gone r)
      (hsource : n ≤ source) :
      Expects past (.receive r source tag key) (.failed (.noSuchRank source n))

def waiting (s d : Fin n) (past : Past K n) : List (Message π) :=
  ((past.sent s d).drop (past.taken s d)).map Parcel.message

/-! ### What an errand adds -/

@[simp] theorem sent_append (before after : Past K n) :
    sent s d (before ++ after) = sent s d before ++ sent s d after :=
  List.filterMap_append

@[simp] theorem taken_append (before after : Past K n) :
    taken s d (before ++ after) = taken s d before + taken s d after :=
  List.countP_append

theorem gone_concat : Gone r (past ++ [(e, reply)]) ↔
    Gone r past ∨ e = .drop r ∧ reply = .dropped := by
  rw [Gone, List.mem_append, List.mem_singleton, Prod.mk.injEq, Gone, eq_comm, @eq_comm _ reply]

@[simp] theorem sent_send (s d : Fin n) (p : Parcel K) :
    sent s d [(.send s d p, .sent)] = [p] := by
  simp [sent]

@[simp] theorem taken_send (rank : Fin n) (dest : Nat) (p : Parcel K) :
    taken s d [(.send rank dest p, reply)] = 0 := by
  simp [taken]

@[simp] theorem sent_receive (rank : Fin n) (source : Nat) (tag : Tag) (key : K.Key) :
    sent s d [(.receive rank source tag key, reply)] = [] := by
  simp [sent]

@[simp] theorem taken_receive (s d : Fin n) (tag : Tag) (key : K.Key) (h : reply.takes = true) :
    taken s d [(.receive d s tag key, reply)] = 1 := by
  simp [taken, h]

theorem silent_of_not_concerns (h : ¬ e.Concerns s d) :
    sent s d [(e, reply)] = [] ∧ taken s d [(e, reply)] = 0 := by
  cases e with
  | send rank dest p => cases reply <;> simp_all [sent, taken, Errand.Concerns]
  | receive rank source tag key => simp_all [sent, taken, Errand.Concerns]
  | drop rank => simp [sent, taken]

theorem silent_of_isQuiet (h : reply.isQuiet = true) :
    sent s d [(e, reply)] = [] ∧ taken s d [(e, reply)] = 0 := by
  cases e with
  | send rank dest p => cases reply <;> simp_all [sent, taken, Errand.Reply.isQuiet]
  | receive rank source tag key => cases reply <;> simp_all [sent, taken, Errand.Reply.isQuiet]
  | drop rank => simp [sent, taken]

/-- What is silent about two ranks leaves what is under way between them as it is. -/
theorem waiting_concat (h : sent s d [(e, reply)] = [] ∧ taken s d [(e, reply)] = 0) :
    waiting s d (past ++ [(e, reply)]) = waiting s d past := by
  rw [waiting, sent_append, taken_append, h.1, h.2, List.append_nil, Nat.add_zero, waiting]

theorem waiting_sent (hle : past.taken s d ≤ (past.sent s d).length) (p : Parcel K) :
    waiting s d (past ++ [(.send s d p, .sent)]) = waiting s d past ++ [p.message] := by
  rw [waiting, sent_append, taken_append, sent_send, taken_send, Nat.add_zero,
    List.drop_append_of_le_length hle, List.map_append, waiting]
  rfl

theorem waiting_taken (tag : Tag) (key : K.Key) (h : reply.takes = true) :
    waiting s d (past ++ [(.receive d s tag key, reply)]) = (waiting s d past).tail := by
  rw [waiting, sent_append, taken_append, sent_receive, taken_receive s d tag key h,
    List.append_nil, ← List.drop_drop, List.drop_one, List.map_tail, waiting]

/-- The next message is the one at the place of the number of messages taken. -/
theorem waiting_eq_cons {message : Message π} {rest : List (Message π)}
    (h : waiting s d past = message :: rest) : ∃ p : Parcel K,
      (past.sent s d)[past.taken s d]? = some p ∧ p.message = message := by
  obtain ⟨p, ps, hdrop, hp, -⟩ := List.map_eq_cons_iff.mp h
  refine ⟨p, ?_, hp⟩
  rw [← Nat.add_zero (past.taken s d), ← List.getElem?_drop, hdrop]
  rfl

theorem waiting_eq_nil (h : waiting s d past = []) :
    (past.sent s d)[past.taken s d]? = none :=
  List.getElem?_eq_none (List.drop_eq_nil_iff.mp (List.map_eq_nil_iff.mp h))

end Past

/-- There is one answer to every errand. -/
theorem Past.Expects.unique {K : ElementKinds π} {past : Past K n} {e : Errand K n}
    {a b : Errand.Reply K} (ha : past.Expects e a) (hb : past.Expects e b) : a = b := by
  -- Two rules that answer differently disagree on who has left, on the range or on what is next.
  cases e with
  | drop r => cases ha <;> cases hb <;> first | rfl | contradiction
  | send r dest p => cases ha <;> cases hb <;> grind [Errand.rank]
  | receive r source tag key => cases ha <;> cases hb <;> grind [Errand.rank]

/-- What a rank is told that has taken the message of a parcel. -/
theorem Past.Expects.of_parcel {K : ElementKinds π} {past : Past K n} {r s : Fin n}
    (h : ¬ past.Gone r) {p : Parcel K} (hp : (past.sent s r)[past.taken s r]? = some p) (tag : Tag)
    (key : K.Key) :
    past.Expects (.receive r s tag key)
        (.ofUnwrapped key (p.message.unwrap (K.kind key) s tag)) ∧
      (Errand.Reply.ofUnwrapped key (p.message.unwrap (K.kind key) s tag)).takes = true := by
  by_cases htag : p.tag = tag
  · subst htag
    by_cases hkey : p.key = key
    · subst hkey
      have hunwrap : p.message.unwrap (K.kind p.key) s p.tag = .ok p.items :=
        Exchange.unwrap_pack (K.kind p.key) s p.tag p.items
      rw [hunwrap]
      exact ⟨.received h rfl hp, rfl⟩
    · have hunwrap : p.message.unwrap (K.kind key) s p.tag = .error (.wrongKind s p.tag) :=
        Call.unwrap_of_key (Ne.symm hkey) s p.tag p.items
      rw [hunwrap]
      exact ⟨.wrongKind h rfl hp rfl hkey, rfl⟩
  · have hunwrap : p.message.unwrap (K.kind key) s tag = .error (.wrongTag s tag p.tag) :=
      if_neg htag
    rw [hunwrap]
    exact ⟨.wrongTag h rfl hp htag, rfl⟩

/-! ### Mailboxes -/

namespace Mailboxes

variable {K : ElementKinds π} {m m' : Mailboxes n π} {past : Past K n} {e : Errand K n}
  {reply : Errand.Reply K}

/-- The queues hold what has been sent and not been taken. -/
structure Remembers (m : Mailboxes n π) (past : Past K n) : Prop where
  present : ∀ r, m.present.get r = true ↔ ¬ past.Gone r
  taken_le : ∀ s d, past.taken s d ≤ (past.sent s d).length
  queue : ∀ s d, m.queue s d = past.waiting s d

theorem present_empty (r : Fin n) : (empty : Mailboxes n π).present.get r = true :=
  Vector.getElem_replicate r.isLt

theorem queue_empty (s d : Fin n) : (empty : Mailboxes n π).queue s d = [] := by
  change ((Vector.replicate n (Vector.replicate n ([] : List (Message π))))[s.val])[d.val] = []
  rw [Vector.getElem_replicate, Vector.getElem_replicate]

theorem present_leave (m : Mailboxes n π) (r i : Fin n) :
    (m.leave r).present.get i = if i = r then false else m.present.get i := by
  change (m.present.set r.val false r.isLt)[i.val] = _
  rw [Vector.getElem_set]
  by_cases h : r = i
  · rw [if_pos (congrArg Fin.val h), if_pos h.symm]
  · rw [if_neg fun hval => h (Fin.ext hval), if_neg (Ne.symm h)]
    rfl

/-- What comes of a message depends on the rank that it is sent to. -/
theorem send_cases (m : Mailboxes n π) (s : Fin n) (dest : Nat) (message : Message π) :
    (∃ d : Fin n, dest = d ∧ m.present.get d = true ∧
      m.send s dest message = .ok (m.setQueue s d (m.queue s d ++ [message]))) ∨
    (∃ d : Fin n, dest = d ∧ m.present.get d = false ∧
      m.send s dest message = .error (.departed dest)) ∨
    (n ≤ dest ∧ m.send s dest message = .error (.noSuchRank dest n)) := by
  rw [send]
  by_cases hdest : dest < n
  · rw [dif_pos hdest]
    cases hd : m.present.get ⟨dest, hdest⟩ with
    | true => exact .inl ⟨⟨dest, hdest⟩, rfl, hd, if_pos rfl⟩
    | false => exact .inr (.inl ⟨⟨dest, hdest⟩, rfl, hd, if_neg Bool.false_ne_true⟩)
  · rw [dif_neg hdest]
    exact .inr (.inr ⟨Nat.le_of_not_lt hdest, rfl⟩)

/-- What a rank meets depends on the queue and, if it is empty, on the rank at its other end. -/
theorem receive_cases (m : Mailboxes n π) (d : Fin n) (source : Nat) :
    (∃ s : Fin n, source = s ∧ ∃ message rest, m.queue s d = message :: rest ∧
      m.receive d source = .delivered message (m.setQueue s d rest)) ∨
    (∃ s : Fin n, source = s ∧ m.queue s d = [] ∧
      (m.present.get s = true ∧ m.receive d source = .awaited ∨
        m.present.get s = false ∧ m.receive d source = .failed (.departed source))) ∨
    (n ≤ source ∧ m.receive d source = .failed (.noSuchRank source n)) := by
  rw [receive]
  by_cases hsource : source < n
  · rw [dif_pos hsource]
    cases hqueue : m.queue ⟨source, hsource⟩ d with
    | cons message rest => exact .inl ⟨⟨source, hsource⟩, rfl, message, rest, hqueue, rfl⟩
    | nil =>
      refine .inr (.inl ⟨⟨source, hsource⟩, rfl, hqueue, ?_⟩)
      cases hs : m.present.get ⟨source, hsource⟩ with
      | true => exact .inl ⟨rfl, if_pos rfl⟩
      | false => exact .inr ⟨rfl, if_neg Bool.false_ne_true⟩
  · rw [dif_neg hsource]
    exact .inr (.inr ⟨Nat.le_of_not_lt hsource, rfl⟩)

theorem Remembers.gone (h : m.Remembers past) {r : Fin n} (hr : m.present.get r = false) :
    past.Gone r := by
  by_contra hgone
  exact Bool.false_ne_true (hr.symm.trans ((h.present r).mpr hgone))

theorem remembers_empty : (empty : Mailboxes n π).Remembers ([] : Past K n) := by
  constructor
  · intro r
    rw [present_empty]
    exact iff_of_true rfl List.not_mem_nil
  · exact fun s d => Nat.le_refl _
  · intro s d
    rw [queue_empty]
    rfl

/-- What neither sends nor takes anything leaves the queues as they are. -/
theorem Remembers.of_silent (h : m.Remembers past)
    (hsilent : ∀ s d, Past.sent s d [(e, reply)] = [] ∧ Past.taken s d [(e, reply)] = 0)
    (hpresent : ∀ r, m'.present.get r = true ↔ ¬ Past.Gone r (past ++ [(e, reply)]))
    (hqueue : ∀ s d, m'.queue s d = m.queue s d) : m'.Remembers (past ++ [(e, reply)]) := by
  constructor
  · exact hpresent
  · intro s d
    rw [Past.taken_append, Past.sent_append, (hsilent s d).1, (hsilent s d).2, List.append_nil]
    exact h.taken_le s d
  · intro s d
    rw [hqueue, h.queue, Past.waiting_concat (hsilent s d)]

theorem Remembers.quiet (h : m.Remembers past) (hq : reply.isQuiet = true) :
    m.Remembers (past ++ [(e, reply)]) := by
  refine h.of_silent (fun _ _ => Past.silent_of_isQuiet hq) (fun r => ?_) fun _ _ => rfl
  have hreply : reply ≠ .dropped := by
    rintro rfl
    nomatch hq
  rw [h.present, Past.gone_concat]
  simp [hreply]

theorem Remembers.leave (h : m.Remembers past) (r : Fin n) :
    (m.leave r).Remembers (past ++ [(.drop r, .dropped)]) := by
  refine h.of_silent (fun _ _ => Past.silent_of_not_concerns id) (fun i => ?_) fun _ _ => rfl
  rw [present_leave, Past.gone_concat]
  by_cases hir : i = r
  · simp [hir]
  · simp [hir, Ne.symm hir, h.present]

theorem Remembers.send (h : m.Remembers past) (s d : Fin n) (p : Parcel K) :
    (m.setQueue s d (m.queue s d ++ [p.message])).Remembers
      (past ++ [(.send s d p, .sent)]) := by
  constructor
  · intro r
    rw [Past.gone_concat]
    simpa using! h.present r
  · intro a b
    rw [Past.taken_append, Past.taken_send, Past.sent_append, List.length_append]
    exact Nat.le_add_right_of_le (h.taken_le a b)
  · intro a b
    rw [queue_setQueue]
    by_cases hab : a = s ∧ b = d
    · obtain ⟨rfl, rfl⟩ := hab
      rw [if_pos ⟨rfl, rfl⟩, Past.waiting_sent (h.taken_le a b), h.queue]
    · have hother : ¬ (Errand.send s d p).Concerns a b := fun hc =>
        hab ⟨hc.1.symm, (Fin.ext hc.2).symm⟩
      rw [if_neg hab, Past.waiting_concat (Past.silent_of_not_concerns hother), h.queue]

theorem Remembers.receive (h : m.Remembers past) {s d : Fin n} {message : Message π}
    {rest : List (Message π)} (hqueue : m.queue s d = message :: rest) (tag : Tag) (key : K.Key)
    (ht : reply.takes = true) :
    (m.setQueue s d rest).Remembers (past ++ [(.receive d s tag key, reply)]) := by
  have hwaiting := (h.queue s d).symm.trans hqueue
  constructor
  · intro r
    rw [Past.gone_concat]
    simpa using! h.present r
  · intro a b
    rw [Past.sent_append, Past.sent_receive, List.append_nil, Past.taken_append]
    by_cases hab : a = s ∧ b = d
    · obtain ⟨rfl, rfl⟩ := hab
      obtain ⟨p, hp, -⟩ := Past.waiting_eq_cons hwaiting
      rw [Past.taken_receive a b tag key ht]
      exact (List.getElem?_eq_some_iff.mp hp).1
    · have hother : ¬ (Errand.receive d s tag key).Concerns a b := fun hc =>
        hab ⟨(Fin.ext hc.2).symm, hc.1.symm⟩
      rw [(Past.silent_of_not_concerns hother).2]
      exact h.taken_le a b
  · intro a b
    rw [queue_setQueue]
    by_cases hab : a = s ∧ b = d
    · obtain ⟨rfl, rfl⟩ := hab
      rw [if_pos ⟨rfl, rfl⟩, Past.waiting_taken tag key ht, hwaiting, List.tail_cons]
    · have hother : ¬ (Errand.receive d s tag key).Concerns a b := fun hc =>
        hab ⟨(Fin.ext hc.2).symm, hc.1.symm⟩
      rw [if_neg hab, Past.waiting_concat (Past.silent_of_not_concerns hother), h.queue]

/-- An answer is the expected one, and the queues account for it. -/
def Answers (past : Past K n) (e : Errand K n) (answer : Errand.Reply K × Mailboxes n π) : Prop :=
  past.Expects e answer.1 ∧ answer.2.Remembers (past ++ [(e, answer.1)])

theorem Remembers.answers_send (h : m.Remembers past) {r : Fin n} (hr : m.present.get r = true)
    (dest : Nat) (p : Parcel K) :
    Answers past (.send r dest p) ((transport n π).perform m (.send r dest p)) := by
  have hhandle : (transport n π).handle? m r = some r := if_pos hr
  have hgone := (h.present r).mp hr
  rw [Transport.perform_send hhandle]
  dsimp only [transport]
  obtain ⟨d, rfl, hd, hs⟩ | ⟨d, rfl, hd, hs⟩ | ⟨hdest, hs⟩ := m.send_cases r dest p.message
  · rw [hs]
    exact ⟨.sent hgone rfl ((h.present d).mp hd), h.send r d p⟩
  · rw [hs]
    exact ⟨.sentTooLate hgone rfl (h.gone hd), h.quiet rfl⟩
  · rw [hs]
    exact ⟨.sentBeyond hgone hdest, h.quiet rfl⟩

theorem Remembers.answers_receive (h : m.Remembers past) {r : Fin n}
    (hr : m.present.get r = true) (source : Nat) (tag : Tag) (key : K.Key) :
    Answers past (.receive r source tag key)
      ((transport n π).perform m (.receive r source tag key)) := by
  have hhandle : (transport n π).handle? m r = some r := if_pos hr
  have hgone := (h.present r).mp hr
  rw [Transport.perform_receive hhandle]
  dsimp only [transport]
  obtain ⟨s, rfl, message, rest, hqueue, hs⟩ | ⟨s, rfl, hqueue, hs⟩ | ⟨hsource, hs⟩ :=
    m.receive_cases r source
  · rw [hs]
    obtain ⟨p, hp, rfl⟩ := Past.waiting_eq_cons ((h.queue s r).symm.trans hqueue)
    obtain ⟨hexpects, htakes⟩ := Past.Expects.of_parcel hgone hp tag key
    exact ⟨hexpects, h.receive hqueue tag key htakes⟩
  · have hnone := Past.waiting_eq_nil ((h.queue s r).symm.trans hqueue)
    rcases hs with ⟨hpresent, hs⟩ | ⟨hpresent, hs⟩
    · rw [hs]
      exact ⟨.awaited hgone rfl hnone ((h.present s).mp hpresent), h.quiet rfl⟩
    · rw [hs]
      exact ⟨.ended hgone rfl hnone (h.gone hpresent), h.quiet rfl⟩
  · rw [hs]
    exact ⟨.receivedBeyond hgone hsource, h.quiet rfl⟩

/-- Mailboxes that hold what has been sent and not been taken answer every errand as expected, and
then they hold it again. -/
theorem Remembers.answers (h : m.Remembers past) (e : Errand K n) :
    Answers past e ((transport n π).perform m e) := by
  cases hrank : m.present.get e.rank with
  | false =>
    have hhandle : (transport n π).handle? m e.rank = none :=
      if_neg (Bool.eq_false_iff.mp hrank)
    rw [Transport.perform_absent hhandle]
    exact ⟨.absent (h.gone hrank), h.quiet rfl⟩
  | true =>
    cases e with
    | send r dest p => exact h.answers_send hrank dest p
    | receive r source tag key => exact h.answers_receive hrank source tag key
    | drop r =>
      have hhandle : (transport n π).handle? m r = some r := if_pos hrank
      rw [Transport.perform_drop hhandle]
      exact ⟨.dropped ((h.present r).mp hrank), h.leave r⟩

/-- What the queues hold after any errands. -/
theorem remembers_after (log : List (Errand K n)) :
    ((transport n π).after log).2.Remembers ((transport n π).after log).1 := by
  induction log using List.reverseRecOn with
  | nil => exact remembers_empty
  | append_singleton log e ih =>
    rw [Transport.after_concat]
    exact (ih.answers e).2

end Mailboxes

end SpatialSearch
