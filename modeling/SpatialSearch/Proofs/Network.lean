import SpatialSearch.Proofs.Histories

/-!
# Networks as queues

The channels of a group are wired so that what a rank puts in under the number of another rank is
what that rank takes out under the number of the first. So a network of lawful channels answers
every errand as the mailboxes of the group do, and between any two ranks it holds what one has sent
and the other has not taken.
-/

namespace SpatialSearch

variable {n : Nat} {π μ : Type}

/-! ### Wiring -/

/-- The number of the channel from one of `n` ranks to another. -/
def Wiring.number (n s d : Nat) : Nat := s * n + d

theorem Wiring.number_inj {s d s' d' : Nat} (hd : d < n) (hd' : d' < n)
    (h : number n s d = number n s' d') : s = s' ∧ d = d' := by
  have hmod := congrArg (· % n) h
  simp only [number, Nat.mul_add_mod', Nat.mod_eq_of_lt hd, Nat.mod_eq_of_lt hd'] at hmod
  subst hmod
  have hmul : s * n = s' * n := Nat.add_right_cancel h
  exact ⟨Nat.eq_of_mul_eq_mul_right (Nat.zero_lt_of_lt hd) hmul, rfl⟩

def Handle.wired (n r : Nat) : Handle where
  rank := r
  outgoing := (List.range n).map (Wiring.number n r)
  incoming := (List.range n).map fun s => Wiring.number n s r

namespace Wiring

theorem modify_map_range {β : Type} (f : Nat → β) (g : β → β) (i : Nat) :
    ((List.range n).map f).modify i g =
      (List.range n).map fun j => if j = i then g (f j) else f j := by
  apply List.ext_getElem?
  intro j
  rw [List.getElem?_modify, List.getElem?_map, List.getElem?_map]
  by_cases hj : j < n
  · rw [List.getElem?_range hj, Option.map_some, Option.map_some, Option.map_eq_map,
      Option.map_some]
    by_cases hij : i = j
    · rw [if_pos hij, if_pos hij.symm]
    · rw [if_neg hij, if_neg (Ne.symm hij)]
  · rw [List.getElem?_eq_none (by simpa using hj)]
    rfl

theorem connectAll_concat (w : Wiring) (source : Nat) (dests : List Nat) (dest : Nat) :
    w.connectAll source (dests ++ [dest]) = (w.connectAll source dests).connect source dest := by
  rw [connectAll, List.foldl_append]
  rfl

/-- One turn of the inner loop after the other: a row grows by the channels that are made, and
each of these goes to a column of its own. -/
theorem connectAll_range (made : Nat) (f g : Nat → List Nat) (source dests : Nat) :
    (Wiring.mk made ((List.range n).map f) ((List.range n).map g)).connectAll source
        (.range dests) =
      ⟨made + dests,
        (List.range n).map fun s =>
          if s = source then f s ++ (List.range dests).map (made + ·) else f s,
        (List.range n).map fun d => if d < dests then g d ++ [made + d] else g d⟩ := by
  induction dests with
  | zero => simp [connectAll]
  | succ dests ih =>
    rw [List.range_succ, connectAll_concat, ih, connect, modify_map_range, modify_map_range]
    congr 1
    · refine List.map_congr_left fun s _ => ?_
      by_cases hs : s = source
      · simp [hs]
      · simp [hs]
    · refine List.map_congr_left fun d _ => ?_
      by_cases hd : d = dests
      · simp [hd]
      · have hlt : d < dests + 1 ↔ d < dests := by omega
        simp [hd, hlt]

/-- One turn of the outer loop after the other: the rows of the ranks so far are complete, and so
are their places in each column. -/
theorem foldl_connectAll (rows : Nat) :
    (List.range rows).foldl (fun w source => w.connectAll source (.range n)) (bare n) =
      ⟨rows * n,
        (List.range n).map fun s => if s < rows then (List.range n).map (number n s) else [],
        (List.range n).map fun d => (List.range rows).map fun s => number n s d⟩ := by
  induction rows with
  | zero => simp [bare]
  | succ rows ih =>
    rw [List.range_succ, List.foldl_append, ih, List.foldl_cons, List.foldl_nil,
      connectAll_range, Nat.succ_mul]
    congr 1
    · refine List.map_congr_left fun s _ => ?_
      by_cases hs : s = rows
      · subst hs
        rw [if_neg (Nat.lt_irrefl s), if_pos rfl, if_pos (Nat.lt_succ_self s), List.nil_append]
        rfl
      · have hlt : s < rows + 1 ↔ s < rows := by omega
        simp [hs, hlt]
    · refine List.map_congr_left fun d hd => ?_
      rw [if_pos (List.mem_range.mp hd), List.map_append]
      rfl

/-- The handle of a rank holds the channels of its row and of its column. -/
theorem handles_ofSize (n : Nat) : (ofSize n).handles = (List.range n).map (Handle.wired n) := by
  have hrows : (List.range n).map (fun s =>
      if s < n then (List.range n).map (number n s) else []) =
      (List.range n).map fun s => (List.range n).map (number n s) := by
    refine List.map_congr_left fun s hs => ?_
    rw [if_pos (List.mem_range.mp hs)]
  rw [ofSize, foldl_connectAll, hrows, handles, List.zip_map']
  apply List.ext_getElem?
  intro r
  simp only [List.getElem?_map, List.getElem?_zipIdx]
  by_cases hr : r < n
  · rw [List.getElem?_range hr, Option.map_some, Option.map_some, Option.map_some, Nat.zero_add]
    rfl
  · rw [List.getElem?_eq_none (by simpa using hr)]
    rfl

end Wiring

/-! ### Networks -/

namespace Network

open Wiring

variable {C : ChannelKind μ} {net : Network C}

def queue (net : Network C) (n s d : Nat) : List μ := C.waiting (net.channels (number n s d))

@[simp] theorem channels_setChannel (net : Network C) (i j : Nat) (c : C.Channel) :
    (net.setChannel i c).channels j = if j = i then c else net.channels j := rfl

theorem channels_setChannel_number (net : Network C) (s d a b : Fin n) (c : C.Channel) :
    (net.setChannel (number n s d) c).channels (number n a b) =
      if a = s ∧ b = d then c else net.channels (number n a b) := by
  rw [channels_setChannel]
  by_cases h : a = s ∧ b = d
  · rw [if_pos h, if_pos (by rw [h.1, h.2])]
  · rw [if_neg h, if_neg]
    intro hnumber
    obtain ⟨ha, hb⟩ := number_inj b.isLt d.isLt hnumber
    exact h ⟨Fin.ext ha, Fin.ext hb⟩

theorem queue_setChannel (net : Network C) (s d a b : Fin n) (c : C.Channel) :
    (net.setChannel (number n s d) c).queue n a b =
      if a = s ∧ b = d then C.waiting c else net.queue n a b := by
  rw [queue, channels_setChannel_number, apply_ite C.waiting, queue]

theorem handle?_group (r : Fin n) : (group n : Network C).handle? r = some (.wired n r) := by
  rw [handle?, group, handles_ofSize, List.getElem?_map, List.getElem?_map,
    List.getElem?_range r.isLt]
  rfl

theorem handles_changeAll (change : C.Channel → C.Channel) (numbers : List Nat) :
    (net.changeAll change numbers).handles = net.handles := by
  induction numbers generalizing net with
  | nil => rfl
  | cons i numbers ih => exact ih

/-- Channels that are changed one after the other are each changed once. -/
theorem channels_changeAll (change : C.Channel → C.Channel) {numbers : List Nat}
    (hnodup : numbers.Nodup) (j : Nat) : (net.changeAll change numbers).channels j =
      if j ∈ numbers then change (net.channels j) else net.channels j := by
  induction numbers generalizing net with
  | nil => rfl
  | cons i numbers ih =>
    obtain ⟨hi, hnodup⟩ := List.nodup_cons.mp hnodup
    rw [changeAll, List.foldl_cons, ← changeAll, ih hnodup, channels_setChannel]
    by_cases hj : j = i
    · subst hj
      simp [hi]
    · simp [hj]

/-! #### What comes of a handle -/

theorem send_wired (net : Network C) (r d : Fin n) (item : μ) :
    net.send (.wired n r) d item = net.putInto (number n r d) d item := by
  have hd : d.val < (Handle.wired n r).outgoing.length := by simp [Handle.wired]
  have hnumber : (Handle.wired n r).outgoing[d.val] = number n r d := by simp [Handle.wired]
  rw [send, dif_pos hd, hnumber]

theorem send_wired_of_le (net : Network C) (r : Fin n) {dest : Nat} (h : n ≤ dest) (item : μ) :
    net.send (.wired n r) dest item = .error (.noSuchRank dest n) := by
  have hlength : (Handle.wired n r).outgoing.length = n := by simp [Handle.wired]
  rw [send, dif_neg (by omega), hlength]

theorem receive_wired (net : Network C) (r s : Fin n) :
    net.receive (.wired n r) s = net.takeFrom (number n s r) s := by
  have hout : s.val < (Handle.wired n r).outgoing.length := by simp [Handle.wired]
  have hin : s.val < (Handle.wired n r).incoming.length := by simp [Handle.wired]
  have hnumber : (Handle.wired n r).incoming[s.val] = number n s r := by simp [Handle.wired]
  rw [receive, if_pos hout, dif_pos hin, hnumber]

theorem receive_wired_of_le (net : Network C) (r : Fin n) {source : Nat} (h : n ≤ source) :
    net.receive (.wired n r) source = .failed (.noSuchRank source n) := by
  have hlength : (Handle.wired n r).outgoing.length = n := by simp [Handle.wired]
  rw [receive, if_neg (by omega), hlength]

theorem handle?_drop_wired (net : Network C) (r i : Fin n) :
    (net.drop (.wired n r)).handle? i = if i = r then none else net.handle? i := by
  have hrank : (Handle.wired n r).rank = r := rfl
  rw [drop, handle?, handles_changeAll, handles_changeAll, List.getElem?_set, hrank]
  by_cases h : i = r
  · subst h
    rw [if_pos rfl, if_pos rfl]
    split <;> rfl
  · rw [if_neg h, if_neg fun hval => h (Fin.ext hval.symm)]
    rfl

theorem mem_outgoing_wired (r s d : Fin n) :
    number n s d ∈ (Handle.wired n r).outgoing ↔ s = r := by
  simp only [Handle.wired, List.mem_map, List.mem_range]
  constructor
  · rintro ⟨d', hd', hnumber⟩
    exact Fin.ext (number_inj hd' d.isLt hnumber).1.symm
  · rintro rfl
    exact ⟨d, d.isLt, rfl⟩

theorem mem_incoming_wired (r s d : Fin n) :
    number n s d ∈ (Handle.wired n r).incoming ↔ d = r := by
  simp only [Handle.wired, List.mem_map, List.mem_range]
  constructor
  · rintro ⟨s', hs', hnumber⟩
    exact Fin.ext (number_inj r.isLt d.isLt hnumber).2.symm
  · rintro rfl
    exact ⟨s, s.isLt, rfl⟩

theorem nodup_outgoing_wired (r : Fin n) : (Handle.wired n r).outgoing.Nodup := by
  refine List.nodup_range.map_on fun d hd d' hd' h => ?_
  exact (number_inj (List.mem_range.mp hd) (List.mem_range.mp hd') h).2

theorem nodup_incoming_wired (r : Fin n) : (Handle.wired n r).incoming.Nodup := by
  refine List.nodup_range.map_on fun s _ s' _ h => ?_
  exact (number_inj r.isLt r.isLt h).1

/-- Dropping a handle closes the channels that it has an end of, on that side. -/
theorem channels_drop_wired (net : Network C) (r s d : Fin n) :
    (net.drop (.wired n r)).channels (number n s d) =
      let c := if s = r then C.dropSender (net.channels (number n s d))
        else net.channels (number n s d)
      if d = r then C.dropReceiver c else c := by
  change ((net.changeAll C.dropSender (Handle.wired n r).outgoing).changeAll C.dropReceiver
    (Handle.wired n r).incoming).channels (number n s d) = _
  rw [channels_changeAll _ (nodup_incoming_wired r), channels_changeAll _ (nodup_outgoing_wired r)]
  simp only [mem_incoming_wired, mem_outgoing_wired]

def transport (C : ChannelKind (Message π)) (n : Nat) : Transport n π (Network C) Handle where
  start := group n
  handle? net rank := net.handle? rank
  send := send
  receive := receive
  drop := drop

end Network

/-! ### Networks and mailboxes -/

open Wiring

/-- A network holds the messages of some mailboxes. What a channel holds whose receiver is gone does
not matter. -/
structure Network.Carries {C : ChannelKind (Message π)} (net : Network C) (m : Mailboxes n π) :
    Prop where
  handle : ∀ r : Fin n, net.handle? r = if m.present.get r then some (.wired n r) else none
  sender : ∀ s d : Fin n, C.hasSender (net.channels (number n s d)) = m.present.get s
  receiver : ∀ s d : Fin n, C.hasReceiver (net.channels (number n s d)) = m.present.get d
  queue : ∀ s d : Fin n, m.present.get d = true → net.queue n s d = m.queue s d

namespace Network.Carries

variable {C : ChannelKind (Message π)} {net : Network C} {m : Mailboxes n π}
  {K : ElementKinds π}

theorem group (hC : C.Lawful) :
    (Network.group n : Network C).Carries (.empty : Mailboxes n π) := by
  constructor
  · intro r
    rw [Network.handle?_group, Mailboxes.present_empty, if_pos rfl]
  · intro s d
    rw [Mailboxes.present_empty]
    exact hC.hasSender_fresh
  · intro s d
    rw [Mailboxes.present_empty]
    exact hC.hasReceiver_fresh
  · intro s d _
    rw [Mailboxes.queue_empty]
    exact hC.waiting_fresh

/-- A channel and a queue are changed together. -/
theorem setChannel (h : net.Carries m) {s d : Fin n} {c : C.Channel} {q : List (Message π)}
    (hsender : C.hasSender c = m.present.get s) (hreceiver : C.hasReceiver c = m.present.get d)
    (hqueue : C.waiting c = q) :
    (net.setChannel (number n s d) c).Carries (m.setQueue s d q) := by
  constructor
  · exact h.handle
  · intro a b
    rw [Network.channels_setChannel_number]
    by_cases hab : a = s ∧ b = d
    · rw [if_pos hab, hab.1, hsender]
      rfl
    · rw [if_neg hab]
      exact h.sender a b
  · intro a b
    rw [Network.channels_setChannel_number]
    by_cases hab : a = s ∧ b = d
    · rw [if_pos hab, hab.2, hreceiver]
      rfl
    · rw [if_neg hab]
      exact h.receiver a b
  · intro a b hb
    rw [Network.queue_setChannel, Mailboxes.queue_setQueue, hqueue, h.queue a b hb]

theorem drop (hC : C.Lawful) (h : net.Carries m) (r : Fin n) :
    (net.drop (.wired n r)).Carries (m.leave r) := by
  constructor
  · intro i
    rw [Network.handle?_drop_wired, h.handle, Mailboxes.present_leave]
    by_cases hi : i = r
    · simp [hi]
    · simp [hi]
  · intro s d
    rw [Network.channels_drop_wired, Mailboxes.present_leave, ← h.sender s d]
    by_cases hs : s = r <;> by_cases hd : d = r <;>
      simp [hs, hd, hC.hasSender_dropSender, hC.hasSender_dropReceiver]
  · intro s d
    rw [Network.channels_drop_wired, Mailboxes.present_leave, ← h.receiver s d]
    by_cases hs : s = r <;> by_cases hd : d = r <;>
      simp [hs, hd, hC.hasReceiver_dropSender, hC.hasReceiver_dropReceiver]
  · intro s d hd
    rw [Mailboxes.present_leave] at hd
    by_cases hdr : d = r
    · rw [if_pos hdr] at hd
      nomatch hd
    · rw [if_neg hdr] at hd
      rw [Network.queue, Network.channels_drop_wired, if_neg hdr]
      by_cases hs : s = r
      · rw [if_pos hs, hC.waiting_dropSender]
        exact h.queue s d hd
      · rw [if_neg hs]
        exact h.queue s d hd

/-- An errand of a rank that is there is done with the handle that the rank was wired with. -/
theorem handle_of_present (h : net.Carries m) {r : Fin n} (hr : m.present.get r = true) :
    (Network.transport C n).handle? net r = some (.wired n r) :=
  (h.handle r).trans (if_pos hr)

theorem handle_of_absent (h : net.Carries m) {r : Fin n} (hr : m.present.get r = false) :
    (Network.transport C n).handle? net r = none :=
  (h.handle r).trans (if_neg (Bool.eq_false_iff.mp hr))

def Agree {C : ChannelKind (Message π)} (a : Errand.Reply K × Network C)
    (b : Errand.Reply K × Mailboxes n π) : Prop :=
  a.1 = b.1 ∧ a.2.Carries b.2

theorem perform_send (hC : C.Lawful) (h : net.Carries m) {r : Fin n}
    (hr : m.present.get r = true) (dest : Nat) (p : Parcel K) :
    Agree ((Network.transport C n).perform net (.send r dest p))
      ((Mailboxes.transport n π).perform m (.send r dest p)) := by
  have hm : (Mailboxes.transport n π).handle? m r = some r := if_pos hr
  rw [Transport.perform_send (h.handle_of_present hr), Transport.perform_send hm]
  dsimp only [Network.transport, Mailboxes.transport]
  obtain ⟨d, rfl, hd, hs⟩ | ⟨d, rfl, hd, hs⟩ | ⟨hdest, hs⟩ := m.send_cases r dest p.message
  · obtain ⟨c, hput, hwaiting, hsender, hreceiver⟩ :=
      hC.put_open (net.channels (number n r d)) p.message ((h.receiver r d).trans hd)
    rw [hs, Network.send_wired, Network.putInto, hput]
    refine ⟨rfl, h.setChannel (hsender.trans (h.sender r d)) (hreceiver.trans hd.symm) ?_⟩
    rw [hwaiting]
    exact congrArg (· ++ [p.message]) (h.queue r d hd)
  · have hput := hC.put_closed (net.channels (number n r d)) p.message ((h.receiver r d).trans hd)
    rw [hs, Network.send_wired, Network.putInto, hput]
    exact ⟨rfl, h⟩
  · rw [hs, Network.send_wired_of_le net r hdest]
    exact ⟨rfl, h⟩

theorem perform_receive (hC : C.Lawful) (h : net.Carries m) {r : Fin n}
    (hr : m.present.get r = true) (source : Nat) (tag : Tag) (key : K.Key) :
    Agree ((Network.transport C n).perform net (.receive r source tag key))
      ((Mailboxes.transport n π).perform m (.receive r source tag key)) := by
  have hm : (Mailboxes.transport n π).handle? m r = some r := if_pos hr
  rw [Transport.perform_receive (h.handle_of_present hr), Transport.perform_receive hm]
  dsimp only [Network.transport, Mailboxes.transport]
  obtain ⟨s, rfl, message, rest, hqueue, hs⟩ | ⟨s, rfl, hqueue, hs⟩ | ⟨hsource, hs⟩ :=
    m.receive_cases r source
  · obtain ⟨c, htake, hwaiting, hsender, hreceiver⟩ :=
      hC.take_cons (net.channels (number n s r)) message rest ((h.receiver s r).trans hr)
        ((h.queue s r hr).trans hqueue)
    rw [hs, Network.receive_wired, Network.takeFrom, htake]
    exact ⟨rfl, h.setChannel (hsender.trans (h.sender s r)) (hreceiver.trans hr.symm) hwaiting⟩
  · have hempty := (h.queue s r hr).trans hqueue
    have hreceiver := (h.receiver s r).trans hr
    rcases hs with ⟨hpresent, hs⟩ | ⟨hpresent, hs⟩
    · rw [hs, Network.receive_wired, Network.takeFrom,
        hC.take_awaited _ hreceiver hempty ((h.sender s r).trans hpresent)]
      exact ⟨rfl, h⟩
    · rw [hs, Network.receive_wired, Network.takeFrom,
        hC.take_ended _ hreceiver hempty ((h.sender s r).trans hpresent)]
      exact ⟨rfl, h⟩
  · rw [hs, Network.receive_wired_of_le net r hsource]
    exact ⟨rfl, h⟩

/-- A network and the mailboxes that it carries cannot be told apart by an errand. -/
theorem perform (hC : C.Lawful) (h : net.Carries m) (e : Errand K n) :
    Agree ((Network.transport C n).perform net e) ((Mailboxes.transport n π).perform m e) := by
  cases hrank : m.present.get e.rank with
  | false =>
    have hm : (Mailboxes.transport n π).handle? m e.rank = none :=
      if_neg (Bool.eq_false_iff.mp hrank)
    rw [Transport.perform_absent (h.handle_of_absent hrank), Transport.perform_absent hm]
    exact ⟨rfl, h⟩
  | true =>
    cases e with
    | send r dest p => exact h.perform_send hC hrank dest p
    | receive r source tag key => exact h.perform_receive hC hrank source tag key
    | drop r =>
      have hr : m.present.get r = true := hrank
      have hm : (Mailboxes.transport n π).handle? m r = some r := if_pos hr
      rw [Transport.perform_drop (h.handle_of_present hr), Transport.perform_drop hm]
      exact ⟨rfl, h.drop hC r⟩

/-- The first message of a queue is the one that is taken out. -/
theorem queue_receive (hC : C.Lawful) (h : net.Carries m) {s d : Fin n}
    (hd : m.present.get d = true) {message : Message π} {rest : List (Message π)}
    (hqueue : net.queue n s d = message :: rest) (tag : Tag) (key : K.Key) :
    ((Network.transport C n).perform net (.receive d s tag key)).2.queue n s d = rest := by
  obtain ⟨c, htake, hwaiting, -, -⟩ :=
    hC.take_cons (net.channels (number n s d)) message rest ((h.receiver s d).trans hd) hqueue
  rw [Transport.perform_receive (h.handle_of_present hd)]
  dsimp only [Network.transport]
  rw [Network.receive_wired, Network.takeFrom, htake]
  dsimp only
  rw [Network.queue_setChannel, if_pos ⟨rfl, rfl⟩, hwaiting]

theorem queue_send_other (h : net.Carries m) {r : Fin n} (hr : m.present.get r = true)
    {dest : Nat} {p : Parcel K} {s d : Fin n}
    (he : ¬ (Errand.send r dest p : Errand K n).Concerns s d) :
    ((Network.transport C n).perform net (.send r dest p)).2.queue n s d = net.queue n s d := by
  rw [Transport.perform_send (h.handle_of_present hr)]
  dsimp only [Network.transport]
  rcases Nat.lt_or_ge dest n with hdest | hdest
  · have hother : ¬ (s = r ∧ d = ⟨dest, hdest⟩) := fun hsd =>
      he ⟨hsd.1.symm, (congrArg Fin.val hsd.2).symm⟩
    rw [net.send_wired r ⟨dest, hdest⟩, Network.putInto]
    cases C.put (net.channels (number n r dest)) p.message with
    | none => rfl
    | some c => exact (net.queue_setChannel r ⟨dest, hdest⟩ s d c).trans (if_neg hother)
  · rw [net.send_wired_of_le r hdest]

theorem queue_receive_other (h : net.Carries m) {r : Fin n} (hr : m.present.get r = true)
    {source : Nat} {tag : Tag} {key : K.Key} {s d : Fin n}
    (he : ¬ (Errand.receive r source tag key : Errand K n).Concerns s d) :
    ((Network.transport C n).perform net (.receive r source tag key)).2.queue n s d =
      net.queue n s d := by
  rw [Transport.perform_receive (h.handle_of_present hr)]
  dsimp only [Network.transport]
  rcases Nat.lt_or_ge source n with hsource | hsource
  · have hother : ¬ (s = ⟨source, hsource⟩ ∧ d = r) := fun hsd =>
      he ⟨hsd.2.symm, (congrArg Fin.val hsd.1).symm⟩
    rw [net.receive_wired r ⟨source, hsource⟩, Network.takeFrom]
    cases C.take (net.channels (number n source r)) with
    | got item c => exact (net.queue_setChannel ⟨source, hsource⟩ r s d c).trans (if_neg hother)
    | awaited => rfl
    | ended => rfl
  · rw [net.receive_wired_of_le r hsource]

/-- An errand changes no queue that it is not about, unless the receiver leaves. -/
theorem queue_perform_other (hC : C.Lawful) (h : net.Carries m) {e : Errand K n} {s d : Fin n}
    (he : ¬ e.Concerns s d) (hdrop : e ≠ .drop d) :
    ((Network.transport C n).perform net e).2.queue n s d = net.queue n s d := by
  cases hrank : m.present.get e.rank with
  | false =>
    rw [Transport.perform_absent (h.handle_of_absent hrank)]
  | true =>
    cases e with
    | send r dest p => exact h.queue_send_other hrank he
    | receive r source tag key => exact h.queue_receive_other hrank he
    | drop r =>
      have hr : m.present.get r = true := hrank
      have hdr : d ≠ r := fun hdr => hdrop (congrArg Errand.drop hdr.symm)
      rw [Transport.perform_drop (h.handle_of_present hr), Network.queue]
      dsimp only [Network.transport]
      rw [Network.channels_drop_wired, if_neg hdr]
      by_cases hs : s = r
      · rw [if_pos hs, hC.waiting_dropSender, Network.queue]
      · rw [if_neg hs, Network.queue]

/-- A network and the mailboxes of the group answer the same errands in the same way. -/
theorem after (hC : C.Lawful) (log : List (Errand K n)) :
    ((Network.transport C n).after log).1 = ((Mailboxes.transport n π).after log).1 ∧
      ((Network.transport C n).after log).2.Carries ((Mailboxes.transport n π).after log).2 := by
  induction log using List.reverseRecOn with
  | nil => exact ⟨rfl, group hC⟩
  | append_singleton log e ih =>
    obtain ⟨hpast, hcarries⟩ := ih
    obtain ⟨hreply, hnext⟩ := hcarries.perform hC e
    rw [Transport.after_concat, Transport.after_concat, hpast, hreply]
    exact ⟨rfl, hnext⟩

end Network.Carries

/-- A network is a queue for every two ranks, and none depends on another: by what has been asked
and answered so far, every answer is the expected one, every queue of a rank that is there holds
what has been sent to it and not been taken, and an errand changes no more than it is about. -/
structure Network.Separates {C : ChannelKind (Message π)} {K : ElementKinds π} (net : Network C)
    (past : Past K n) : Prop where
  answers : ∀ (e : Errand K n) (reply : Errand.Reply K),
    past.Expects e reply ↔ ((Network.transport C n).perform net e).1 = reply
  queue : ∀ s d : Fin n, ¬ past.Gone d → net.queue n s d = past.waiting s d
  /-- Taking a message removes the first one, whatever it is answered with. -/
  head : ∀ (s d : Fin n) (tag : Tag) (key : K.Key) (message : Message π)
    (rest : List (Message π)), ¬ past.Gone d → net.queue n s d = message :: rest →
      ((Network.transport C n).perform net (.receive d s tag key)).2.queue n s d = rest
  others : ∀ (e : Errand K n) (s d : Fin n), ¬ e.Concerns s d → e ≠ .drop d →
    ((Network.transport C n).perform net e).2.queue n s d = net.queue n s d

/-- The wiring of a group connects every two ranks by a channel of their own, so that after any
errands the group is a matrix of queues and answers as its mailboxes do. -/
theorem network_separates {C : ChannelKind (Message π)} (hC : C.Lawful) (K : ElementKinds π)
    (n : Nat) :
    (Wiring.ofSize n).handles = (List.range n).map (Handle.wired n) ∧
    ∀ log : List (Errand K n),
      ((Network.transport C n).after log).2.Separates ((Network.transport C n).after log).1 ∧
      ((Network.transport C n).after log).1 = ((Mailboxes.transport n π).after log).1 := by
  refine ⟨Wiring.handles_ofSize n, fun log => ?_⟩
  obtain ⟨hpast, hcarries⟩ := Network.Carries.after hC log
  have hremembers := Mailboxes.remembers_after (n := n) log
  rw [hpast]
  refine ⟨?_, rfl⟩
  constructor
  case answers =>
    intro e reply
    have hanswer := (hremembers.answers e).1
    rw [← (hcarries.perform hC e).1] at hanswer
    constructor
    · exact fun hreply => hanswer.unique hreply
    · rintro rfl
      exact hanswer
  case queue =>
    intro s d hd
    rw [hcarries.queue s d ((hremembers.present d).mpr hd), hremembers.queue]
  case head =>
    intro s d tag key message rest hd hqueue
    exact hcarries.queue_receive hC ((hremembers.present d).mpr hd) hqueue tag key
  case others =>
    intro e s d he hdrop
    exact hcarries.queue_perform_other hC he hdrop

/-! ### Buffers -/

structure Buffer (μ : Type) where
  items : List μ
  sender : Bool
  receiver : Bool

/-- Buffers as channels; what nobody can take any more is thrown away. -/
def Buffer.channels (μ : Type) : ChannelKind μ where
  Channel := Buffer μ
  fresh := ⟨[], true, true⟩
  put b item := if b.receiver then some { b with items := b.items ++ [item] } else none
  take b :=
    match b.items with
    | item :: rest => .got item { b with items := rest }
    | [] => if b.sender then .awaited else .ended
  dropSender b := { b with sender := false }
  dropReceiver b := { b with items := [], receiver := false }
  waiting := Buffer.items
  hasSender := Buffer.sender
  hasReceiver := Buffer.receiver

theorem Buffer.lawful_channels (μ : Type) : (channels μ).Lawful := by
  constructor
  case put_open =>
    intro b item hb
    exact ⟨_, if_pos hb, rfl, rfl, hb⟩
  case put_closed =>
    intro b item hb
    exact if_neg (Bool.eq_false_iff.mp hb)
  case take_cons =>
    rintro ⟨_, sender, receiver⟩ item rest hb rfl
    exact ⟨_, rfl, rfl, rfl, hb⟩
  case take_awaited =>
    rintro ⟨_, sender, receiver⟩ - rfl hsender
    exact if_pos hsender
  case take_ended =>
    rintro ⟨_, sender, receiver⟩ - rfl hsender
    exact if_neg (Bool.eq_false_iff.mp hsender)
  all_goals first | rfl | exact fun b => rfl

/-- One rank sends to another under two tags and leaves, and the other one takes what there is and
goes on after that. -/
def leavesEarly (a b : Fin 2) : List (Errand (plainKinds Nat) 2) :=
  [.receive b a .user .byte, .send a b ⟨.user, .byte, [(7 : UInt8)]⟩,
    .send a b ⟨.payload, .byte, [(8 : UInt8)]⟩, .send a b ⟨.user, .byte, [(9 : UInt8)]⟩,
    .send b a ⟨.user, .text, ["x"]⟩, .drop a, .receive b a .user .byte,
    .receive b a .user .byte, .receive b a .user .word, .receive b a .user .byte,
    .send b a ⟨.user, .byte, []⟩, .send b 5 ⟨.user, .byte, []⟩, .receive b b .user .byte,
    .send a b ⟨.user, .byte, []⟩]

theorem network_separates_leavesEarly : (Buffer.channels (Message (Content Nat))).Lawful ∧
    ((Network.transport (Buffer.channels _) 2).after (leavesEarly 0 1)).1.map (·.2) =
      [.awaited, .sent, .sent, .sent, .sent, .dropped, .received .byte [(7 : UInt8)],
        .failed (.wrongTag 0 .user .payload), .failed (.wrongKind 0 .user),
        .failed (.departed 0), .failed (.departed 0), .failed (.noSuchRank 5 2), .awaited,
        .absent] ∧
    (Wiring.ofSize 2).handles = (List.range 2).map (Handle.wired 2) ∧
    ∀ log : List (Errand (plainKinds Nat) 2),
      ((Network.transport (Buffer.channels _) 2).after log).2.Separates
        ((Network.transport (Buffer.channels _) 2).after log).1 ∧
      ((Network.transport (Buffer.channels _) 2).after log).1 =
        ((Mailboxes.transport 2 _).after log).1 := by
  have hC := Buffer.lawful_channels (Message (Content Nat))
  exact ⟨hC, rfl, network_separates hC (plainKinds Nat) 2⟩

end SpatialSearch
