import Mathlib.Data.List.Forall2
import SpatialSearch.Proofs.Collectives
import SpatialSearch.Proofs.Provenance

/-!
# Contracts between ranks

What ranks can rely on without knowing what the others do at the time: a contract says what
may be under way from one rank to another and for what causes a rank may give up. A program
that keeps to a contract, as long as the others do, ends only with results of its own
kind. If all ranks start such programs then all of them keep to the contract after any
actions, so that each result is as promised, in whatever order the ranks act and also if
others fail or wait for ever.

`Ensures` puts this in terms of programs that may fail. Its rules follow how programs are
put together, with one for each operation.
-/

namespace SpatialSearch

/-- What may be under way between ranks, and why they may give up. -/
structure Contract (π : Type) where
  allows : (source dest : Nat) → π → Prop
  excuses : Abort → Prop

namespace Contract

variable {π ρ σ β γ ε ε' : Type} {c : Contract π} {rank : Nat}

/-- A program of a rank that keeps to a contract as long as it is sent what the contract
allows, and ends with a result that has a property. -/
inductive Keeps (c : Contract π) (rank : Nat) (Q : ρ → Prop) : Program π ρ → Prop where
  | done {result : ρ} (h : Q result) : Keeps c rank Q (.done result)
  | gaveUp {cause : Abort} (h : c.excuses cause) : Keeps c rank Q (.gaveUp cause)
  | leave {next : Program π ρ} (h : Keeps c rank Q next) : Keeps c rank Q (.leave next)
  | send (dest : Nat) {message : Message π} {next : Except TransferFault Unit → Program π ρ}
      (hmessage : c.allows rank dest message.payload)
      (h : ∀ outcome, Keeps c rank Q (next outcome)) :
      Keeps c rank Q (.send dest message next)
  | receive (source : Nat) {next : Except TransferFault (Message π) → Program π ρ}
      (hfailed : ∀ cause, Keeps c rank Q (next (.error cause)))
      (htaken : ∀ m : Message π, c.allows source rank m.payload →
        Keeps c rank Q (next (.ok m))) :
      Keeps c rank Q (.receive source next)

theorem Keeps.bind {P : ρ → Prop} {Q : σ → Prop} {p : Program π ρ} {f : ρ → Program π σ}
    (hp : c.Keeps rank P p) (hf : ∀ r, P r → c.Keeps rank Q (f r)) :
    c.Keeps rank Q (p.bind f) := by
  induction hp with
  | done h => exact hf _ h
  | gaveUp h => exact .gaveUp h
  | leave _ ih => exact .leave ih
  | send dest hmessage _ ih => exact .send dest hmessage ih
  | receive source _ _ ihfailed ihtaken => exact .receive source ihfailed ihtaken

/-- What such a program sends is allowed. -/
theorem Keeps.sends {Q : ρ → Prop} {p q : Program π ρ} {events : List (Event π)}
    (h : c.Keeps rank Q p) (hturn : p.Turns events q) {dest : Nat} {m : Message π}
    (he : ⟨.sent, dest, m⟩ ∈ events) : c.allows rank dest m.payload := by
  cases hturn with
  | leave => cases he
  | send =>
    cases List.mem_singleton.mp he
    cases h with
    | send _ hmessage _ => exact hmessage
  | sendFails => cases he
  | receive => cases List.mem_singleton.mp he
  | receiveFails => cases he

/-- What becomes of such a program keeps to the contract as well if it takes what is allowed. -/
theorem Keeps.turn {Q : ρ → Prop} {p q : Program π ρ} {events : List (Event π)}
    (h : c.Keeps rank Q p) (hturn : p.Turns events q)
    (htaken : ∀ source m, ⟨.taken, source, m⟩ ∈ events → c.allows source rank m.payload) :
    c.Keeps rank Q q := by
  cases hturn with
  | leave =>
    cases h with
    | leave h => exact h
  | send =>
    cases h with
    | send _ _ h => exact h _
  | sendFails _ _ _ cause =>
    cases h with
    | send _ _ h => exact h (.error cause)
  | receive source _ message =>
    cases h with
    | receive _ _ h => exact h message (htaken source message List.mem_cons_self)
  | receiveFails _ _ cause =>
    cases h with
    | receive _ h _ => exact h cause

/-! ### Groups -/

section Groups

variable {n : Nat} {Q : Fin n → ρ → Prop} {g after start : Group n π ρ}

/-- All ranks keep to a contract, and so does all that is under way. -/
structure Governs (c : Contract π) (Q : Fin n → ρ → Prop) (g : Group n π ρ) : Prop where
  programs : ∀ i : Fin n, c.Keeps i (Q i) (g.programs.get i)
  queues : ∀ s d : Fin n, ∀ m ∈ g.mailboxes.queue s d, c.allows s d m.payload

theorem Governs.proceed (h : c.Governs Q g) {i : Fin n} {next : Program π ρ}
    {mailboxes : Mailboxes n π} (hnext : c.Keeps i (Q i) next)
    (hqueues : ∀ s d : Fin n, ∀ m ∈ mailboxes.queue s d, c.allows s d m.payload) :
    c.Governs Q (g.proceed i next mailboxes) where
  programs j := by
    rw [Group.programs_get_proceed]
    by_cases hji : j = i
    · subst hji
      rwa [if_pos rfl]
    · rw [if_neg hji]
      exact h.programs j
  queues := hqueues

/-- Every action of a rank keeps to the contract. -/
theorem Governs.act (h : c.Governs Q g) {i : Fin n} (hact : g.act i = some after) :
    c.Governs Q after := by
  obtain ⟨next, mailboxes, rfl, hturn, hqueues⟩ := Group.turns_of_act hact
  have hown := h.programs i
  -- The queues with what the rank sends are all that it can take and all that is left.
  have hallowed : ∀ s d : Fin n, ∀ m ∈ g.mailboxes.queue s d ++
      (if s = i then Event.messages .sent d (g.nextEvent i).toList else []),
      c.allows s d m.payload := by
    intro s d m hm
    rcases List.mem_append.mp hm with hm | hm
    · exact h.queues s d m hm
    · split at hm
      · rename_i hs
        rw [hs]
        exact hown.sends hturn (Event.mem_messages.mp hm)
      · cases hm
  refine h.proceed (hown.turn hturn fun source m he => ?_) fun s d m hm => ?_
  · have hsource := Group.peer_lt_of_nextEvent (Option.mem_toList.mp he)
    refine hallowed ⟨source, hsource⟩ i m ?_
    rw [hqueues, if_pos rfl]
    exact List.mem_append_left _ (Event.mem_messages.mpr he)
  · refine hallowed s d m ?_
    rw [hqueues]
    exact List.mem_append_right _ hm

/-- Ranks that start with programs that keep to a contract keep to it in every run. -/
theorem Governs.recorded (hstart : c.Governs Q start) {log : Fin n → List (Event π)}
    (h : Group.Recorded start log g) : c.Governs Q g := by
  induction h with
  | start => exact hstart
  | act _ _ hact ih => exact ih.act hact

theorem Governs.result (h : c.Governs Q g) {i : Fin n} {result : ρ}
    (hdone : g.programs.get i = .done result) : Q i result := by
  have hown := h.programs i
  rw [hdone] at hown
  cases hown with
  | done h => exact h

theorem Governs.cause (h : c.Governs Q g) {i : Fin n} {cause : Abort}
    (hgaveUp : g.programs.get i = .gaveUp cause) : c.excuses cause := by
  have hown := h.programs i
  rw [hgaveUp] at hown
  cases hown with
  | gaveUp h => exact h

/-- Programs that keep to a contract, with nothing under way. -/
theorem governs_start {p : Fin n → Program π ρ} (hp : ∀ i : Fin n, c.Keeps i (Q i) (p i)) :
    c.Governs Q ⟨.ofFn p, .empty⟩ where
  programs i := by
    rw [← Group.of_none, Group.programs_get_of]
    exact hp i
  queues s d m hm := by
    rw [← Queues.toMailboxes_none] at hm
    have hnone : (Queues.none : Queues n π).toMailboxes.queue s d = [] :=
      Queues.queue_toMailboxes Queues.none s d
    rw [hnone] at hm
    cases hm

end Groups

/-! ### Programs that may fail -/

/-- A program that keeps to a contract, and whose results have a property if it does not
fail. -/
def Ensures (c : Contract π) (rank : Nat) (Q : β → Prop) (x : ExceptT ε (Program π) β) : Prop :=
  c.Keeps rank (fun outcome => ∀ a, outcome = .ok a → Q a) x.run

variable {P : β → Prop} {Q : γ → Prop}

theorem ensures_done {outcome : Except ε β} (h : ∀ a, outcome = .ok a → P a) :
    c.Ensures rank P (.mk (.done outcome)) := .done h

theorem ensures_pure {a : β} (h : P a) : c.Ensures rank P (pure a : ExceptT ε (Program π) β) :=
  ensures_done fun _ heq => Except.ok.inj heq ▸ h

theorem ensures_throw (e : ε) : c.Ensures rank P (throw e : ExceptT ε (Program π) β) :=
  ensures_done nofun

theorem Ensures.bind {x : ExceptT ε (Program π) β} {f : β → ExceptT ε (Program π) γ}
    (hx : c.Ensures rank P x) (hf : ∀ a, P a → c.Ensures rank Q (f a)) :
    c.Ensures rank Q (x >>= f) := by
  rw [Ensures, run_bind]
  refine Keeps.bind hx fun outcome houtcome => ?_
  cases outcome with
  | ok a => exact hf a (houtcome a rfl)
  | error e => exact .done nofun

theorem Ensures.mono {P' : β → Prop} {x : ExceptT ε (Program π) β} (hx : c.Ensures rank P x)
    (h : ∀ a, P a → P' a) : c.Ensures rank P' x := by
  have hbind := hx.bind (f := pure) fun a ha => ensures_pure (h a ha)
  rwa [bind_pure] at hbind

theorem Ensures.adapt {x : ExceptT ε (Program π) β} (hx : c.Ensures rank P x) (f : ε → ε') :
    c.Ensures rank P (x.adapt f) := by
  refine Keeps.bind hx fun outcome houtcome => ?_
  cases outcome with
  | ok a => exact .done fun _ heq => Except.ok.inj heq ▸ houtcome a rfl
  | error e => exact .done nofun

theorem ensures_forM {l : List β} {f : β → ExceptT ε (Program π) Unit}
    (h : ∀ a ∈ l, c.Ensures rank (fun _ => True) (f a)) :
    c.Ensures rank (fun _ => True) (l.forM f) := by
  induction l with
  | nil => exact ensures_pure trivial
  | cons a rest ih =>
    obtain ⟨ha, hrest⟩ := List.forall_mem_cons.mp h
    exact ha.bind fun _ _ => ih hrest

theorem ensures_mapM {R : β → γ → Prop} {l : List β} {f : β → ExceptT ε (Program π) γ}
    (h : ∀ a ∈ l, c.Ensures rank (R a) (f a)) :
    c.Ensures rank (List.Forall₂ R l) (l.mapM f) := by
  induction l with
  | nil => exact ensures_pure .nil
  | cons a rest ih =>
    obtain ⟨ha, hrest⟩ := List.forall_mem_cons.mp h
    rw [List.mapM_cons]
    exact ha.bind fun b hb => (ih hrest).bind fun bs hbs => ensures_pure (.cons hb hbs)

/-! ### Operations -/

/-- Lists of a kind are allowed under way exactly if their elements are of a certain form, which
depends on where they come from and where they go. -/
structure Carries (c : Contract π) (kind : ElementKind π γ) (E : (source dest : Nat) → γ → Prop) :
    Prop where
  pack : ∀ s d items, (∀ b ∈ items, E s d b) → c.allows s d (kind.pack items)
  unpack : ∀ s d payload items, c.allows s d payload → kind.unpack? payload = some items →
    ∀ b ∈ items, E s d b

section Operations

variable {kind : ElementKind π γ} {E : (source dest : Nat) → γ → Prop} {tag : Tag}

theorem unpack?_of_unwrap {peer : Nat} {m : Message π} {items : List γ}
    (h : m.unwrap kind peer tag = .ok items) : kind.unpack? m.payload = some items := by
  rw [Message.unwrap] at h
  split at h
  · split at h
    · rename_i hitems
      cases h
      exact hitems
    · cases h
  · cases h

/-- Elements that are always allowed. -/
theorem Carries.anything (h : ∀ s d items, c.allows s d (kind.pack items)) :
    c.Carries kind fun _ _ _ => True where
  pack s d items _ := h s d items
  unpack _ _ _ _ _ _ _ _ := trivial

theorem Carries.ensures_send (h : c.Carries kind E) {dest : Nat} {items : List γ}
    (hitems : ∀ b ∈ items, E rank dest b) :
    c.Ensures rank (fun _ => True) (Exchange.send kind dest tag items) :=
  .send dest (h.pack rank dest items hitems) fun _ => .done fun _ _ => trivial

theorem Carries.ensures_receive (h : c.Carries kind E) (source : Nat) :
    c.Ensures rank (fun items => ∀ b ∈ items, E source rank b)
      (Exchange.receive kind source tag) := by
  refine .receive source (fun _ => .done nofun) fun m hm => .done fun items hitems => ?_
  exact h.unpack source rank m.payload items hm (unpack?_of_unwrap hitems)

theorem Carries.ensures_receiveOne (h : c.Carries kind E) (source : Nat) :
    c.Ensures rank (E source rank) (Exchange.receiveOne kind source tag) := by
  refine (h.ensures_receive source).bind fun items hitems => ensures_done fun item hitem => ?_
  cases items with
  | nil => cases hitem
  | cons first rest =>
    cases rest with
    | cons _ _ => cases hitem
    | nil =>
      cases hitem
      exact hitems _ List.mem_cons_self

theorem forall₂_range {R : Nat → β → Prop} {m : Nat} {l : List β}
    (h : List.Forall₂ R (List.range m) l) :
    l.length = m ∧ ∀ k b, l[k]? = some b → R k b := by
  have hlength := h.length_eq
  rw [List.length_range] at hlength
  refine ⟨hlength.symm, fun k b hb => ?_⟩
  obtain ⟨hk, rfl⟩ := List.getElem?_eq_some_iff.mp hb
  have hget := h.get (i := k) (by simpa [hlength] using hk) hk
  simpa using hget

/-- What a rank gets from an exchange of single items: one from each rank, its own from itself. -/
theorem Carries.ensures_swap (h : c.Carries kind E) {seat : Seat} {outgoing : Nat → γ}
    (hout : ∀ dest, E seat.rank dest (outgoing dest)) :
    c.Ensures seat.rank (fun items : List γ => items.length = seat.size ∧
        ∀ source item, items[source]? = some item → E source seat.rank item ∧
          (source = seat.rank.val → item = outgoing source))
      (Exchange.swap kind tag seat outgoing) := by
  refine (ensures_forM fun dest _ => h.ensures_send (by simpa using hout dest)).bind
    fun _ _ => (ensures_mapM (R := fun source item => E source seat.rank item ∧
      (source = seat.rank.val → item = outgoing source)) fun source _ => ?_).mono
        fun items hitems => forall₂_range hitems
  by_cases hown : source = seat.rank.val
  · rw [if_pos hown]
    refine ensures_pure ⟨?_, fun _ => rfl⟩
    rw [hown]
    exact hout seat.rank
  · rw [if_neg hown]
    exact (h.ensures_receiveOne source).mono fun item hitem => ⟨hitem, fun heq => absurd heq hown⟩

/-- What a rank gathers: one item from each rank. -/
theorem Carries.ensures_gather (h : c.Carries kind E) (seat : Seat) (value : γ)
    (hvalue : ∀ dest, E seat.rank dest value) :
    c.Ensures seat.rank (fun items : List γ => items.length = seat.size ∧
        ∀ source item, items[source]? = some item → E source seat.rank item)
      (Exchange.gather kind seat value) := by
  refine (h.ensures_swap hvalue).mono fun items hitems => ⟨hitems.1, fun source item hitem => ?_⟩
  exact (hitems.2 source item hitem).1

theorem ensures_ofCount {result : Except Abort β}
    (h : ∀ cause, result = .error cause → c.excuses cause) :
    c.Ensures rank (fun a => result = .ok a) (Exchange.ofCount result : Exchange π β) := by
  cases result with
  | ok a => exact ensures_pure rfl
  | error cause => exact .leave (.gaveUp (h cause rfl))

end Operations

/-! ### Parts of a computation -/

theorem exists_of_bind_eq_ok {x : Except ε β} {f : β → Except ε γ} {b : γ}
    (h : x >>= f = .ok b) : ∃ a, x = .ok a ∧ f a = .ok b := by
  cases x with
  | error _ => cases h
  | ok a => exact ⟨a, rfl, h⟩

/-- What fails of two computations one after the other. -/
theorem error_of_bind {x : Except ε β} {f : β → Except ε γ} {e : ε} (h : x >>= f = .error e) :
    x = .error e ∨ ∃ a, x = .ok a ∧ f a = .error e := by
  cases x with
  | error _ =>
    cases h
    exact Or.inl rfl
  | ok a => exact Or.inr ⟨a, rfl, h⟩

theorem exists_of_map_eq_ok {x : Except ε β} {f : β → γ} {b : γ} (h : x.map f = .ok b) :
    ∃ a, x = .ok a ∧ f a = b := by
  cases x with
  | error _ => cases h
  | ok a => exact ⟨a, rfl, Except.ok.inj h⟩

theorem error_of_map {x : Except ε β} {f : β → γ} {e : ε} (h : x.map f = .error e) :
    x = .error e := by
  cases x with
  | error _ => exact congrArg Except.error (Except.error.inj h)
  | ok _ => cases h

/-! ### Plans -/

section Plans

variable {counts : ElementKind π Nat} {kind : ElementKind π γ} {E : (source dest : Nat) → γ → Prop}

/-- A plan for items with given destinations, which announces to the rank itself what it has for
itself. -/
structure Negotiated (plan : Plan) (seat : Seat) (destinations : List Nat) : Prop where
  seat_eq : plan.seat = seat
  destinations_eq : plan.destinations = destinations
  own : ∀ expected, plan.incoming[seat.rank.val]? = some expected →
    expected = destinations.count seat.rank.val

theorem ensures_negotiate (h : c.Carries counts fun _ _ _ => True) (seat : Seat)
    (destinations : List Nat) :
    c.Ensures seat.rank (Negotiated · seat destinations)
      (Plan.negotiate counts seat destinations) := by
  rw [Plan.negotiate]
  split
  · exact ensures_throw _
  · refine (h.ensures_swap fun _ => trivial).bind fun incoming hincoming => ensures_pure ?_
    exact ⟨rfl, rfl, fun expected hexpected => (hincoming.2 _ expected hexpected).2 rfl⟩

theorem length_bucket {plan : Plan} {items : List γ}
    (h : items.length = plan.destinations.length) (dest : Nat) :
    (plan.bucket dest items).length = plan.destinations.count dest := by
  have hzip : (items.zip plan.destinations).map Prod.snd = plan.destinations :=
    List.map_snd_zip (Nat.le_of_eq h.symm)
  have hcount : plan.destinations.count dest =
      (items.zip plan.destinations).countP (·.2 == dest) := by
    rw [← hzip, List.count, List.countP_map, hzip]
    rfl
  rw [Plan.bucket, List.length_map, hcount, List.countP_eq_length_filter]

theorem mem_bucket {plan : Plan} {items : List γ} {dest : Nat} {b : γ}
    (h : b ∈ plan.bucket dest items) : (b, dest) ∈ items.zip plan.destinations := by
  obtain ⟨⟨item, d⟩, hmem, rfl⟩ := List.mem_map.mp h
  obtain ⟨hzip, hd⟩ := List.mem_filter.mp hmem
  rwa [← eq_of_beq hd]

theorem forall₂_replicate {R : Nat → γ → Prop} {source : Nat} {part : List γ}
    (h : ∀ b ∈ part, R source b) : List.Forall₂ R (List.replicate part.length source) part := by
  induction part with
  | nil => exact .nil
  | cons b rest ih =>
    obtain ⟨hb, hrest⟩ := List.forall_mem_cons.mp h
    exact .cons hb (ih hrest)

theorem forall₂_flatten {R : Nat → γ → Prop} {announced : List (Nat × Nat)}
    {parts : List (List γ)} (h : List.Forall₂ (fun announced part =>
      part.length = announced.1 ∧ ∀ b ∈ part, R announced.2 b) announced parts) :
    List.Forall₂ R (announced.flatMap fun p => List.replicate p.1 p.2) parts.flatten := by
  induction h with
  | nil => exact .nil
  | @cons a part announced parts hpart _ ih =>
    rw [List.flatMap_cons, List.flatten_cons, ← hpart.1]
    exact List.rel_append (forall₂_replicate hpart.2) ih

theorem Carries.ensures_takeFrom (h : c.Carries kind E) (source expected : Nat) :
    c.Ensures rank (fun part => part.length = expected ∧ ∀ b ∈ part, E source rank b)
      (Plan.takeFrom kind source expected) := by
  rw [Plan.takeFrom]
  split
  · rename_i hzero
    exact ensures_pure ⟨hzero.symm, List.forall_mem_nil _⟩
  · refine (h.ensures_receive source).bind fun items hitems => ?_
    split
    · rename_i hlength
      exact ensures_pure ⟨hlength, hitems⟩
    · exact ensures_throw _

theorem cause_of_add {a b : Nat} {cause : Abort} (h : Count.add a b = .error cause) :
    cause = .overflow := by
  rw [Count.add] at h
  split at h
  · cases h
  · exact (Except.error.inj h).symm

theorem cause_of_reserve {items : Nat} {cause : Abort} (h : Count.reserve items = .error cause) :
    cause = .noRoom := by
  rw [Count.reserve] at h
  split at h
  · cases h
  · exact (Except.error.inj h).symm

theorem cause_of_sumFrom {seen : Nat} {terms : List Nat} {cause : Abort}
    (h : Count.sumFrom seen terms = .error cause) : cause = .overflow := by
  induction terms generalizing seen with
  | nil => cases h
  | cons term rest ih =>
    rw [Count.sumFrom] at h
    split at h
    · exact ih h
    · rename_i hadd
      cases h
      exact cause_of_add hadd

theorem cause_of_makeRoom {plan : Plan} {cause : Abort} (h : plan.makeRoom = .error cause) :
    cause = .overflow ∨ cause = .noRoom := by
  rw [Plan.makeRoom] at h
  rcases error_of_bind h with htotal | ⟨total, -, h⟩
  · exact Or.inl (cause_of_sumFrom htotal)
  · rcases error_of_bind h with hroom | ⟨_, -, hpure⟩
    · exact Or.inr (cause_of_reserve hroom)
    · cases hpure

theorem length_sources (plan : Plan) : plan.sources.length = plan.incoming.sum := by
  rw [Plan.sources, List.length_flatMap]
  simp only [List.length_replicate]
  exact congrArg List.sum (List.zipIdx_map_fst 0 plan.incoming)

/-- A plan that makes room receives fewer items than there is room for. -/
theorem length_sources_lt {plan : Plan} {total : Nat} (h : plan.makeRoom = .ok total) :
    plan.sources.length < Count.room := by
  obtain ⟨received, hreceived, h⟩ := exists_of_bind_eq_ok h
  obtain ⟨_, hreserve, -⟩ := exists_of_bind_eq_ok h
  have hlt : received < Count.room := by
    rw [Count.reserve] at hreserve
    split at hreserve
    · assumption
    · cases hreserve
  have hsum := (Count.sum_eq_ok_iff.mp hreceived).1
  rw [length_sources, List.sum_eq_foldl_nat, hsum]
  exact hlt

/-- What arrives by a plan comes from the ranks that the plan says, item by item, and there is
room for it. -/
theorem Carries.ensures_post_within (h : c.Carries kind E) {plan : Plan} {seat : Seat}
    {destinations : List Nat} (hplan : Negotiated plan seat destinations) {items : List γ}
    (hitems : ∀ b dest, (b, dest) ∈ items.zip destinations → E seat.rank dest b)
    (hexcuses : ∀ cause, cause = .overflow ∨ cause = .noRoom → c.excuses cause) :
    c.Ensures seat.rank (fun arrived =>
      List.Forall₂ (fun source b => E source seat.rank b) plan.sources arrived ∧
        arrived.length < Count.room) (plan.post kind items) := by
  obtain ⟨rfl, rfl, hown⟩ := hplan
  have hbucket : ∀ dest, ∀ b ∈ plan.bucket dest items, E plan.seat.rank dest b :=
    fun dest b hb => hitems b dest (mem_bucket hb)
  rw [Plan.post]
  split
  · exact ensures_throw _
  · rename_i hlength
    have hlength := not_not.mp hlength
    refine (ensures_forM fun dest _ => ?_).bind fun _ _ => ?_
    · rw [Plan.postTo]
      split
      · exact ensures_pure trivial
      · exact h.ensures_send (hbucket dest)
    refine (ensures_ofCount fun cause hcause =>
      hexcuses cause (cause_of_makeRoom hcause)).bind fun _ hroom => ?_
    refine (ensures_mapM (R := fun announced part => part.length = announced.1 ∧
      ∀ b ∈ part, E announced.2 plan.seat.rank b) fun announced hannounced => ?_).bind
        fun parts hparts => ?_
    · obtain ⟨expected, source⟩ := announced
      dsimp only
      split
      · rename_i hsource
        subst hsource
        rw [List.mem_zipIdx_iff_getElem?] at hannounced
        refine ensures_pure ⟨?_, hbucket _⟩
        rw [length_bucket hlength, hown expected hannounced]
      · exact h.ensures_takeFrom source expected
    · have harrived : List.Forall₂ (fun source b => E source plan.seat.rank b) plan.sources
          parts.flatten := forall₂_flatten hparts
      refine ensures_pure ⟨harrived, ?_⟩
      rw [← harrived.length_eq]
      exact length_sources_lt hroom

/-- What arrives by a plan comes from the ranks that the plan says, item by item. -/
theorem Carries.ensures_post (h : c.Carries kind E) {plan : Plan} {seat : Seat}
    {destinations : List Nat} (hplan : Negotiated plan seat destinations) {items : List γ}
    (hitems : ∀ b dest, (b, dest) ∈ items.zip destinations → E seat.rank dest b)
    (hexcuses : ∀ cause, cause = .overflow ∨ cause = .noRoom → c.excuses cause) :
    c.Ensures seat.rank
      (fun arrived => List.Forall₂ (fun source b => E source seat.rank b) plan.sources arrived)
      (plan.post kind items) :=
  (h.ensures_post_within hplan hitems hexcuses).mono fun _ => And.left

end Plans

end Contract

end SpatialSearch
