import SpatialSearch.PartitionedIndex.Content
import SpatialSearch.Proofs.Collectives
import SpatialSearch.Proofs.Provenance

/-!
# Calls that do not match

Ranks are free to make collective calls that do not go together: in different orders, more of them
on one rank than on another, with different element types, or along different plans. Then a call may
find in its way what another rank has sent for a different call. It fails if that is a call of
another operation, if its elements are of another type, and if it brings another number of items
than the call waits for. Calls that are alike in all of this are not told apart: a message names its
operation, not the call that it belongs to.
-/

namespace SpatialSearch

/-- Element types that payloads tell apart, and how numbers of items are announced. -/
structure ElementKinds (π : Type) where
  Key : Type
  Value : Key → Type
  kind : (key : Key) → ElementKind π (Value key)
  counts : ElementKind π Nat
  apart : ∀ {key key' : Key}, key ≠ key' →
    ∀ items, (kind key).unpack? ((kind key').pack items) = none

variable {π ρ : Type} {K : ElementKinds π}

/-- A collective call of one rank. -/
inductive Call (K : ElementKinds π) where
  | gather (key : K.Key) (value : K.Value key)
  | negotiate (destinations : List Nat)
  | post (plan : Plan) (key : K.Key) (items : List (K.Value key))

/-- What a rank keeps to in talking to the others: a type of elements, an operation, the number of
items for each rank, and the number of items that it waits for from each rank. -/
structure Terms (π γ : Type) where
  kind : ElementKind π γ
  tag : Tag
  supplied : Nat → Nat
  expected : Nat → Nat

namespace Terms

variable {γ : Type}

def single (kind : ElementKind π γ) (tag : Tag) : Terms π γ := ⟨kind, tag, fun _ => 1, fun _ => 1⟩

def ofPlan (kind : ElementKind π γ) (plan : Plan) (items : List γ) : Terms π γ where
  kind := kind
  tag := .payload
  supplied dest := (plan.bucket dest items).length
  expected source := plan.incoming.getD source 0

/-- The items of a message, or what is wrong with it. -/
def accept (T : Terms π γ) (source : Nat) (m : Message π) : Except TransferFault (List γ) :=
  match m.unwrap T.kind source T.tag with
  | .error fault => .error fault
  | .ok items =>
    if items.length = T.expected source then .ok items
    else .error (.wrongCount source (T.expected source) items.length)

end Terms

namespace Call

def Result : Call K → Type
  | gather key _ => List (K.Value key)
  | negotiate _ => Plan
  | post _ key _ => List (K.Value key)

/-- The element type of a call; none if it announces numbers. -/
def key? : Call K → Option K.Key
  | gather key _ => some key
  | negotiate _ => none
  | post _ key _ => some key

def Element : Call K → Type
  | gather key _ => K.Value key
  | negotiate _ => Nat
  | post _ key _ => K.Value key

def terms : (c : Call K) → Terms π c.Element
  | gather key _ => .single (K.kind key) .gather
  | negotiate _ => .single K.counts .sizes
  | post plan key items => .ofPlan (K.kind key) plan items

def tag (c : Call K) : Tag := c.terms.tag

def exchange (seat : Seat) : (c : Call K) → Exchange π c.Result
  | gather key value => Exchange.gather (K.kind key) seat value
  | negotiate destinations => Plan.negotiate K.counts seat destinations
  | post plan key items => plan.post (K.kind key) items

end Call

/-- The calls of a rank, each of which may depend on what came of the ones before. -/
inductive Routine (K : ElementKinds π) (ρ : Type) where
  | stop (result : ρ)
  | depart (result : ρ)
  | call (c : Call K) (next : Except TransferFault c.Result → Routine K ρ)

def Routine.program (seat : Seat) : Routine K ρ → Program π ρ
  | stop result => .done result
  | depart result => .leave (.done result)
  | call c next => (c.exchange seat).run.bind fun outcome => (next outcome).program seat

/-- A call that a rank has begun: what it has sent and taken for it, and what came of it if it has
ended. -/
structure Visit (K : ElementKinds π) where
  call : Call K
  events : List (Event π)
  outcome : Option (Except TransferFault call.Result)

/-- The calls that a rank has begun, and what its program has come to. -/
inductive Conducted (seat : Seat) : Routine K ρ → List (Visit K) → Program π ρ → Prop where
  | stop (result : ρ) : Conducted seat (.stop result) [] (.done result)
  | depart (result : ρ) : Conducted seat (.depart result) [] (.leave (.done result))
  | departed (result : ρ) : Conducted seat (.depart result) [] (.done result)
  | within (c : Call K) (next : Except TransferFault c.Result → Routine K ρ)
      {events : List (Event π)} {p : Program π (Except TransferFault c.Result)}
      (h : (c.exchange seat).run.Comes events p) (hp : ∀ outcome, p ≠ .done outcome) :
      Conducted seat (.call c next) [⟨c, events, none⟩]
        (p.bind fun outcome => (next outcome).program seat)
  | after (c : Call K) (next : Except TransferFault c.Result → Routine K ρ)
      {events : List (Event π)} {outcome : Except TransferFault c.Result}
      {history : List (Visit K)} {p : Program π ρ}
      (h : (c.exchange seat).run.Comes events (.done outcome))
      (hrest : Conducted seat (next outcome) history p) :
      Conducted seat (.call c next) (⟨c, events, some outcome⟩ :: history) p

section

variable {seat : Seat}

theorem exists_conducted (seat : Seat) (r : Routine K ρ) : ∃ history,
    Conducted seat r history (r.program seat) ∧ history.flatMap (·.events) = [] := by
  induction r with
  | stop result => exact ⟨[], .stop result, rfl⟩
  | depart result => exact ⟨[], .depart result, rfl⟩
  | call c next ih =>
    by_cases hdone : ∃ outcome, (c.exchange seat).run = .done outcome
    · obtain ⟨outcome, hrun⟩ := hdone
      obtain ⟨history, hrest, hevents⟩ := ih outcome
      refine ⟨⟨c, [], some outcome⟩ :: history, ?_, hevents⟩
      rw [Routine.program, hrun]
      exact .after c next (hrun ▸ .refl) hrest
    · exact ⟨[⟨c, [], none⟩], .within c next .refl fun outcome h => hdone ⟨outcome, h⟩, rfl⟩

/-- With every turn the calls go on. -/
theorem Conducted.turn {r : Routine K ρ} {history : List (Visit K)} {p q : Program π ρ}
    {more : List (Event π)} (h : Conducted seat r history p) (hturn : p.Turns more q) :
    ∃ history', Conducted seat r history' q ∧
      history'.flatMap (·.events) = history.flatMap (·.events) ++ more := by
  induction h with
  | stop result => nomatch hturn
  | depart result =>
    cases hturn
    exact ⟨[], .departed result, rfl⟩
  | departed result => nomatch hturn
  | @within c next events p h hp =>
    obtain ⟨p', hown, rfl⟩ := hturn.of_bind hp
    by_cases hdone : ∃ outcome, p' = .done outcome
    · obtain ⟨outcome, rfl⟩ := hdone
      obtain ⟨history, hrest, hevents⟩ := exists_conducted seat (next outcome)
      refine ⟨⟨c, events ++ more, some outcome⟩ :: history, .after c next (h.turn hown) hrest, ?_⟩
      simp [hevents]
    · refine ⟨[⟨c, events ++ more, none⟩], .within c next (h.turn hown) fun outcome h =>
        hdone ⟨outcome, h⟩, ?_⟩
      simp
  | @after c next events outcome history p h _ ih =>
    obtain ⟨history', hrest, hevents⟩ := ih hturn
    refine ⟨⟨c, events, some outcome⟩ :: history', .after c next h hrest, ?_⟩
    rw [List.flatMap_cons, List.flatMap_cons, hevents, List.append_assoc]

theorem conducted_of_comes {r : Routine K ρ} {events : List (Event π)} {p : Program π ρ}
    (h : (r.program seat).Comes events p) :
    ∃ history, Conducted seat r history p ∧ history.flatMap (·.events) = events := by
  induction h with
  | refl => exact exists_conducted seat r
  | turn _ hturn ih =>
    obtain ⟨history, hconducted, rfl⟩ := ih
    exact hconducted.turn hturn

end

/-! ### Programs that keep to their terms -/

/-- A program that sends what its terms say, and fails with what it takes as soon as that is
something else. -/
inductive Obeys {β γ : Type} (T : Terms π γ) : Program π (Except TransferFault β) → Prop where
  | done (outcome : Except TransferFault β) : Obeys T (.done outcome)
  | gaveUp (cause : Abort) : Obeys T (.gaveUp cause)
  | leave {next : Program π (Except TransferFault β)} (h : Obeys T next) : Obeys T (.leave next)
  | send (dest : Nat) {items : List γ} (hsupplied : items.length = T.supplied dest)
      {next : Except TransferFault Unit → Program π (Except TransferFault β)}
      (h : ∀ outcome, Obeys T (next outcome)) :
      Obeys T (.send dest ⟨T.tag, T.kind.pack items⟩ next)
  | receive (source : Nat)
      {next : Except TransferFault (Message π) → Program π (Except TransferFault β)}
      (hfailed : ∀ cause, Obeys T (next (.error cause)))
      (hfits : ∀ m items, T.accept source m = .ok items → Obeys T (next (.ok m)))
      (hwrong : ∀ m fault, T.accept source m = .error fault →
        next (.ok m) = .done (.error fault)) : Obeys T (.receive source next)

section

variable {β γ δ : Type} {T : Terms π γ}

theorem Obeys.andThen {p : Program π (Except TransferFault β)} (h : Obeys T p)
    {k : Except TransferFault β → Program π (Except TransferFault δ)}
    (hok : ∀ a, Obeys T (k (.ok a))) (herror : ∀ e, k (.error e) = .done (.error e)) :
    Obeys T (p.bind k) := by
  induction h with
  | done outcome =>
    cases outcome with
    | ok a => exact hok a
    | error e =>
      rw [Program.bind, herror]
      exact .done _
  | gaveUp cause => exact .gaveUp cause
  | leave _ ih => exact .leave ih
  | send dest hsupplied _ ih => exact .send dest hsupplied ih
  | receive source _ _ hwrong ihfailed ihfits =>
    refine .receive source ihfailed ihfits fun m fault hm => ?_
    rw [hwrong m fault hm, Program.bind, herror]

theorem Obeys.bind {x : Exchange π β} {f : β → Exchange π δ} (hx : Obeys T x.run)
    (hf : ∀ a, Obeys T (f a).run) : Obeys T (x >>= f).run := by
  rw [run_bind]
  exact hx.andThen hf fun _ => rfl

theorem obeys_pure (a : β) : Obeys T (pure a : Exchange π β).run := .done _

theorem obeys_forM {l : List β} {f : β → Exchange π Unit} (h : ∀ a ∈ l, Obeys T (f a).run) :
    Obeys T (l.forM f).run := by
  induction l with
  | nil => exact .done _
  | cons a rest ih =>
    obtain ⟨ha, hrest⟩ := List.forall_mem_cons.mp h
    exact ha.bind fun _ => ih hrest

theorem obeys_mapM {l : List β} {f : β → Exchange π δ} (h : ∀ a ∈ l, Obeys T (f a).run) :
    Obeys T (l.mapM f).run := by
  induction l with
  | nil => exact .done _
  | cons a rest ih =>
    obtain ⟨ha, hrest⟩ := List.forall_mem_cons.mp h
    rw [List.mapM_cons]
    exact ha.bind fun _ => (ih hrest).bind fun _ => .done _

theorem obeys_send {dest : Nat} {items : List γ} (h : items.length = T.supplied dest) :
    Obeys T (Exchange.send T.kind dest T.tag items).run := .send dest h fun _ => .done _

theorem Terms.accept_of_fault {source : Nat} {m : Message π} {fault : TransferFault}
    (h : m.unwrap T.kind source T.tag = .error fault) : T.accept source m = .error fault := by
  rw [accept, h]

theorem Terms.accept_of_unwrap {source : Nat} {m : Message π} {items : List γ}
    (h : m.unwrap T.kind source T.tag = .ok items) : T.accept source m =
      if items.length = T.expected source then .ok items
      else .error (.wrongCount source (T.expected source) items.length) := by
  rw [accept, h]

theorem Terms.accept_eq_ok_iff {source : Nat} {m : Message π} {items : List γ} :
    T.accept source m = .ok items ↔
      m.unwrap T.kind source T.tag = .ok items ∧ items.length = T.expected source := by
  constructor
  · intro h
    rw [accept] at h
    split at h
    · cases h
    · split at h
      · cases h
        exact ⟨‹_›, ‹_›⟩
      · cases h
  · rintro ⟨hunwrap, hcount⟩
    rw [accept_of_unwrap hunwrap, if_pos hcount]

theorem run_receive_bind (kind : ElementKind π γ) (source : Nat) (tag : Tag)
    (f : List γ → Exchange π β) :
    (Exchange.receive kind source tag >>= f).run = .receive source fun
      | .error cause => .done (.error cause)
      | .ok m => match m.unwrap kind source tag with
        | .error fault => .done (.error fault)
        | .ok items => (f items).run := by
  rw [run_bind]
  refine congrArg (Program.receive source) (funext fun arrived => ?_)
  cases arrived with
  | error cause => rfl
  | ok m =>
    dsimp only [Except.bind, Program.bind]
    cases m.unwrap kind source tag <;> rfl

/-- To wait for items and then to look at their number keeps to the terms. -/
theorem obeys_receive {source : Nat} {f : List γ → Exchange π β}
    (hf : ∀ items, items.length = T.expected source → Obeys T (f items).run)
    (hcount : ∀ items, items.length ≠ T.expected source →
      (f items).run = .done (.error (.wrongCount source (T.expected source) items.length))) :
    Obeys T (Exchange.receive T.kind source T.tag >>= f).run := by
  rw [run_receive_bind]
  refine .receive source (fun _ => .done _) (fun m items hm => ?_) fun m fault hm => ?_
  · obtain ⟨hunwrap, hcount⟩ := Terms.accept_eq_ok_iff.mp hm
    dsimp only
    rw [hunwrap]
    exact hf items hcount
  · dsimp only
    cases hunwrap : m.unwrap T.kind source T.tag with
    | error found =>
      rw [← Except.error.inj ((Terms.accept_of_fault hunwrap).symm.trans hm)]
    | ok found =>
      rw [Terms.accept_of_unwrap hunwrap] at hm
      split at hm
      · nomatch hm
      · rw [← Except.error.inj hm]
        exact hcount found ‹_›

theorem obeys_receiveOne {source : Nat} (h : T.expected source = 1) :
    Obeys T (Exchange.receiveOne T.kind source T.tag).run := by
  refine obeys_receive (fun _ _ => .done _) fun items hcount => ?_
  rw [h] at hcount ⊢
  match items, hcount with
  | [], _ => rfl
  | [_], hcount => exact absurd rfl hcount
  | _ :: _ :: _, _ => rfl

theorem obeys_swap (kind : ElementKind π γ) (tag : Tag) (seat : Seat) (outgoing : Nat → γ) :
    Obeys (.single kind tag) (Exchange.swap kind tag seat outgoing).run := by
  refine (obeys_forM fun dest _ => obeys_send rfl).bind fun _ => obeys_mapM fun source _ => ?_
  split
  · exact obeys_pure _
  · exact obeys_receiveOne rfl

theorem obeys_negotiate (seat : Seat) (counts : ElementKind π Nat) (destinations : List Nat) :
    Obeys (.single counts .sizes) (Plan.negotiate counts seat destinations).run := by
  rw [Plan.negotiate]
  split
  · exact .done _
  · exact (obeys_swap counts .sizes seat _).bind fun _ => obeys_pure _

theorem obeys_ofCount (result : Except Abort β) :
    Obeys T (Exchange.ofCount result : Exchange π β).run := by
  cases result with
  | ok a => exact .done _
  | error cause => exact .leave (.gaveUp cause)

section

variable (kind : ElementKind π γ) (plan : Plan) (items : List γ)

theorem obeys_postTo (dest : Nat) :
    Obeys (.ofPlan kind plan items) (plan.postTo kind items dest).run := by
  rw [Plan.postTo]
  split
  · exact obeys_pure _
  · exact obeys_send rfl

theorem obeys_takeFrom {source expected : Nat} (h : plan.incoming[source]? = some expected) :
    Obeys (.ofPlan kind plan items) (Plan.takeFrom kind source expected).run := by
  have hexpected : (Terms.ofPlan kind plan items).expected source = expected := by
    change plan.incoming.getD source 0 = expected
    rw [List.getD_eq_getElem?_getD, h, Option.getD_some]
  rw [Plan.takeFrom]
  split
  · exact obeys_pure _
  · refine obeys_receive (fun found hcount => ?_) fun found hcount => ?_
    · rw [if_pos (hcount.trans hexpected)]
      exact obeys_pure _
    · rw [hexpected] at hcount ⊢
      rw [if_neg hcount]
      rfl

theorem obeys_post : Obeys (.ofPlan kind plan items) (plan.post kind items).run := by
  rw [Plan.post]
  split
  · exact .done _
  · refine (obeys_forM fun dest _ => obeys_postTo kind plan items dest).bind fun _ =>
      (obeys_ofCount _).bind fun _ => (obeys_mapM fun part hpart => ?_).bind fun _ => obeys_pure _
    obtain ⟨expected, source⟩ := part
    dsimp only
    split
    · exact obeys_pure _
    · exact obeys_takeFrom kind plan items (List.mk_mem_zipIdx_iff_getElem?.mp hpart)

end

/-- Whatever call it is, a rank keeps to its terms. -/
theorem Call.obeys (c : Call K) (seat : Seat) : Obeys c.terms (c.exchange seat).run := by
  cases c with
  | gather key value => exact obeys_swap (K.kind key) .gather seat _
  | negotiate destinations => exact obeys_negotiate seat _ _
  | post plan key items => exact obeys_post (K.kind key) plan items

/-- What has gone through by some actions of a program that keeps to its terms: it has sent what they
say, and of what it has taken all fits, unless it has just failed with it. -/
structure Kept (T : Terms π γ) (events : List (Event π)) (q : Program π (Except TransferFault β)) :
    Prop where
  obeys : Obeys T q
  sent : ∀ dest m, ⟨.sent, dest, m⟩ ∈ events →
    ∃ items, m = ⟨T.tag, T.kind.pack items⟩ ∧ items.length = T.supplied dest
  taken : ∀ source m, ⟨.taken, source, m⟩ ∈ events →
    (∃ items, T.accept source m = .ok items) ∨
      ∃ fault, T.accept source m = .error fault ∧ q = .done (.error fault)

theorem Obeys.kept {q : Program π (Except TransferFault β)} (h : Obeys T q) : Kept T [] q :=
  ⟨h, by simp, by simp⟩

theorem Obeys.turn {q r : Program π (Except TransferFault β)} {events : List (Event π)}
    (h : Obeys T q) (hturn : q.Turns events r) : Kept T events r := by
  cases hturn with
  | leave =>
    cases h with
    | leave h => exact h.kept
  | send dest message next =>
    cases h with
    | @send _ items hsupplied _ h =>
      refine ⟨h _, fun dest m he => ?_, by simp⟩
      obtain ⟨-, rfl, rfl⟩ := Event.mk.inj (List.mem_singleton.mp he)
      exact ⟨items, rfl, hsupplied⟩
  | sendFails dest message next cause =>
    cases h with
    | send _ _ h => exact (h _).kept
  | receive source next message =>
    cases h with
    | receive _ hfailed hfits hwrong =>
      cases haccept : T.accept source message with
      | ok items => exact ⟨hfits message items haccept, by simp, by simp [haccept]⟩
      | error fault =>
        rw [hwrong message fault haccept]
        exact ⟨.done _, by simp, by simp [haccept]⟩
  | receiveFails source next cause =>
    cases h with
    | receive _ hfailed _ _ => exact (hfailed cause).kept

theorem Obeys.comes {p q : Program π (Except TransferFault β)} {events : List (Event π)}
    (h : Obeys T p) (hc : p.Comes events q) : Kept T events q := by
  induction hc with
  | refl => exact h.kept
  | @turn events more q r _ hturn ih =>
    obtain ⟨hr, hsent, htaken⟩ := ih.obeys.turn hturn
    refine ⟨hr, fun dest m he => ?_, fun source m he => ?_⟩
    · rcases List.mem_append.mp he with he | he
      · exact ih.sent dest m he
      · exact hsent dest m he
    · rcases List.mem_append.mp he with he | he
      · -- A program that has failed has no turn.
        rcases ih.taken source m he with hfits | ⟨fault, -, rfl⟩
        · exact Or.inl hfits
        · nomatch hturn
      · exact htaken source m he

end

/-! ### Calls that meet -/

namespace Call

theorem unwrap_of_key {key key' : K.Key} (h : key ≠ key') (source : Nat) (tag : Tag)
    (items : List (K.Value key')) : Message.unwrap (K.kind key) source tag
      ⟨tag, (K.kind key').pack items⟩ = .error (.wrongKind source tag) := by
  rw [Message.unwrap, if_pos rfl, K.apart h]

section

variable {c c' : Call K} (source : Nat) (items : List c'.Element)

/-- What belongs to another operation is found out by its tag. -/
theorem accept_of_tag (h : c.tag ≠ c'.tag) : c.terms.accept source
    ⟨c'.tag, c'.terms.kind.pack items⟩ = .error (.wrongTag source c.tag c'.tag) := by
  exact Terms.accept_of_fault (if_neg (Ne.symm h))

/-- What belongs to the same operation but has elements of another type is found out as well. -/
theorem accept_of_key? (htag : c.tag = c'.tag) (hkey : c.key? ≠ c'.key?) : c.terms.accept source
    ⟨c'.tag, c'.terms.kind.pack items⟩ = .error (.wrongKind source c.tag) := by
  have hunwrap : Message.unwrap c.terms.kind source c.tag ⟨c'.tag, c'.terms.kind.pack items⟩ =
      .error (.wrongKind source c.tag) := by
    cases c with
    | gather key value =>
      cases c' with
      | gather key' _ => exact unwrap_of_key (fun h => hkey (congrArg some h)) source _ items
      | negotiate _ => exact absurd htag (show Tag.gather ≠ .sizes by decide)
      | post _ _ _ => exact absurd htag (show Tag.gather ≠ .payload by decide)
    | negotiate destinations =>
      cases c' with
      | gather _ _ => exact absurd htag (show Tag.sizes ≠ .gather by decide)
      | negotiate _ => exact absurd rfl hkey
      | post _ _ _ => exact absurd htag (show Tag.sizes ≠ .payload by decide)
    | post plan key posted =>
      cases c' with
      | gather _ _ => exact absurd htag (show Tag.payload ≠ .gather by decide)
      | negotiate _ => exact absurd htag (show Tag.payload ≠ .sizes by decide)
      | post _ key' _ => exact unwrap_of_key (fun h => hkey (congrArg some h)) source _ items
  exact Terms.accept_of_fault hunwrap

/-- What belongs to the same operation and has elements of the same type is read as items of the
call that takes it. -/
theorem unwrap_of_alike (htag : c.tag = c'.tag) (hkey : c.key? = c'.key?) :
    ∃ items' : List c.Element, items'.length = items.length ∧
      Message.unwrap c.terms.kind source c.tag ⟨c'.tag, c'.terms.kind.pack items⟩ = .ok items' := by
  cases c with
  | gather key value =>
    cases c' with
    | gather key' _ =>
      obtain rfl : key = key' := Option.some.inj hkey
      exact ⟨items, rfl, Exchange.unwrap_pack _ source _ items⟩
    | negotiate _ => nomatch hkey
    | post _ _ _ => exact absurd htag (show Tag.gather ≠ .payload by decide)
  | negotiate destinations =>
    cases c' with
    | gather _ _ => nomatch hkey
    | negotiate _ => exact ⟨items, rfl, Exchange.unwrap_pack _ source _ items⟩
    | post _ _ _ => nomatch hkey
  | post plan key posted =>
    cases c' with
    | gather _ _ => exact absurd htag (show Tag.payload ≠ .gather by decide)
    | negotiate _ => nomatch hkey
    | post _ key' _ =>
      obtain rfl : key = key' := Option.some.inj hkey
      exact ⟨items, rfl, Exchange.unwrap_pack _ source _ items⟩

end

end Call

namespace Visit

/-- What comes of it that a call takes the message `m`, which the rank `source` has sent to the rank
`dest` for another call. -/
structure Meets (source dest : Nat) (m : Message π) (v w : Visit K) : Prop where
  wrongTag : v.call.tag ≠ w.call.tag →
    v.outcome = some (.error (.wrongTag source v.call.tag w.call.tag))
  wrongKind : v.call.tag = w.call.tag → v.call.key? ≠ w.call.key? →
    v.outcome = some (.error (.wrongKind source v.call.tag))
  wrongCount : v.call.tag = w.call.tag → v.call.key? = w.call.key? →
    v.call.terms.expected source ≠ w.call.terms.supplied dest →
    v.outcome = some (.error (.wrongCount source (v.call.terms.expected source)
      (w.call.terms.supplied dest)))
  accepted : v.call.tag = w.call.tag → v.call.key? = w.call.key? →
    v.call.terms.expected source = w.call.terms.supplied dest →
    ∃ items, v.call.terms.accept source m = .ok items

/-- A call keeps to its terms, and has its outcome when it ends. -/
def Proper (v : Visit K) : Prop :=
  ∃ q : Program π (Except TransferFault v.call.Result),
    Kept v.call.terms v.events q ∧ ∀ outcome, q = .done outcome → v.outcome = some outcome

theorem Proper.meets {v w : Visit K} (hv : v.Proper) (hw : w.Proper) {source dest : Nat}
    {m : Message π} (htaken : ⟨.taken, source, m⟩ ∈ v.events)
    (hsent : ⟨.sent, dest, m⟩ ∈ w.events) : v.Meets source dest m w := by
  obtain ⟨q, hq, houtcome⟩ := hv
  obtain ⟨_, hown, -⟩ := hw
  obtain ⟨items, rfl, hsupplied⟩ := hown.sent dest m hsent
  have hfails : ∀ fault, v.call.terms.accept source
      ⟨w.call.tag, w.call.terms.kind.pack items⟩ = .error fault →
        v.outcome = some (.error fault) := by
    intro fault hfault
    rcases hq.taken source _ htaken with ⟨_, hfits⟩ | ⟨fault', hfault', hdone⟩
    · nomatch hfault.symm.trans hfits
    · obtain rfl := Except.error.inj (hfault.symm.trans hfault')
      exact houtcome _ hdone
  have halike : v.call.tag = w.call.tag → v.call.key? = w.call.key? →
      ∃ items', items'.length = w.call.terms.supplied dest ∧
        v.call.terms.accept source ⟨w.call.tag, w.call.terms.kind.pack items⟩ =
          if items'.length = v.call.terms.expected source then .ok items'
          else .error (.wrongCount source (v.call.terms.expected source) items'.length) := by
    intro htag hkey
    obtain ⟨items', hlength, hunwrap⟩ := Call.unwrap_of_alike source items htag hkey
    exact ⟨items', hlength.trans hsupplied, Terms.accept_of_unwrap hunwrap⟩
  constructor
  · intro htag
    exact hfails _ (Call.accept_of_tag source items htag)
  · intro htag hkey
    exact hfails _ (Call.accept_of_key? source items htag hkey)
  · intro htag hkey hcount
    obtain ⟨items', hlength, haccept⟩ := halike htag hkey
    rw [hlength, if_neg (Ne.symm hcount)] at haccept
    exact hfails _ haccept
  · intro htag hkey hcount
    obtain ⟨items', hlength, haccept⟩ := halike htag hkey
    exact ⟨items', haccept.trans (if_pos (hlength.trans hcount.symm))⟩

/-- The messages that have passed between a rank and another one in a direction, each with the call
of the first one that it was for. -/
def passed (w : Direction) (peer : Nat) (history : List (Visit K)) :
    List (Visit K × Message π) :=
  history.flatMap fun v => (Event.messages w peer v.events).map (v, ·)

theorem map_snd_passed (w : Direction) (peer : Nat) (history : List (Visit K)) :
    (passed w peer history).map (·.2) = Event.messages w peer (history.flatMap (·.events)) := by
  induction history with
  | nil => rfl
  | cons v rest ih =>
    rw [passed, List.flatMap_cons, List.map_append, List.flatMap_cons, Event.messages_append,
      ← ih, List.map_map]
    exact congrArg (· ++ _) (List.map_id _)

theorem mem_passed {w : Direction} {peer : Nat} {history : List (Visit K)} {v : Visit K}
    {m : Message π} (h : (v, m) ∈ passed w peer history) :
    v ∈ history ∧ ⟨w, peer, m⟩ ∈ v.events := by
  obtain ⟨v', hv', h⟩ := List.mem_flatMap.mp h
  obtain ⟨m', hm', heq⟩ := List.mem_map.mp h
  obtain ⟨rfl, rfl⟩ := Prod.mk.inj heq
  exact ⟨hv', Event.mem_messages.mp hm'⟩

end Visit

theorem Conducted.proper {seat : Seat} {r : Routine K ρ} {history : List (Visit K)}
    {p : Program π ρ} (h : Conducted seat r history p) : ∀ v ∈ history, v.Proper := by
  induction h with
  | stop _ => exact fun _ hv => nomatch hv
  | depart _ => exact fun _ hv => nomatch hv
  | departed _ => exact fun _ hv => nomatch hv
  | within c next h hp =>
    refine List.forall_mem_singleton.mpr ⟨_, (c.obeys seat).comes h, fun outcome hdone => ?_⟩
    exact absurd hdone (hp outcome)
  | after c next h _ ih =>
    refine List.forall_mem_cons.mpr ⟨⟨_, (c.obeys seat).comes h, fun outcome hdone => ?_⟩, ih⟩
    exact congrArg some (Program.done.inj hdone)

/-- Lists with the same values of which all that share one are related. -/
theorem forall₂_of_map_eq {β γ δ : Type} {R : β → γ → Prop} {f : β → δ} {g : γ → δ} {l : List β}
    {m : List γ} (h : l.map f = m.map g) (hR : ∀ a ∈ l, ∀ b ∈ m, f a = g b → R a b) :
    List.Forall₂ R l m := by
  induction l generalizing m with
  | nil =>
    obtain rfl := List.map_eq_nil_iff.mp h.symm
    exact .nil
  | cons a rest ih =>
    obtain ⟨b, more, rfl, hab, hrest⟩ := List.map_eq_cons_iff.mp h.symm
    refine .cons (hR a List.mem_cons_self b List.mem_cons_self hab.symm) (ih hrest.symm ?_)
    exact fun a' ha' b' hb' => hR a' (List.mem_cons_of_mem _ ha') b' (List.mem_cons_of_mem _ hb')

def Routine.group {n : Nat} (routines : Fin n → Routine K ρ) : Group n π ρ where
  programs := .ofFn fun i => (routines i).program ⟨n, i⟩
  mailboxes := .empty

theorem Routine.group_eq {n : Nat} (routines : Fin n → Routine K ρ) :
    group routines = Group.of (fun i => (routines i).program ⟨n, i⟩) .none :=
  (Group.of_none _).symm

/-- Whatever calls the ranks make, and in whatever order they act, every message that a call takes
is one that the other rank has sent for a call of its own, the oldest first. If that is a call of
another operation, of another element type or with another number of items, the call that takes the
message fails. -/
theorem mismatches_found_out {n : Nat} (routines : Fin n → Routine K ρ)
    {log : Fin n → List (Event π)} {g : Group n π ρ}
    (h : Group.Recorded (Routine.group routines) log g) :
    ∃ history : Fin n → List (Visit K),
      (∀ i, Conducted ⟨n, i⟩ (routines i) (history i) (g.programs.get i) ∧
        (history i).flatMap (·.events) = log i) ∧
      ∀ s d : Fin n, ∃ sent waiting, Visit.passed .sent d (history s) = sent ++ waiting ∧
        g.mailboxes.queue s d = waiting.map (·.2) ∧
        List.Forall₂ (fun a b => a.2 = b.2 ∧ a.1.Meets s d a.2 b.1)
          (Visit.passed .taken s (history d)) sent := by
  rw [Routine.group_eq] at h
  have hconducted : ∀ i, ∃ history, Conducted ⟨n, i⟩ (routines i) history (g.programs.get i) ∧
      history.flatMap (·.events) = log i := by
    intro i
    have hcomes := h.comes i
    rw [Group.programs_get_of] at hcomes
    exact conducted_of_comes hcomes
  choose history hhistory hevents using hconducted
  refine ⟨history, fun i => ⟨hhistory i, hevents i⟩, fun s d => ?_⟩
  have hfifo := h.fifo (fun s d => Queues.queue_toMailboxes Queues.none s d) s d
  rw [← hevents s, ← hevents d, ← Visit.map_snd_passed, ← Visit.map_snd_passed] at hfifo
  obtain ⟨sent, waiting, hsplit, hsent, hwaiting⟩ := List.map_eq_append_iff.mp hfifo
  refine ⟨sent, waiting, hsplit, hwaiting.symm, forall₂_of_map_eq hsent.symm ?_⟩
  rintro ⟨v, m⟩ hv ⟨w, m'⟩ hw rfl
  obtain ⟨hv, htaken⟩ := Visit.mem_passed hv
  obtain ⟨hw, hsent⟩ := Visit.mem_passed (hsplit ▸ List.mem_append_left waiting hw)
  exact ⟨rfl, ((hhistory d).proper v hv).meets ((hhistory s).proper w hw) htaken hsent⟩

def plainKinds (α : Type) : ElementKinds (Content α) where
  Key := PlainKind
  Value := PlainKind.Value
  kind := Content.ofPlain
  counts := Content.ofPlain .count
  apart h _ := dif_neg (Ne.symm h)

/-- Of two ranks the first one gathers numbers, and the second one leaves that out and agrees on a
plan. -/
def leavesOutGather (i : Fin 2) : Routine (plainKinds Nat) (Option TransferFault) :=
  if i.val = 0 then
    .call (.gather .count (10 : Nat)) fun
      | .ok _ => .stop none
      | .error fault => .stop (some fault)
  else
    .call (.negotiate []) fun
      | .ok _ => .stop none
      | .error fault => .stop (some fault)

theorem mismatches_found_out_leavesOutGather : ∃ log g,
    Group.Recorded (Routine.group leavesOutGather) log g ∧
    g.programs.get 0 = .done (some (.wrongTag 1 .gather .sizes)) ∧
    ∃ history : Fin 2 → List (Visit (plainKinds Nat)),
      (∀ i, Conducted ⟨2, i⟩ (leavesOutGather i) (history i) (g.programs.get i) ∧
        (history i).flatMap (·.events) = log i) ∧
      ∀ s d : Fin 2, ∃ sent waiting, Visit.passed .sent d (history s) = sent ++ waiting ∧
        g.mailboxes.queue s d = waiting.map (·.2) ∧
        List.Forall₂ (fun a b => a.2 = b.2 ∧ a.1.Meets s d a.2 b.1)
          (Visit.passed .taken s (history d)) sent := by
  have hrun : ∃ log g, Group.Recorded (Routine.group leavesOutGather) log g ∧
      g.programs.get 0 = .done (some (.wrongTag 1 .gather .sizes)) :=
    ⟨_, _, .act 0 (.act 1 (.act 0 .start rfl) rfl) rfl, rfl⟩
  obtain ⟨log, g, hrecorded, hfault⟩ := hrun
  exact ⟨log, g, hrecorded, hfault, mismatches_found_out leavesOutGather hrecorded⟩

/-- Of two ranks the first one gathers numbers twice, and the second one leaves out the first time.
-/
def gathersOnce (i : Fin 2) :
    Routine (plainKinds Nat) (List (Except TransferFault (List Nat))) :=
  if i.val = 0 then
    .call (.gather .count (10 : Nat)) fun first =>
      .call (.gather .count (20 : Nat)) fun second => .stop [first, second]
  else .call (.gather .count (21 : Nat)) fun second => .depart [second]

/-- That a rank has left out a call is not found out if it makes another one that is alike in
operation, element type and number of items: what it has for the second call is taken for the first
one. -/
theorem missing_gather_unnoticed : ∃ log g,
    Group.Recorded (Routine.group gathersOnce) log g ∧
    g.programs.get 0 = .done [.ok [10, 21], .error (.departed 1)] ∧
    g.programs.get 1 = .done [.ok [10, 21]] :=
  ⟨_, _, .act 0 (.act 0 (.act 1 (.act 1 (.act 1 (.act 0 .start rfl) rfl) rfl) rfl) rfl) rfl,
    rfl, rfl⟩

end SpatialSearch
