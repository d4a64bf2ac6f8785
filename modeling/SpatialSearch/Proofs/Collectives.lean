import Mathlib.Algebra.Ring.Nat
import Mathlib.Data.List.FinRange
import SpatialSearch.Group.Plan
import SpatialSearch.Proofs.InStep

/-!
# Collective operations

What a collective operation gives if every rank takes part in it. `Passes` says that programs of
all ranks go through stages of given operations to their results. Its laws follow how programs
are put together; of the operations only those have one in which all messages are of the expected
tags, kinds and lengths.

`Together` keeps of this that the programs can be run from empty queues to their results, with
the queues empty again, whatever the ranks do next. By `Together.alwaysEnds` every order of
actions then ends alike.
-/

namespace SpatialSearch

open SpatialSearch.Group

section

variable {n : Nat} {π ε ε' β γ : Type}

theorem run_bind (x : ExceptT ε (Program π) β) (f : β → ExceptT ε (Program π) γ) :
    (x >>= f).run = x.run.bind fun
      | .ok a => (f a).run
      | .error e => .done (.error e) := by
  change x.run.bind _ = x.run.bind _
  congr 1

theorem run_bind_bind {ρ : Type} (x : ExceptT ε (Program π) β)
    (f : β → ExceptT ε (Program π) γ) (next : Except ε γ → Program π ρ) :
    (x >>= f).run.bind next = x.run.bind fun
      | .ok a => (f a).run.bind next
      | .error e => next (.error e) := by
  rw [run_bind, Program.bind_assoc]
  congr 1
  funext outcome
  cases outcome <;> rfl

/-- Programs of all ranks go through stages of some operations and end with results. -/
def Passes {ρ : Type} (tags : List Tag) (p : Fin n → Program π ρ) (result : Fin n → ρ) : Prop :=
  ∃ stages : List (Stage n π), stages.map (·.tag) = tags ∧
    ∀ i, Program.Performs (Stage.course stages i) (p i) (.done (result i))

/-- Programs of all ranks can be run to results, from empty queues to empty queues and
whatever comes next. -/
def Together (p : Fin n → ExceptT ε (Program π) β) (result : Fin n → β) : Prop :=
  ∀ ⦃ρ : Type⦄ (next : Fin n → Except ε β → Program π ρ),
    Runs (fun i => (p i).run.bind (next i)) .none (fun i => next i (.ok (result i))) .none

namespace Passes

variable {tags more : List Tag}

theorem done {ρ : Type} (result : Fin n → ρ) :
    Passes (π := π) [] (fun i => .done (result i)) result :=
  ⟨[], rfl, fun _ => .nil _⟩

theorem of_stage {ρ : Type} (stage : Stage n π) {p : Fin n → Program π ρ} {result : Fin n → ρ}
    (h : ∀ i, Program.Performs (stage.events i) (p i) (.done (result i))) :
    Passes [stage.tag] p result := by
  refine ⟨[stage], rfl, fun i => ?_⟩
  rw [Stage.course, List.flatMap_singleton]
  exact h i

theorem andThen {ρ σ : Type} {p : Fin n → Program π ρ} {f : Fin n → ρ → Program π σ}
    {r : Fin n → ρ} {s : Fin n → σ} (hp : Passes tags p r)
    (hf : Passes more (fun i => f i (r i)) s) :
    Passes (tags ++ more) (fun i => (p i).bind (f i)) s := by
  obtain ⟨first, rfl, hp⟩ := hp
  obtain ⟨second, rfl, hf⟩ := hf
  refine ⟨first ++ second, List.map_append, fun i => ?_⟩
  rw [Stage.course_append]
  exact (hp i).andThen (hf i)

variable {p : Fin n → ExceptT ε (Program π) β} {result : Fin n → β}

theorem bind (hp : Passes tags (fun i => (p i).run) fun i => .ok (result i))
    {q : Fin n → β → ExceptT ε (Program π) γ} {outcome : Fin n → Except ε γ}
    (hq : Passes more (fun i => (q i (result i)).run) outcome) :
    Passes (tags ++ more) (fun i => (p i >>= q i).run) outcome := by
  simp only [run_bind]
  exact hp.andThen hq

theorem bind_bind {δ : Type} {q : Fin n → β → ExceptT ε (Program π) γ}
    {q' : Fin n → γ → ExceptT ε (Program π) δ} {result' : Fin n → γ} {outcome : Fin n → Except ε δ}
    (hp : Passes tags (fun i => (p i >>= q i).run) fun i => .ok (result' i))
    (hq : Passes more (fun i => (q' i (result' i)).run) outcome) :
    Passes (tags ++ more) (fun i => (p i >>= fun a => q i a >>= q' i).run) outcome := by
  simp only [← bind_assoc]
  exact hp.bind hq

/-- Programs of which every one fails do not go on. -/
theorem fails {fault : Fin n → ε} (hp : Passes tags (fun i => (p i).run) fun i => .error (fault i))
    (q : Fin n → β → ExceptT ε (Program π) γ) :
    Passes tags (fun i => (p i >>= q i).run) fun i => .error (fault i) := by
  have hall := hp.andThen (done fun i => (.error (fault i) : Except ε γ))
    (f := fun i outcome => match outcome with
      | .ok a => (q i a).run
      | .error e => .done (.error e))
  rw [List.append_nil] at hall
  simpa only [run_bind] using hall

theorem map (f : Fin n → β → γ) (hp : Passes tags (fun i => (p i).run) fun i => .ok (result i)) :
    Passes tags (fun i => (f i <$> p i).run) fun i => .ok (f i (result i)) := by
  have hmap := hp.bind (q := fun i a => Pure.pure (f i a))
    (done fun i => (.ok (f i (result i)) : Except ε γ))
  rw [List.append_nil] at hmap
  simpa only [bind_pure_comp] using hmap

theorem adapt (f : ε → ε') {outcome : Fin n → Except ε β}
    (hp : Passes tags (fun i => (p i).run) outcome) :
    Passes tags (fun i => ((p i).adapt f).run) fun i => (outcome i).mapError f := by
  have hall := hp.andThen (f := fun _ found => .done (found.mapError f))
    (done fun i => (outcome i).mapError f)
  rw [List.append_nil] at hall
  exact hall

theorem together (hp : Passes tags (fun i => (p i).run) fun i => .ok (result i)) :
    Together p result := by
  intro ρ next
  obtain ⟨stages, -, hp⟩ := hp
  exact (Aligned.start fun i => (hp i).bind (next i)).runs

end Passes

namespace Together

variable {p : Fin n → ExceptT ε (Program π) β} {result : Fin n → β}

theorem bind {q : Fin n → β → ExceptT ε (Program π) γ} {result' : Fin n → γ}
    (hp : Together p result) (hq : Together (fun i => q i (result i)) result') :
    Together (fun i => p i >>= q i) result' := by
  intro ρ next
  simp only [run_bind_bind]
  exact (hp _).trans (hq next)

/-- Every order of actions ends with the results. -/
theorem alwaysEnds (h : Together p result) {P : Group n π (Except ε β) → Prop}
    (hP : P (of (fun i => .done (.ok (result i))) .none)) :
    AlwaysEnds P ⟨.ofFn fun i => (p i).run, .empty⟩ := by
  obtain ⟨m, hpath⟩ := h (ρ := Except ε β) fun _ => .done
  rw [← of_none]
  simp only [Program.bind_done] at hpath
  exact hpath.alwaysEnds (fun _ => rfl) hP

end Together

end

theorem Seat.ranks_eq_map (seat : Seat) :
    seat.ranks = (List.finRange seat.size).map Fin.val := by
  simp [ranks]

theorem Seat.others_eq_map (seat : Seat) :
    seat.others = ((List.finRange seat.size).filter (· != seat.rank)).map Fin.val := by
  rw [others, ranks_eq_map, List.filter_map]
  congr 2
  funext d
  simp [bne, Fin.ext_iff]

namespace Exchange

variable {n : Nat} {π ρ β : Type}

/-- A program that sends a message to a rank, or does nothing if there is none to send. -/
def Posts (x : Exchange π Unit) (dest : Nat) : Option (Message π) → Prop
  | none => x = pure ()
  | some message => x = .mk (.send dest message .done)

/-- A program that takes a message from a rank, unless there is none to take, and ends with a
value. -/
def Takes (x : Exchange π β) (source : Nat) (value : β) : Option (Message π) → Prop
  | none => x = pure value
  | some message => ∃ next, x.run = .receive source next ∧
      next (.ok message) = .done (.ok value)

/-- Sending to one rank after the other. -/
theorem performs_forM {post : Fin n → Exchange π Unit} {letter : Fin n → Option (Message π)}
    {dests : List (Fin n)} (hpost : ∀ d ∈ dests, Posts (post d) d (letter d)) :
    Program.Performs (dests.flatMap fun d => (letter d).toList.map (⟨.sent, d, ·⟩))
      (dests.forM post).run (.done (.ok ())) := by
  induction dests with
  | nil => exact .nil _
  | cons d rest ih =>
    have hfirst : Program.Performs ((letter d).toList.map (⟨.sent, d.val, ·⟩)) (post d).run
        (.done (.ok ())) := by
      have hd := hpost d List.mem_cons_self
      cases hletter : letter d with
      | none =>
        rw [hletter] at hd
        rw [hd]
        exact .nil _
      | some message =>
        rw [hletter] at hd
        rw [hd]
        exact .send d message (.nil _)
    rw [List.forM, run_bind, List.flatMap_cons]
    exact hfirst.andThen (ih fun d hd => hpost d (List.mem_cons_of_mem _ hd))

/-- Taking from one rank after the other. -/
theorem performs_mapM {take : Fin n → Exchange π β} {value : Fin n → β}
    {letter : Fin n → Option (Message π)} {sources : List (Fin n)}
    (htake : ∀ s ∈ sources, Takes (take s) s (value s) (letter s)) :
    Program.Performs (sources.flatMap fun s => (letter s).toList.map (⟨.taken, s, ·⟩))
      (sources.mapM take).run (.done (.ok (sources.map value))) := by
  induction sources with
  | nil => exact .nil _
  | cons s rest ih =>
    have hfirst : Program.Performs ((letter s).toList.map (⟨.taken, s.val, ·⟩)) (take s).run
        (.done (.ok (value s))) := by
      have hs := htake s List.mem_cons_self
      cases hletter : letter s with
      | none =>
        rw [hletter] at hs
        rw [hs]
        exact .nil _
      | some message =>
        rw [hletter] at hs
        obtain ⟨next, hrun, hvalue⟩ := hs
        rw [hrun]
        exact .receive s message (hvalue ▸ .nil _)
    rw [List.mapM_cons, run_bind, List.flatMap_cons]
    refine hfirst.andThen ?_
    change Program.Performs _ (rest.mapM take >>= fun values => pure (value s :: values)).run _
    rw [run_bind]
    exact (ih fun s hs => htake s (List.mem_cons_of_mem _ hs)).bind _

/-- What all collective operations have in common: every rank sends its letters to all others,
and then takes what the others have for it. -/
theorem performs_of_letters (stage : Stage n π) {post : Fin n → Nat → Exchange π Unit}
    {take : Fin n → Fin n → Exchange π β} {value : Fin n → Fin n → β}
    (hpost : ∀ i d : Fin n, d ≠ i → Posts (post i d) d (stage.letter i d))
    (htake : ∀ i s : Fin n, s ≠ i → Takes (take i s) s (value i s) (stage.letter s i))
    (hown : ∀ i : Fin n, take i i = pure (value i i)) (i : Fin n) :
    Program.Performs (stage.events i) (ExceptT.run do
      Seat.others ⟨n, i⟩ |>.forM (post i)
      (List.finRange n).mapM (take i)) (.done (.ok (List.ofFn (value i)))) := by
  rw [run_bind, Stage.events]
  have hsent : Program.Performs (stage.half i .sent)
      ((Seat.others ⟨n, i⟩).forM (post i)).run (.done (.ok ())) := by
    rw [Seat.others_eq_map, List.forM_eq_forM, List.forM_map]
    exact performs_forM fun d hd => hpost i d (Stage.mem_others.mp hd)
  have htaken : Program.Performs (stage.half i .taken)
      ((List.finRange n).mapM (take i)).run (.done (.ok (List.ofFn (value i)))) := by
    have htakes : ∀ s ∈ List.finRange n, Takes (take i s) s (value i s)
        (if s != i then stage.letter s i else none) := by
      intro s _
      by_cases hsi : s = i
      · subst hsi
        rw [if_neg (by simp)]
        exact hown s
      · rw [if_pos (by simpa using hsi)]
        exact htake i s hsi
    have hall := performs_mapM htakes
    rw [Stage.half, Stage.others, flatMap_filter, List.ofFn_eq_map]
    refine cast (congrArg (Program.Performs · _ _) ?_) hall
    refine List.flatMap_congr fun s _ => ?_
    by_cases hsi : (s != i) = true
    · rw [if_pos hsi, if_pos hsi]
      rfl
    · rw [if_neg hsi, if_neg hsi]
      rfl
  exact hsent.andThen htaken

theorem unwrap_pack (kind : ElementKind π β) (peer : Nat) (tag : Tag) (items : List β) :
    Message.unwrap kind peer tag ⟨tag, kind.pack items⟩ = .ok items := by
  rw [Message.unwrap, if_pos rfl, kind.unpack?_pack]

theorem takes_receiveOne (kind : ElementKind π β) (source : Nat) (tag : Tag) (item : β) :
    Takes (receiveOne kind source tag) source item (some ⟨tag, kind.pack [item]⟩) := by
  refine ⟨_, rfl, ?_⟩
  change Program.bind (.done ((Except.ok _).bind _)) _ = _
  simp only [Except.bind, unwrap_pack]
  rfl

def swapStage (kind : ElementKind π β) (tag : Tag) (outgoing : Fin n → Nat → β) : Stage n π where
  tag := tag
  letter s d := some ⟨tag, kind.pack [outgoing s d]⟩
  tag_eq _ _ _ h := (Option.some.inj h) ▸ rfl
  complete _ _ _ := rfl

/-- Every rank gets the item that each rank has for it. -/
theorem performs_swap (kind : ElementKind π β) (tag : Tag) (outgoing : Fin n → Nat → β) :
    ∀ i : Fin n, Program.Performs ((swapStage kind tag outgoing).events i)
      (swap kind tag ⟨n, i⟩ (outgoing i)).run
      (.done (.ok (List.ofFn fun s => outgoing s i))) := by
  simp only [swap, Seat.ranks_eq_map, List.mapM_map]
  refine performs_of_letters (swapStage kind tag outgoing) ?_ ?_ ?_
  · intro i d _
    rfl
  · intro i s hsi
    rw [Function.comp_apply, if_neg fun h => hsi (Fin.ext h)]
    exact takes_receiveOne kind s tag (outgoing s i)
  · intro i
    rw [Function.comp_apply, if_pos rfl]

theorem passes_swap (kind : ElementKind π β) (tag : Tag) (outgoing : Fin n → Nat → β) :
    Passes [tag] (fun i => (swap kind tag ⟨n, i⟩ (outgoing i)).run)
      fun i => .ok (List.ofFn fun s => outgoing s i) :=
  .of_stage (swapStage kind tag outgoing) (performs_swap kind tag outgoing)

/-- Every rank gets the values of all ranks. -/
theorem passes_gather (kind : ElementKind π β) (value : Fin n → β) :
    Passes [.gather] (fun i => (gather kind ⟨n, i⟩ (value i)).run)
      fun _ => .ok (List.ofFn value) :=
  passes_swap kind .gather fun i _ => value i

end Exchange

namespace Plan

variable {n : Nat} {π β : Type}

def joint (destinations : Fin n → List Nat) (i : Fin n) : Plan where
  seat := ⟨n, i⟩
  destinations := destinations i
  outgoing := (Seat.ranks ⟨n, i⟩).map fun dest => (destinations i).count dest
  incoming := List.ofFn fun s => (destinations s).count i.val

/-- What comes to a rank of the items that all ranks send, each with the rank it comes from. -/
def arrivals (parcels : Fin n → List (Nat × β)) (i : Fin n) : List (Nat × β) :=
  (List.finRange n).flatMap fun s =>
    ((parcels s).filter (·.1 == i.val)).map fun parcel => (s.val, parcel.2)

theorem passes_negotiate (counts : ElementKind π Nat) {destinations : Fin n → List Nat}
    (h : ∀ i, ∀ dest ∈ destinations i, dest < n) :
    Passes [.sizes] (fun i => (negotiate counts ⟨n, i⟩ (destinations i)).run)
      fun i => .ok (joint destinations i) := by
  have hfind : ∀ i, (destinations i).find? (n ≤ ·) = none := by
    intro i
    simpa using h i
  simp only [negotiate, hfind]
  exact (Exchange.passes_swap counts .sizes _).bind (Passes.done _)

variable (parcels : Fin n → List (Nat × β))

theorem bucket_joint (i : Fin n) (dest : Nat) :
    (joint (fun s => (parcels s).map (·.1)) i).bucket dest ((parcels i).map (·.2)) =
      ((parcels i).filter (·.1 == dest)).map (·.2) := by
  rw [bucket, joint, List.zip_map', List.filter_map, List.map_map]
  rfl

theorem count_eq_length_bucket (s : Fin n) (dest : Nat) :
    ((parcels s).map (·.1)).count dest =
      (((parcels s).filter (·.1 == dest)).map (·.2)).length := by
  rw [List.count_eq_length_filter, List.filter_map, List.length_map, List.length_map]
  rfl

theorem zipIdx_ofFn (f : Fin n → β) :
    (List.ofFn f).zipIdx = (List.finRange n).map fun s => (f s, s.val) := by
  refine List.ext_getElem (by simp) fun m _ _ => ?_
  simp

theorem sources_joint (i : Fin n) :
    (joint (fun s => (parcels s).map (·.1)) i).sources = (arrivals parcels i).map (·.1) := by
  rw [sources, joint, zipIdx_ofFn, List.flatMap_map, arrivals, List.map_flatMap]
  refine List.flatMap_congr fun s _ => ?_
  rw [count_eq_length_bucket, List.map_map, List.length_map]
  exact (List.map_const ..).symm

theorem sum_incoming_joint (i : Fin n) :
    (joint (fun s => (parcels s).map (·.1)) i).incoming.sum = (arrivals parcels i).length := by
  rw [joint, arrivals, List.length_flatMap, List.ofFn_eq_map]
  congr 1
  refine List.map_congr_left fun s _ => ?_
  rw [count_eq_length_bucket, List.length_map, List.length_map]

theorem receiveTotal_joint {i : Fin n} (h : (arrivals parcels i).length < Count.room) :
    (joint (fun s => (parcels s).map (·.1)) i).receiveTotal = .ok (arrivals parcels i).length := by
  refine Count.sum_eq_ok_iff.mpr ⟨?_, Nat.lt_trans h (by decide)⟩
  rw [← sum_incoming_joint, List.sum_eq_foldl_nat]

theorem makeRoom_joint {i : Fin n} (h : (arrivals parcels i).length < Count.room) :
    (joint (fun s => (parcels s).map (·.1)) i).makeRoom = .ok (arrivals parcels i).length := by
  rw [makeRoom, receiveTotal_joint parcels h]
  change (Count.reserve _).bind _ = _
  rw [Count.reserve, if_pos h]
  rfl

def letter (kind : ElementKind π β) (items : List β) : Option (Message π) :=
  if items.isEmpty then none else some ⟨.payload, kind.pack items⟩

theorem posts_postTo (plan : Plan) (kind : ElementKind π β) (items : List β) (dest : Nat) :
    Exchange.Posts (plan.postTo kind items dest) dest
      (letter kind (plan.bucket dest items)) := by
  rw [postTo, letter]
  by_cases hempty : (plan.bucket dest items).isEmpty
  · rw [if_pos hempty, if_pos hempty]
    rfl
  · rw [if_neg hempty, if_neg hempty]
    rfl

theorem takes_takeFrom (kind : ElementKind π β) (source : Nat) (items : List β) :
    Exchange.Takes (takeFrom kind source items.length) source items (letter kind items) := by
  rw [takeFrom, letter]
  by_cases hempty : items = []
  · subst hempty
    rfl
  · rw [if_neg (mt List.length_eq_zero_iff.mp hempty), if_neg (mt List.isEmpty_iff.mp hempty)]
    refine ⟨_, rfl, ?_⟩
    change Program.bind (.done ((Except.ok _).bind _)) _ = _
    simp only [Except.bind, Exchange.unwrap_pack]
    change ExceptT.run (if _ then _ else _) = _
    rw [if_pos rfl]
    rfl

def postStage (kind : ElementKind π β) (parcels : Fin n → List (Nat × β)) : Stage n π where
  tag := .payload
  letter s d := letter kind (((parcels s).filter (·.1 == d.val)).map (·.2))
  tag_eq s d m h := by
    rw [letter] at h
    split at h
    · nomatch h
    · exact (Option.some.inj h) ▸ rfl
  complete h := absurd rfl h

/-- Every rank gets the items that all ranks have for it. -/
theorem passes_post (kind : ElementKind π β)
    (hroom : ∀ i, (arrivals parcels i).length < Count.room) :
    Passes [.payload]
      (fun i => ((joint (fun s => (parcels s).map (·.1)) i).post kind
        ((parcels i).map (·.2))).run)
      fun i => .ok ((arrivals parcels i).map (·.2)) := by
  let plan : Fin n → Plan := joint fun s => (parcels s).map (·.1)
  let bucket : Fin n → Nat → List β := fun s d => ((parcels s).filter (·.1 == d)).map (·.2)
  let take : Fin n → Fin n → Exchange π (List β) := fun i s =>
    if s = i then pure (bucket i s) else takeFrom kind s (bucket s i).length
  have hletters : Passes [.payload] (fun i => ExceptT.run do
      Seat.others ⟨n, i⟩ |>.forM ((plan i).postTo kind ((parcels i).map (·.2)))
      (List.finRange n).mapM (take i)) fun i => .ok (List.ofFn fun s => bucket s i) := by
    refine .of_stage (postStage kind parcels) (Exchange.performs_of_letters _ ?_ ?_ ?_)
    · intro i d _
      have := posts_postTo (plan i) kind ((parcels i).map (·.2)) d
      rwa [bucket_joint] at this
    · intro i s hsi
      simp only [take, if_neg hsi]
      exact takes_takeFrom kind s (bucket s i)
    · intro i
      exact if_pos rfl
  have hpost : ∀ i, (plan i).post kind ((parcels i).map (·.2)) = List.flatten <$> (do
      Seat.others ⟨n, i⟩ |>.forM ((plan i).postTo kind ((parcels i).map (·.2)))
      (List.finRange n).mapM (take i)) := by
    intro i
    have htake : (fun s : Fin n => if s.val = i.val then
          pure ((plan i).bucket s.val ((parcels i).map (·.2)))
        else takeFrom kind s (((parcels s).map (·.1)).count i.val)) = take i := by
      funext s
      simp only [take, bucket, plan, bucket_joint, count_eq_length_bucket, Fin.ext_iff]
    have hincoming : (plan i).incoming.zipIdx =
        (List.finRange n).map fun s => (((parcels s).map (·.1)).count i.val, s.val) :=
      zipIdx_ofFn _
    have hlengths : ((parcels i).map (·.2)).length = (plan i).destinations.length := by
      simp [plan, joint]
    rw [post, if_neg (not_not.mpr hlengths), makeRoom_joint parcels (hroom i), hincoming,
      List.mapM_map, Exchange.ofCount, pure_bind, map_bind, bind_pure_comp,
      ← htake]
    rfl
  have hresult : ∀ i, (arrivals parcels i).map (·.2) = (List.ofFn fun s => bucket s i).flatten := by
    intro i
    rw [arrivals, List.map_flatMap, List.flatMap_def, List.ofFn_eq_map]
    congr 2
    funext s
    rw [List.map_map]
    rfl
  simp only [hresult]
  change Passes _ (fun i => ((plan i).post kind ((parcels i).map (·.2))).run) _
  simp only [hpost]
  exact hletters.map fun _ => List.flatten

end Plan

end SpatialSearch
