import Mathlib.Logic.Function.Basic
import SpatialSearch.Group.Run

/-!
# Runs end alike in every order

Ranks that stay in their group act on programs of their own and on queues of which each has
one sender and one receiver, so actions of different ranks commute. If one run ends with a
result on every rank, then every run ends, after as many actions and in the same group.

Ranks that leave are outside this law: whether a rank is still there can depend on the
order of actions.
-/

namespace SpatialSearch

/-- The messages under way between every two ranks, the oldest first. -/
abbrev Queues (n : Nat) (π : Type) := Fin n → Fin n → List (Message π)

namespace Queues

variable {n : Nat} {π : Type}

def none : Queues n π := fun _ _ => []

def put (f : Queues n π) (source dest : Fin n) (q : List (Message π)) : Queues n π :=
  fun s d => if s = source ∧ d = dest then q else f s d

theorem put_comm {f : Queues n π} {s d s' d' : Fin n} (h : ¬ (s = s' ∧ d = d'))
    (q q' : List (Message π)) : (f.put s d q).put s' d' q' = (f.put s' d' q').put s d q := by
  funext a b
  simp only [put]
  grind

theorem put_of_ne {f : Queues n π} {s d s' d' : Fin n} (h : ¬ (s' = s ∧ d' = d))
    (q : List (Message π)) : f.put s d q s' d' = f s' d' := if_neg h

@[simp] theorem put_same (f : Queues n π) (s d : Fin n) (q : List (Message π)) :
    f.put s d q s d = q := if_pos ⟨rfl, rfl⟩

theorem put_put (f : Queues n π) (s d : Fin n) (q q' : List (Message π)) :
    (f.put s d q).put s d q' = f.put s d q' := by
  funext a b
  simp only [put]
  grind

/-- The queues between different ranks, beside what every rank has sent to itself. -/
def beside (f : Queues n π) (own : Fin n → List (Message π)) : Queues n π :=
  fun s d => if s = d then own s else f s d

theorem beside_of_ne (f : Queues n π) (own : Fin n → List (Message π)) {s d : Fin n} (h : s ≠ d) :
    f.beside own s d = f s d := if_neg h

theorem beside_put (f : Queues n π) (own : Fin n → List (Message π)) {s d : Fin n} (h : s ≠ d)
    (q : List (Message π)) : (f.put s d q).beside own = (f.beside own).put s d q := by
  funext a b
  simp only [beside, put]
  grind

/-- All queues are those between different ranks and those to the ranks themselves. -/
theorem beside_self (f : Queues n π) : (f.beside fun s => f s s) = f := by
  funext s d
  by_cases hsd : s = d
  · subst hsd
    exact if_pos rfl
  · exact if_neg hsd

def toMailboxes (f : Queues n π) : Mailboxes n π :=
  ⟨.ofFn fun s => .ofFn (f s), .replicate n true⟩

@[simp] theorem queue_toMailboxes (f : Queues n π) (s d : Fin n) :
    f.toMailboxes.queue s d = f s d := by
  change f.toMailboxes.queues[s.val][d.val] = f s d
  simp [toMailboxes]

@[simp] theorem present_toMailboxes (f : Queues n π) (s : Fin n) :
    f.toMailboxes.present.get s = true := by
  change f.toMailboxes.present[s.val] = true
  simp [toMailboxes]

theorem setQueue_toMailboxes (f : Queues n π) (s d : Fin n) (q : List (Message π)) :
    f.toMailboxes.setQueue s d q = (f.put s d q).toMailboxes := by
  have hqueues : (f.toMailboxes.setQueue s d q).queues = (f.put s d q).toMailboxes.queues := by
    have hrow : f.toMailboxes.queues.get s = Vector.ofFn (f s) := by
      change f.toMailboxes.queues[s.val] = _
      simp [toMailboxes]
    have hset : (f.toMailboxes.setQueue s d q).queues =
        (Vector.ofFn fun s => Vector.ofFn (f s)).set s.val
          ((Vector.ofFn (f s)).set d.val q d.isLt) s.isLt := by
      rw [← hrow]
      rfl
    rw [hset]
    refine Vector.ext fun a ha => Vector.ext fun b hb => ?_
    by_cases has : s.val = a
    · subst has
      simp only [toMailboxes, put, Vector.getElem_set_self, Vector.getElem_set,
        Vector.getElem_ofFn, Fin.ext_iff, true_and]
      by_cases hbd : d.val = b
      · rw [if_pos hbd, if_pos hbd.symm]
      · rw [if_neg hbd, if_neg (Ne.symm hbd)]
    · rw [Vector.getElem_set_ne _ _ has]
      simp [toMailboxes, put, Fin.ext_iff, Ne.symm has]
  exact congrArg (Mailboxes.mk · (f.put s d q).toMailboxes.present) hqueues

theorem send_toMailboxes (f : Queues n π) (s d : Fin n) (m : Message π) :
    f.toMailboxes.send s d m = .ok (f.put s d (f s d ++ [m])).toMailboxes := by
  rw [Mailboxes.send, dif_pos d.isLt, if_pos (present_toMailboxes f d), queue_toMailboxes,
    setQueue_toMailboxes]

theorem receive_toMailboxes {f : Queues n π} {s d : Fin n} {m : Message π}
    {rest : List (Message π)} (h : f s d = m :: rest) :
    f.toMailboxes.receive d s = .delivered m (f.put s d rest).toMailboxes := by
  rw [Mailboxes.receive, dif_pos s.isLt, queue_toMailboxes]
  simp only [Fin.eta, h, setQueue_toMailboxes]

theorem receive_toMailboxes_nil {f : Queues n π} {s d : Fin n} (h : f s d = []) :
    f.toMailboxes.receive d s = .awaited := by
  rw [Mailboxes.receive, dif_pos s.isLt, queue_toMailboxes]
  simp [h]

theorem toMailboxes_none : (none : Queues n π).toMailboxes = .empty := by
  have hqueues : (none : Queues n π).toMailboxes.queues =
      (Mailboxes.empty : Mailboxes n π).queues := by
    ext a ha b hb
    simp [toMailboxes, none, Mailboxes.empty]
  exact congrArg (Mailboxes.mk · (none : Queues n π).toMailboxes.present) hqueues

end Queues

namespace Group

variable {n : Nat} {π ρ : Type}

/-- An action of a rank that stays in its group: what it does to the program of the rank and
to the queues. -/
inductive Acts (i : Fin n) : Program π ρ → Queues n π → Program π ρ → Queues n π → Prop where
  | send (dest : Fin n) (message : Message π) (next : Except TransferFault Unit → Program π ρ)
      (f : Queues n π) : Acts i (.send dest message next) f (next (.ok ()))
        (f.put i dest (f i dest ++ [message]))
  | receive (source : Fin n) (next : Except TransferFault (Message π) → Program π ρ)
      {f : Queues n π} {message : Message π} {rest : List (Message π)}
      (h : f source i = message :: rest) : Acts i (.receive source next) f (next (.ok message))
        (f.put source i rest)

theorem Acts.unique {i : Fin n} {p p₁ p₂ : Program π ρ} {f f₁ f₂ : Queues n π}
    (h₁ : Acts i p f p₁ f₁) (h₂ : Acts i p f p₂ f₂) : p₁ = p₂ ∧ f₁ = f₂ := by
  cases h₁ with
  | send dest message next =>
    generalize hdest : dest.val = d at h₂
    cases h₂ with
    | send dest' =>
      obtain rfl := Fin.ext hdest
      exact ⟨rfl, rfl⟩
  | receive source next h =>
    generalize hsource : source.val = s at h₂
    cases h₂ with
    | receive source' _ h' =>
      obtain rfl := Fin.ext hsource
      obtain ⟨rfl, rfl⟩ := List.cons.inj (h.symm.trans h')
      exact ⟨rfl, rfl⟩

/-- An action that has to do with other ranks leaves alone what the rank has sent to itself. -/
theorem Acts.beside {i : Fin n} {p next : Program π ρ} {f f' : Queues n π} (h : Acts i p f next f')
    (hsend : ∀ message after, p ≠ .send i message after)
    (hreceive : ∀ after, p ≠ .receive i after) (own : Fin n → List (Message π)) :
    Acts i p (f.beside own) next (f'.beside own) := by
  cases h with
  | send dest message next =>
    have hne : i ≠ dest := by
      rintro rfl
      exact hsend message next rfl
    have hbeside := Acts.send (i := i) dest message next (f.beside own)
    rwa [Queues.beside_of_ne f own hne, ← Queues.beside_put f own hne] at hbeside
  | receive source next h =>
    have hne : source ≠ i := by
      rintro rfl
      exact hreceive next rfl
    rw [Queues.beside_put f own hne]
    exact .receive source next ((Queues.beside_of_ne f own hne).trans h)

/-- A message can be sent before or after another rank takes one. -/
theorem send_receive_comm {i j : Fin n} (hij : i ≠ j) (f : Queues n π) (dest source : Fin n)
    (message : Message π) {taken : Message π} {rest : List (Message π)}
    (h : f source j = taken :: rest) :
    ∃ rest', f.put i dest (f i dest ++ [message]) source j = taken :: rest' ∧
      (f.put i dest (f i dest ++ [message])).put source j rest' =
        (f.put source j rest).put i dest (f.put source j rest i dest ++ [message]) := by
  by_cases hsame : i = source ∧ dest = j
  · obtain ⟨rfl, rfl⟩ := hsame
    exact ⟨rest ++ [message], by simp [h], by simp [Queues.put_put]⟩
  · refine ⟨rest, ?_, ?_⟩
    · rw [Queues.put_of_ne (fun hs => hsame ⟨hs.1.symm, hs.2.symm⟩), h]
    · rw [Queues.put_comm hsame, Queues.put_of_ne hsame]

/-- Actions of two ranks commute. -/
theorem Acts.diamond {i j : Fin n} (hij : i ≠ j) {p p' q q' : Program π ρ}
    {f f₁ f₂ : Queues n π} (hi : Acts i p f p' f₁) (hj : Acts j q f q' f₂) :
    ∃ g, Acts j q f₁ q' g ∧ Acts i p f₂ p' g := by
  cases hi with
  | send dest message next =>
    cases hj with
    | send dest' message' next' =>
      have hne : ¬ (i = j ∧ dest = dest') := fun h => hij h.1
      refine ⟨_, .send dest' message' next' _, ?_⟩
      rw [Queues.put_of_ne (fun h => hij h.1.symm), Queues.put_comm hne]
      have := Acts.send (i := i) dest message next (f.put j dest' (f j dest' ++ [message']))
      rwa [Queues.put_of_ne hne] at this
    | receive source next' h =>
      obtain ⟨rest', hfirst, hcomm⟩ := send_receive_comm hij f dest source message h
      exact ⟨_, .receive source next' hfirst, hcomm ▸ .send dest message next _⟩
  | @receive source next _ _ taken h =>
    cases hj with
    | send dest' message' next' =>
      obtain ⟨rest', hfirst, hcomm⟩ := send_receive_comm hij.symm f dest' source message' h
      exact ⟨_, .send dest' message' next' _, hcomm ▸ .receive source next hfirst⟩
    | receive source' next' h' =>
      have hne : ¬ (source = source' ∧ i = j) := fun h => hij h.2
      have hj : f.put source i taken source' j = _ :=
        (Queues.put_of_ne (fun h => hij h.2.symm) _).trans h'
      refine ⟨_, .receive source' next' hj, ?_⟩
      rw [Queues.put_comm hne]
      exact .receive source next ((Queues.put_of_ne (fun h => hij h.2) _).trans h)

/-- Some number of actions of ranks that stay in their group. -/
inductive Path : Nat → (Fin n → Program π ρ) → Queues n π → (Fin n → Program π ρ) →
    Queues n π → Prop where
  | nil (p : Fin n → Program π ρ) (f : Queues n π) : Path 0 p f p f
  | cons {m : Nat} (i : Fin n) {p q : Fin n → Program π ρ} {f f' g : Queues n π}
      {next : Program π ρ} (h : Acts i (p i) f next f')
      (rest : Path m (Function.update p i next) f' q g) : Path (m + 1) p f q g

/-- A rank that does not stay as it is has an action on the path. -/
theorem Path.acts {m : Nat} {p q : Fin n → Program π ρ} {f g : Queues n π}
    (h : Path m p f q g) {j : Fin n} (hj : p j ≠ q j) :
    ∃ f₁ next f₂, Acts j (p j) f₁ next f₂ := by
  induction h with
  | nil => exact absurd rfl hj
  | cons i h rest ih =>
    by_cases hij : j = i
    · subst hij
      exact ⟨_, _, _, h⟩
    · rw [Function.update_of_ne hij] at ih
      exact ih hj

/-- An action of a rank that ends on a path can come first. -/
theorem Path.after {m : Nat} {p q : Fin n → Program π ρ} {f g : Queues n π}
    (h : Path m p f q g) {j : Fin n} {result : ρ} (hdone : q j = .done result)
    {next : Program π ρ} {f' : Queues n π} (hj : Acts j (p j) f next f') :
    ∃ m', m = m' + 1 ∧ Path m' (Function.update p j next) f' q g := by
  induction h generalizing f' with
  | nil p f =>
    rw [hdone] at hj
    nomatch hj
  | @cons m i p q f f₁ g p₁ h rest ih =>
    by_cases hij : i = j
    · subst hij
      obtain ⟨rfl, rfl⟩ := h.unique hj
      exact ⟨m, rfl, rest⟩
    · obtain ⟨f₂, hj', hi'⟩ := Acts.diamond hij h hj
      rw [← Function.update_of_ne (Ne.symm hij) p₁ p] at hj'
      obtain ⟨m', rfl, hpath⟩ := ih hdone hj'
      refine ⟨m' + 1, rfl, .cons i ?_ (Function.update_comm hij _ _ p ▸ hpath)⟩
      rwa [Function.update_of_ne hij]

/-- The group of some programs and the messages under way, with all ranks there. -/
def of (p : Fin n → Program π ρ) (f : Queues n π) : Group n π ρ := ⟨.ofFn p, f.toMailboxes⟩

theorem of_none (p : Fin n → Program π ρ) : of p .none = ⟨.ofFn p, .empty⟩ := by
  rw [of, Queues.toMailboxes_none]

@[simp] theorem programs_get_of (p : Fin n → Program π ρ) (f : Queues n π) (i : Fin n) :
    (of p f).programs.get i = p i := by
  change (of p f).programs[i.val] = p i
  simp [of]

theorem proceed_of (p : Fin n → Program π ρ) (f g : Queues n π) (i : Fin n)
    (next : Program π ρ) :
    (of p f).proceed i next g.toMailboxes = of (Function.update p i next) g := by
  have hprograms : (Vector.ofFn p).set i.val next i.isLt = .ofFn (Function.update p i next) := by
    refine Vector.ext fun a ha => ?_
    rw [Vector.getElem_set, Vector.getElem_ofFn, Vector.getElem_ofFn, Function.update_apply]
    by_cases hia : i.val = a
    · rw [if_pos hia, if_pos (Fin.ext hia.symm)]
    · rw [if_neg hia, if_neg fun h => hia (congrArg Fin.val h).symm]
  exact congrArg (Group.mk · g.toMailboxes) hprograms

theorem Acts.act {i : Fin n} {p : Fin n → Program π ρ} {f f' : Queues n π}
    {next : Program π ρ} (h : Acts i (p i) f next f') :
    (of p f).act i = some (of (Function.update p i next) f') := by
  generalize hp : p i = before at h
  rw [Group.act, programs_get_of, hp]
  cases h with
  | send dest message next =>
    have hsend : (of p f).mailboxes.send i dest message = _ := f.send_toMailboxes i dest message
    simp only [hsend, proceed_of]
  | receive source next h =>
    have hreceive : (of p f).mailboxes.receive i source = _ := Queues.receive_toMailboxes h
    simp only [hreceive, proceed_of]

/-- A rank that would act with other queues, if it acts at all, stays in its group. -/
theorem acts_of_act {i : Fin n} {p : Fin n → Program π ρ} {f : Queues n π}
    {after : Group n π ρ} (h : (of p f).act i = some after)
    {f₁ f₂ : Queues n π} {next₁ : Program π ρ} (hacts : Acts i (p i) f₁ next₁ f₂) :
    ∃ next f', Acts i (p i) f next f' ∧ after = of (Function.update p i next) f' := by
  have hnext : ∃ next f', Acts i (p i) f next f' := by
    generalize hp : p i = before at hacts ⊢
    cases hacts with
    | send dest message next => exact ⟨_, _, .send dest message next f⟩
    | receive source next _ =>
      cases hqueue : f source i with
      | cons message rest => exact ⟨_, _, .receive source next hqueue⟩
      | nil =>
        have hawaited : (of p f).mailboxes.receive i source = .awaited :=
          Queues.receive_toMailboxes_nil hqueue
        rw [Group.act, programs_get_of, hp] at h
        simp [hawaited] at h
  obtain ⟨next, f', hstep⟩ := hnext
  exact ⟨next, f', hstep, Option.some.inj (h.symm.trans hstep.act)⟩

/-- Whatever the order of the actions, the run comes to an end, and then the group has a
property. -/
inductive AlwaysEnds (P : Group n π ρ → Prop) : Group n π ρ → Prop where
  | ended {g : Group n π ρ} (hend : ∀ after, ¬ Step g after) (h : P g) : AlwaysEnds P g
  | goes {g : Group n π ρ} (hstep : ∃ after, Step g after)
      (h : ∀ after, Step g after → AlwaysEnds P after) : AlwaysEnds P g

theorem AlwaysEnds.mono {P Q : Group n π ρ → Prop} {g : Group n π ρ} (hPQ : ∀ g, P g → Q g)
    (h : AlwaysEnds P g) : AlwaysEnds Q g := by
  induction h with
  | ended hend hP => exact .ended hend (hPQ _ hP)
  | goes hstep _ ih => exact .goes hstep ih

/-- Some run ends in a group that has all properties that every run ends with. -/
theorem AlwaysEnds.exists_end {P Q : Group n π ρ → Prop} {g : Group n π ρ} (hP : AlwaysEnds P g)
    (hQ : AlwaysEnds Q g) : ∃ last, P last ∧ Q last := by
  induction hP with
  | ended hend hP =>
    cases hQ with
    | ended _ hQ => exact ⟨_, hP, hQ⟩
    | goes hstep _ =>
      obtain ⟨after, hafter⟩ := hstep
      exact absurd hafter (hend after)
  | goes hstep _ ih =>
    obtain ⟨after, hafter⟩ := hstep
    cases hQ with
    | ended hend _ => exact absurd hafter (hend after)
    | goes _ hQ => exact ih after hafter (hQ after hafter)

/-- If one path leads to a result on every rank, every run ends there. -/
theorem Path.alwaysEnds {m : Nat} {p q : Fin n → Program π ρ} {f g : Queues n π}
    (h : Path m p f q g) {result : Fin n → ρ} (hdone : ∀ i, q i = .done (result i))
    {P : Group n π ρ → Prop} (hP : P (of q g)) : AlwaysEnds P (of p f) := by
  have hstill : ∀ {p : Fin n → Program π ρ} {f : Queues n π} {j : Fin n},
      p j = .done (result j) → (of p f).act j = none := by
    intro p f j hj
    rw [act, programs_get_of, hj]
  induction m generalizing p f with
  | zero =>
    cases h with
    | nil =>
      refine .ended (fun after hstep => ?_) hP
      obtain ⟨j, hact⟩ := hstep
      rw [hstill (hdone j)] at hact
      nomatch hact
  | succ m ih =>
    refine .goes ?_ fun after hstep => ?_
    · cases h with
      | cons i h rest => exact ⟨_, i, h.act⟩
    · obtain ⟨j, hact⟩ := hstep
      have hj : p j ≠ q j := by
        intro heq
        rw [hstill (heq.trans (hdone j))] at hact
        nomatch hact
      obtain ⟨f₁, next₁, f₂, hacts⟩ := h.acts hj
      obtain ⟨next, f', hstep, rfl⟩ := acts_of_act hact hacts
      obtain ⟨m', hm, hrest⟩ := h.after (hdone j) hstep
      obtain rfl := Nat.succ.inj hm
      exact ih hrest

def Runs (p : Fin n → Program π ρ) (f : Queues n π) (q : Fin n → Program π ρ)
    (g : Queues n π) : Prop := ∃ m, Path m p f q g

theorem Path.append {m : Nat} {p q r : Fin n → Program π ρ} {f g h : Queues n π}
    (hpq : Path m p f q g) (hqr : Runs q g r h) : Runs p f r h := by
  induction hpq with
  | nil => exact hqr
  | cons i hi _ ih =>
    obtain ⟨m, hrest⟩ := ih hqr
    exact ⟨m + 1, .cons i hi hrest⟩

namespace Runs

variable {p q r : Fin n → Program π ρ} {f g h : Queues n π}

theorem refl (p : Fin n → Program π ρ) (f : Queues n π) : Runs p f p f := ⟨0, .nil p f⟩

theorem trans (hpq : Runs p f q g) (hqr : Runs q g r h) : Runs p f r h := by
  obtain ⟨_, hpath⟩ := hpq
  exact hpath.append hqr

end Runs

end Group

end SpatialSearch
