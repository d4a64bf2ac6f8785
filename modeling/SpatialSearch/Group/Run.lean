import SpatialSearch.Group.Mailboxes
import SpatialSearch.Group.Program

/-!
# Runs of a group

A group of ranks that all run a program at the same time. `Group.act` is one action of
one rank, `Group.Step` an action of any rank that can act, and `Group.run` lets the first
rank that can act do so until none can. No run goes on for ever, because every action
shortens a program.
-/

namespace SpatialSearch

structure Seat where
  size : Nat
  rank : Fin size

namespace Seat

def ranks (seat : Seat) : List Nat := List.range seat.size

def others (seat : Seat) : List Nat := seat.ranks.filter (· != seat.rank.val)

end Seat

/-- What each rank has left to do and the messages under way. -/
structure Group (n : Nat) (π ρ : Type) where
  programs : Vector (Program π ρ) n
  mailboxes : Mailboxes n π

/-- How a run ends. -/
inductive Outcome (ρ : Type) where
  | finished (results : List ρ)
  /-- A rank gave up; of several the first. -/
  | aborted (cause : Abort)
  | stuck

namespace Group

variable {n : Nat} {π ρ : Type}

def start (program : Seat → Program π ρ) : Group n π ρ :=
  ⟨.ofFn fun rank => program ⟨n, rank⟩, .empty⟩

def proceed (g : Group n π ρ) (rank : Fin n) (next : Program π ρ)
    (mailboxes : Mailboxes n π) : Group n π ρ :=
  ⟨g.programs.set rank next rank.isLt, mailboxes⟩

/-- The next action of a rank, unless it has ended or has to wait. -/
def act (g : Group n π ρ) (rank : Fin n) : Option (Group n π ρ) :=
  match g.programs.get rank with
  | .done _ => none
  | .gaveUp _ => none
  | .leave next => some (g.proceed rank next (g.mailboxes.leave rank))
  | .send dest message next =>
    match g.mailboxes.send rank dest message with
    | .ok mailboxes => some (g.proceed rank (next (.ok ())) mailboxes)
    | .error cause => some (g.proceed rank (next (.error cause)) g.mailboxes)
  | .receive source next =>
    match g.mailboxes.receive rank source with
    | .delivered message rest => some (g.proceed rank (next (.ok message)) rest)
    | .failed cause => some (g.proceed rank (next (.error cause)) g.mailboxes)
    | .awaited => none

def Step (before after : Group n π ρ) : Prop := ∃ rank, before.act rank = some after

/-- An action of the first rank that can act. -/
def step? (g : Group n π ρ) : Option (Group n π ρ) := (List.finRange n).findSome? g.act

theorem step_of_step? {g after : Group n π ρ} (h : g.step? = some after) : Step g after :=
  let ⟨rank, _, hact⟩ := List.exists_of_findSome?_eq_some h
  ⟨rank, hact⟩

/-- One list of programs is another after an action of one of them. -/
inductive Shortened : List (Program π ρ) → List (Program π ρ) → Prop where
  | head {p q : Program π ρ} (h : p.Follows q) (rest : List (Program π ρ)) :
      Shortened (p :: rest) (q :: rest)
  | tail (p : Program π ρ) {rest rest' : List (Program π ρ)} (h : Shortened rest rest') :
      Shortened (p :: rest) (p :: rest')

theorem shortened_wellFounded : WellFounded (@Shortened π ρ) := by
  refine ⟨fun programs => ?_⟩
  induction programs with
  | nil => exact ⟨_, fun _ h => nomatch h⟩
  | cons p rest hrest =>
    induction Program.follows_wellFounded.apply p generalizing rest with
    | intro p _ ihp =>
      induction hrest with
      | intro rest hrest ihrest =>
        refine ⟨_, fun _ h => ?_⟩
        cases h with
        | head h _ => exact ihp _ h rest ⟨_, hrest⟩
        | tail _ h => exact ihrest _ h

theorem shortened_set {programs : List (Program π ρ)} {i : Nat} {p : Program π ρ}
    (hi : i < programs.length) (h : p.Follows programs[i]) :
    Shortened (programs.set i p) programs := by
  induction programs generalizing i with
  | nil => exact absurd hi (Nat.not_lt_zero i)
  | cons q rest ih =>
    cases i with
    | zero => exact .head h rest
    | succ i => exact .tail q (ih (Nat.lt_of_succ_lt_succ hi) h)

/-- An action leaves its rank with what follows in its program. -/
theorem act_follows {g after : Group n π ρ} {rank : Fin n} (h : g.act rank = some after) :
    ∃ next mailboxes, next.Follows (g.programs.get rank) ∧
      after = g.proceed rank next mailboxes := by
  unfold act at h
  split at h
  · cases h
  · cases h
  · rename_i next hp
    exact ⟨next, _, hp ▸ .leave next, (Option.some.inj h).symm⟩
  · rename_i dest message next hp
    split at h
    · exact ⟨_, _, hp ▸ .send dest message next (.ok ()), (Option.some.inj h).symm⟩
    · rename_i cause _
      exact ⟨_, _, hp ▸ .send dest message next (.error cause), (Option.some.inj h).symm⟩
  · rename_i source next hp
    split at h
    · rename_i message _ _
      exact ⟨_, _, hp ▸ .receive source next (.ok message), (Option.some.inj h).symm⟩
    · rename_i cause _
      exact ⟨_, _, hp ▸ .receive source next (.error cause), (Option.some.inj h).symm⟩
    · cases h

/-- Every action shortens a program. -/
theorem shortened_of_step {before after : Group n π ρ} (h : Step before after) :
    Shortened after.programs.toList before.programs.toList := by
  obtain ⟨rank, hact⟩ := h
  obtain ⟨next, mailboxes, hnext, rfl⟩ := act_follows hact
  rw [proceed, Vector.toList_set]
  have hrank : rank.val < before.programs.toList.length := by simp
  have : before.programs.toList[rank.val] = before.programs.get rank :=
    Vector.getElem_toList hrank
  exact shortened_set hrank (this ▸ hnext)

def run (g : Group n π ρ) : Group n π ρ :=
  match _next : g.step? with
  | none => g
  | some after => after.run
termination_by (⟨g.programs.toList, shortened_wellFounded.apply _⟩ :
  { programs : List (Program π ρ) // Acc Shortened programs })
decreasing_by exact shortened_of_step (step_of_step? _next)

def ending? : Program π ρ → Option (Except Abort ρ)
  | .done result => some (.ok result)
  | .gaveUp cause => some (.error cause)
  | _ => none

/-- How a group stands in which no rank can act. -/
def outcome (g : Group n π ρ) : Outcome ρ :=
  match g.programs.toList.mapM ending? with
  | none => .stuck
  | some endings =>
    match endings.mapM id with
    | .ok results => .finished results
    | .error cause => .aborted cause

/-- Let every rank of a group run a program and see how it ends. -/
def launch (n : Nat) (program : Seat → Program π ρ) : Outcome ρ :=
  (start program : Group n π ρ).run.outcome

end Group

end SpatialSearch
