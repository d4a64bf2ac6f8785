import SpatialSearch.Abort
import SpatialSearch.Group.Message

/-!
# Programs of ranks

What a rank does, as a tree of actions: a program sends, receives, leaves its group, and
ends with a result or gives up. The outcome of a send or a receive chooses what comes
next. Programs are a monad, so that longer ones are put together from shorter ones.
-/

namespace SpatialSearch

/-- A program of one rank, with payloads in `π` and a result in `ρ`. -/
inductive Program (π ρ : Type) where
  | done (result : ρ)
  | gaveUp (cause : Abort)
  | leave (next : Program π ρ)
  | send (dest : Nat) (message : Message π) (next : Except TransferFault Unit → Program π ρ)
  | receive (source : Nat) (next : Except TransferFault (Message π) → Program π ρ)

namespace Program

variable {π ρ σ τ : Type}

/-- Give up: a rank that does so leaves its group. -/
def abort (cause : Abort) : Program π ρ := .leave (.gaveUp cause)

def bind : Program π ρ → (ρ → Program π σ) → Program π σ
  | done result, f => f result
  | gaveUp cause, _ => gaveUp cause
  | leave next, f => leave (next.bind f)
  | send dest message next, f => send dest message fun outcome => (next outcome).bind f
  | receive source next, f => receive source fun outcome => (next outcome).bind f

instance : Monad (Program π) where
  pure := done
  bind := bind

theorem bind_done (p : Program π ρ) : p.bind done = p := by
  induction p with
  | done _ => rfl
  | gaveUp _ => rfl
  | leave _ ih => simp only [bind, ih]
  | send _ _ _ ih => simp only [bind, ih]
  | receive _ _ ih => simp only [bind, ih]

theorem bind_assoc (p : Program π ρ) (f : ρ → Program π σ) (g : σ → Program π τ) :
    (p.bind f).bind g = p.bind fun r => (f r).bind g := by
  induction p with
  | done _ => rfl
  | gaveUp _ => rfl
  | leave _ ih => simp only [bind, ih]
  | send _ _ _ ih => simp only [bind, ih]
  | receive _ _ ih => simp only [bind, ih]

instance : LawfulMonad (Program π) :=
  LawfulMonad.mk' (Program π) bind_done (fun _ _ => rfl) bind_assoc

def leaving (p : Program π ρ) : Program π ρ := p.bind fun result => leave (done result)

/-- One program is what is left of another after its first action. -/
inductive Follows : Program π ρ → Program π ρ → Prop where
  | leave (next : Program π ρ) : Follows next (leave next)
  | send (dest : Nat) (message : Message π) (next : Except TransferFault Unit → Program π ρ)
      (outcome : Except TransferFault Unit) : Follows (next outcome) (send dest message next)
  | receive (source : Nat) (next : Except TransferFault (Message π) → Program π ρ)
      (outcome : Except TransferFault (Message π)) :
      Follows (next outcome) (receive source next)

/-- No program goes on for ever. -/
theorem follows_wellFounded : WellFounded (@Follows π ρ) := by
  refine ⟨fun p => ?_⟩
  induction p with
  | done _ => exact ⟨_, fun _ h => nomatch h⟩
  | gaveUp _ => exact ⟨_, fun _ h => nomatch h⟩
  | leave _ ih => exact ⟨_, fun _ h => by cases h; exact ih⟩
  | send _ _ _ ih => exact ⟨_, fun _ h => by cases h; exact ih _⟩
  | receive _ _ ih => exact ⟨_, fun _ h => by cases h; exact ih _⟩

end Program

end SpatialSearch
