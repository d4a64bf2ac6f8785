import SpatialSearch.PartitionedIndex.Query

/-!
# Scripts

A script is a list of commands that a rank carries out one after the other. A command
that fails is reported and the next one follows. Items are posted along the plan, and
queries put to the index, that an earlier command has made.
-/

namespace SpatialSearch

/-- What a rank can be told to do. -/
inductive Command (α : Type) where
  | send (dest : Nat) (tag : Tag) (kind : PlainKind) (items : List kind.Value)
  | receive (source : Nat) (tag : Tag) (kind : PlainKind)
  | place
  | gather (kind : PlainKind) (value : kind.Value)
  | barrier
  | plan (destinations : List Nat)
  | post (kind : PlainKind) (items : List kind.Value)
  | join (own : Index α) (options : SearchOptions)
  | inspect
  | query (queries : List (Query α))
  | abort (text : String)

inductive Reply (α : Type) where
  | done
  | items (kind : PlainKind) (items : List kind.Value)
  | place (seat : Seat)
  | plan (plan : Plan) (receives : Nat)
  | index (index : PartitionedIndex α)
  | table (table : HitTable α)
  | transferFailure (cause : TransferFault)
  | searchFailure (cause : SearchFault)
  | missing

/-- What earlier commands have left to later ones. -/
structure Progress (α : Type) where
  plan : Option Plan := none
  index : Option (PartitionedIndex α) := none

namespace Script

variable {α β : Type} [Scalar α]

def report (progress : Progress α) (p : Exchange (Content α) β) (reply : β → Reply α) :
    Program (Content α) (Progress α × Reply α) := do
  match ← p.run with
  | .ok result => return (progress, reply result)
  | .error cause => return (progress, .transferFailure cause)

/-- Carry out a command. What a failed command would have replaced stays current. -/
def perform (seat : Seat) (progress : Progress α) :
    Command α → Program (Content α) (Progress α × Reply α)
  | .send dest tag kind items =>
    report progress (Exchange.send (Content.ofPlain kind) dest tag items) fun _ => .done
  | .receive source tag kind =>
    report progress (Exchange.receive (Content.ofPlain kind) source tag) (.items kind)
  | .place => return (progress, .place seat)
  | .gather kind value =>
    report progress (Exchange.gather (Content.ofPlain kind) seat value) (.items kind)
  | .barrier =>
    report progress (Exchange.barrier (Content.ofPlain .signal) seat) fun _ => .done
  | .plan destinations => do
    match ← (Plan.negotiate (Content.ofPlain .count) seat destinations).run with
    | .ok plan =>
      match plan.makeRoom with
      | .ok total => return ({ progress with plan }, .plan plan total)
      | .error cause => .abort cause
    | .error cause => return (progress, .transferFailure cause)
  | .post kind items =>
    match progress.plan with
    | some plan => report progress (plan.post (Content.ofPlain kind) items) (.items kind)
    | none => return (progress, .missing)
  | .join own options => do
    match ← (PartitionedIndex.build seat own options).run with
    | .ok index => return ({ progress with index }, .index index)
    | .error cause => return (progress, .searchFailure cause)
  | .inspect => return (progress, progress.index.elim .missing .index)
  | .query queries =>
    match progress.index with
    | some index => do
      match ← (index.query queries).run with
      | .ok table => return (progress, .table table)
      | .error cause => return (progress, .searchFailure cause)
    | none => return (progress, .missing)
  | .abort text => .abort (.told text)

def runFrom (seat : Seat) (progress : Progress α) :
    List (Command α) → Program (Content α) (List (Reply α))
  | [] => return []
  | command :: rest => do
    let (progress, reply) ← perform seat progress command
    let replies ← runFrom seat progress rest
    return reply :: replies

def toProgram (seat : Seat) (commands : List (Command α)) :
    Program (Content α) (List (Reply α)) :=
  runFrom seat {} commands

/-- Let a group carry out one script per rank. Unless the places are held to the end, a
rank leaves the group as soon as its script ends. -/
def launch (scripts : List (List (Command α))) (hold : Bool) : Outcome (List (Reply α)) :=
  Group.launch scripts.length fun seat =>
    let program := toProgram seat (scripts.getD seat.rank [])
    if hold then program else program.leaving

end Script

end SpatialSearch
