import SpatialSearch.Group.Message
import SpatialSearch.PartitionedIndex.Content

/-!
# Batches

The queries that a rank puts to a partitioned index at once. They have to be of one kind
and well formed, which every rank checks by itself, and of the same kind on all ranks,
which all ranks find out alike from what they announce to each other.
-/

namespace SpatialSearch

/-- What is wrong with the batches of a group. -/
inductive BatchFault where
  | mixedKinds (number : Nat) (kind batch : QueryKind)
  | malformed (number : Nat) (fault : QueryFault)
  | optionsDiffer (rank : Nat)
  /-- The batch of a rank is of another kind than the first batch that is not empty. -/
  | kindsDiffer (rank : Nat) (kind : QueryKind) (first : Nat) (firstKind : QueryKind)
deriving DecidableEq

namespace BatchFault

def message : BatchFault → String
  | mixedKinds number kind batch => s!"query {number} is {kind.name} in a {batch.name} batch"
  | malformed number fault => s!"query {number}: {fault.message}"
  | optionsDiffer rank => s!"rank {rank} uses different tree options than rank 0"
  | kindsDiffer rank kind first firstKind =>
    s!"rank {rank} submitted a {kind.name} batch, rank {first} a {firstKind.name} batch"

end BatchFault

/-- Why a partitioned index does not answer. -/
inductive SearchFault where
  | batch (fault : BatchFault)
  | tooManyNeighbors (requested limit : Nat)
  | transfer (cause : TransferFault)
  | index (cause : IndexFault)
deriving DecidableEq

namespace SearchFault

def message : SearchFault → String
  | batch fault => s!"invalid argument: {fault.message}"
  | tooManyNeighbors requested limit =>
    s!"nearest query asks for {requested} neighbors, at most {limit} allowed"
  | transfer cause => cause.message
  | index cause => cause.message

end SearchFault

namespace Batch

variable {α : Type} [Scalar α]

def checkLimit (options : SearchOptions) : Query α → Except SearchFault Unit
  | .nearest n =>
    if options.neighborLimit < n.k then
      .error (.tooManyNeighbors n.k options.neighborLimit)
    else .ok ()
  | _ => .ok ()

/-- Check a query of a batch of some kind: its kind, then its own form, then its number of
neighbors. -/
def checkQuery (options : SearchOptions) (kind : QueryKind) (number : Nat) (q : Query α) :
    Except SearchFault Unit :=
  if q.kind ≠ kind then .error (.batch (.mixedKinds number q.kind kind))
  else
    match q.check with
    | .error fault => .error (.batch (.malformed number fault))
    | .ok () => checkLimit options q

def checkFrom (options : SearchOptions) (kind : QueryKind) :
    (number : Nat) → List (Query α) → Except SearchFault Unit
  | _, [] => .ok ()
  | number, q :: rest =>
    match checkQuery options kind number q with
    | .error fault => .error fault
    | .ok () => checkFrom options kind (number + 1) rest

/-- The kind of a batch whose queries are all in order; none if there are no queries. -/
def check (options : SearchOptions) : List (Query α) → Except SearchFault (Option QueryKind)
  | [] => .ok none
  | first :: rest =>
    (checkFrom options first.kind 0 (first :: rest)).map fun _ => some first.kind

def submitted (announcements : List Announcement) : List (Nat × QueryKind) :=
  announcements.zipIdx.filterMap fun (a, rank) => a.kind.map fun kind => (rank, kind)

def agreeOnKind (announcements : List Announcement) : Except SearchFault (Option QueryKind) :=
  match submitted announcements with
  | [] => .ok none
  | (first, firstKind) :: rest =>
    match rest.find? (·.2 != firstKind) with
    | some (rank, kind) => .error (.batch (.kindsDiffer rank kind first firstKind))
    | none => .ok (some firstKind)

/-- What every rank concludes from the announcements of all: the options have to be the
same, and then the kinds of the batches that are not empty. -/
def agree (announcements : List Announcement) : Except SearchFault (Option QueryKind) :=
  match announcements.findIdx? fun a => announcements.head?.any (·.options != a.options) with
  | some rank => .error (.batch (.optionsDiffer rank))
  | none => agreeOnKind announcements

end Batch

end SpatialSearch
