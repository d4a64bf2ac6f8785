import SpatialSearch.Index.Fault

/-!
# Bounded heaps

A binary heap in an array, with a fixed capacity. The element that ranks highest in
a given comparison is on top; the children of position `i` are at `2 * i + 1` and
`2 * i + 2`. Nothing is assumed of the comparison: the operations end and keep every
element also for one that is no order.
-/

namespace SpatialSearch

/-- A heap of at most `capacity` elements under a comparison, kept in array order. -/
structure BoundedHeap {β : Type} (cmp : β → β → Ordering) where
  items : Array β
  capacity : Nat

namespace BoundedHeap

variable {β : Type} {n : Nat}

def parent (i : Fin n) : Fin n := ⟨(i.val - 1) / 2, by omega⟩

theorem parent_lt {i : Fin n} (h : 0 < i.val) : (parent i).val < i.val := by
  simp only [parent]
  omega

/-- Move the element at `i` towards the top while it ranks above its parent. -/
def heapifyUp (cmp : β → β → Ordering) (v : Vector β n) (i : Fin n) : Vector β n :=
  if 0 < i.val then
    if cmp (v.get i) (v.get (parent i)) = .gt then
      heapifyUp cmp (v.swap i.val (parent i).val i.isLt (parent i).isLt) (parent i)
    else v
  else v
termination_by i.val
decreasing_by exact parent_lt ‹_›

/-- The position `j` if it exists and its element ranks above the one at `i`, else `i`. -/
def higher (cmp : β → β → Ordering) (v : Vector β n) (i : Fin n) (j : Nat) : Fin n :=
  if h : j < n then if cmp (v.get ⟨j, h⟩) (v.get i) = .gt then ⟨j, h⟩ else i else i

/-- The position of the highest among the element at `i` and its children; of equals the
first of self, left child, right child. -/
def highest (cmp : β → β → Ordering) (v : Vector β n) (i : Fin n) : Fin n :=
  higher cmp v (higher cmp v i (2 * i.val + 1)) (2 * i.val + 2)

/-- Move the element at `i` away from the top while a child ranks above it. -/
def heapifyDown (cmp : β → β → Ordering) (v : Vector β n) (i : Fin n) : Vector β n :=
  let j := highest cmp v i
  if i < j then heapifyDown cmp (v.swap i.val j.val i.isLt j.isLt) j else v
termination_by n - i.val

variable {cmp : β → β → Ordering}

def empty (capacity : Nat) : BoundedHeap cmp := ⟨#[], capacity⟩

def size (q : BoundedHeap cmp) : Nat := q.items.size

def isEmpty (q : BoundedHeap cmp) : Bool := q.items.isEmpty

def isFull (q : BoundedHeap cmp) : Bool := q.capacity ≤ q.items.size

def top? (q : BoundedHeap cmp) : Option β := q.items[0]?

def toList (q : BoundedHeap cmp) : List β := q.items.toList

def clear (q : BoundedHeap cmp) : BoundedHeap cmp := { q with items := #[] }

/-- Insert an element; a full heap refuses it. -/
def push (q : BoundedHeap cmp) (x : β) : Except IndexFault (BoundedHeap cmp) :=
  if q.isFull then .error (.overCapacity q.capacity)
  else
    let v := q.items.toVector.push x
    .ok { q with items := (heapifyUp cmp v (Fin.last _)).toArray }

/-- Put an element in the place of the top and let it sink. -/
def sinkTop (q : BoundedHeap cmp) (x : β) (h : 0 < q.items.size) : BoundedHeap cmp :=
  { q with items := (heapifyDown cmp (q.items.toVector.set 0 x) ⟨0, h⟩).toArray }

/-- Take the top out. The last element takes its place and sinks. -/
def pop? (q : BoundedHeap cmp) : Option (β × BoundedHeap cmp) :=
  match q.items.back? with
  | none => none
  | some last =>
    let rest : BoundedHeap cmp := { q with items := q.items.pop }
    if h : 0 < rest.items.size then some (rest.items[0], rest.sinkTop last h)
    else some (last, rest)

/-- Take the top out and insert an element in one pass; a plain insertion if the heap is
empty. -/
def swapTop (q : BoundedHeap cmp) (x : β) :
    Except IndexFault (Option β × BoundedHeap cmp) :=
  if h : 0 < q.items.size then .ok (some q.items[0], q.sinkTop x h)
  else (q.push x).map fun q => (none, q)

@[simp] theorem size_sinkTop (q : BoundedHeap cmp) (x : β) (h : 0 < q.items.size) :
    (q.sinkTop x h).items.size = q.items.size := by
  simp [sinkTop]

/-- Taking the top out leaves one element less. -/
theorem size_of_pop? {q rest : BoundedHeap cmp} {x : β} (h : q.pop? = some (x, rest)) :
    rest.items.size + 1 = q.items.size := by
  unfold pop? at h
  split at h
  · simp at h
  · rename_i last hlast
    have hpos : 0 < q.items.size := by
      rw [Array.back?] at hlast
      have := (Array.getElem?_eq_some_iff.mp hlast).1
      omega
    dsimp only at h
    split at h
    · obtain ⟨-, rfl⟩ := Prod.mk.inj (Option.some.inj h)
      simp only [size_sinkTop, Array.size_pop]
      omega
    · obtain ⟨-, rfl⟩ := Prod.mk.inj (Option.some.inj h)
      simp only [Array.size_pop]
      omega

/-- The elements in the order in which they leave the heap, the top first. -/
def descending (q : BoundedHeap cmp) : List β :=
  match _popped : q.pop? with
  | none => []
  | some (x, rest) => x :: descending rest
termination_by q.items.size
decreasing_by
  have := size_of_pop? _popped
  omega

def ascending (q : BoundedHeap cmp) : List β := q.descending.reverse

/-- Append the elements in ascending order to a list and empty the heap. -/
def drainInto (q : BoundedHeap cmp) (out : List β) : BoundedHeap cmp × List β :=
  (q.clear, out ++ q.ascending)

end BoundedHeap

end SpatialSearch
