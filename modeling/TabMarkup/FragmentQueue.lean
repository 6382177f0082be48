import TabMarkup.Fragment

/-!
# Fragment queues

Fragments in the order in which they were appended; they are composed and drained in that order.
-/

namespace TabMarkup

/-- Fragments, first in, first out. -/
structure FragmentQueue where
  fragments : Array Fragment := #[]
  deriving Repr, DecidableEq

namespace FragmentQueue

/-- The fragments from front to back. -/
def toList (q : FragmentQueue) : List Fragment :=
  q.fragments.toList

/-- The queue with one more fragment at its back. -/
def append (q : FragmentQueue) (f : Fragment) : FragmentQueue :=
  { fragments := q.fragments.push f }

/-- The queue with more fragments at its back. -/
def appendAll (q : FragmentQueue) (fs : List Fragment) : FragmentQueue :=
  fs.foldl append q

/-- All fragments from front to back, and the queue without them. -/
def drain (q : FragmentQueue) : List Fragment × FragmentQueue :=
  (q.toList, {})

/-- The number of fragments. -/
def size (q : FragmentQueue) : Nat :=
  q.fragments.size

/-- Whether there are no fragments. -/
def isEmpty (q : FragmentQueue) : Bool :=
  q.fragments.isEmpty

/-- All fragments as they are written, and a newline after them. -/
def written (q : FragmentQueue) : List Char :=
  q.toList.flatMap Fragment.written ++ ['\n']

/-- The composed document. -/
def compose (q : FragmentQueue) : String :=
  String.ofList q.written

theorem size_eq_length (q : FragmentQueue) : q.size = q.toList.length :=
  rfl

@[simp] theorem toList_append (q : FragmentQueue) (f : Fragment) :
    (q.append f).toList = q.toList ++ [f] := by
  simp [append, toList]

@[simp] theorem toList_appendAll (q : FragmentQueue) (fs : List Fragment) :
    (q.appendAll fs).toList = q.toList ++ fs := by
  induction fs generalizing q with
  | nil => simp [appendAll]
  | cons f fs ih =>
    change ((q.append f).appendAll fs).toList = _
    rw [ih]
    simp

end FragmentQueue

end TabMarkup
