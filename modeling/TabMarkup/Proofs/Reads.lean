import Mathlib.Data.Nat.Find
import TabMarkup.Proofs.Tape

/-!
# The reads of a source

A source whose size was announced is read until at least so many bytes have come. That is after
some number of reads, and what stands behind them is not delivered (`deliver_size_of_reached`). If
there are never so many bytes, the size makes no difference (`deliver_size_of_not_reached`).
-/

namespace TabMarkup.Source

/-! ## Reads that bring bytes -/

/-- What the first `k` reads bring. There are fewer where the source ends or fails before. -/
def firstReads : (k : Nat) → Source → List (List UInt8)
  | 0, _ => []
  | k + 1, source =>
    match source.read with
    | (.ok (b :: bytes), rest) => (b :: bytes) :: firstReads k rest
    | _ => []

theorem firstReads_of_ok {source rest : Source} {bytes : List UInt8} (hbytes : bytes ≠ [])
    (h : source.read = (.ok bytes, rest)) (k : Nat) :
    source.firstReads (k + 1) = bytes :: rest.firstReads k := by
  obtain ⟨b, bytes, rfl⟩ := List.exists_cons_of_ne_nil hbytes
  rw [firstReads, h]

/-- Where a first read brings bytes, there is one. -/
theorem exists_of_firstReads {source : Source} {k : Nat}
    (h : 0 < (source.firstReads (k + 1)).flatten.length) :
    ∃ bytes rest, bytes ≠ [] ∧ source.read = (.ok bytes, rest) := by
  unfold firstReads at h
  split at h
  · rename_i b bytes rest hread
    exact ⟨b :: bytes, rest, by simp, hread⟩
  · simp at h

/-- The bytes of the first reads are the first ones of those that are delivered. -/
theorem firstReads_prefix_deliver (k : Nat) (source : Source) :
    (source.firstReads k).flatten <+: (source.deliver none).bytes := by
  induction k generalizing source with
  | zero => exact List.nil_prefix
  | succ k ih =>
    by_cases hnone : (source.firstReads (k + 1)).flatten.length = 0
    · rw [List.length_eq_zero_iff.mp hnone]
      exact List.nil_prefix
    · obtain ⟨bytes, rest, hbytes, hread⟩ := exists_of_firstReads (Nat.pos_of_ne_zero hnone)
      rw [firstReads_of_ok hbytes hread, deliver_of_ok (by simp) hbytes hread, List.flatten_cons]
      exact (List.prefix_append_right_inj bytes).mpr (ih rest)

/-! ## Cut schedules -/

/-- The schedule up to its first `n` bytes. -/
def cutTo : (n : Nat) → Source → Source
  | 0, _ => []
  | _ + 1, [] => []
  | n + 1, .data bytes :: rest =>
    .data (bytes.take (n + 1)) :: cutTo (n + 1 - bytes.length) rest
  | n + 1, .interrupted :: rest => .interrupted :: cutTo (n + 1) rest
  | n + 1, .failure message :: rest => .failure message :: cutTo (n + 1) rest

/-- The schedule up to the end of its `k`-th read. -/
def cutAfter (k : Nat) (source : Source) : Source :=
  source.cutTo (source.firstReads k).flatten.length

@[simp] theorem cutTo_zero (source : Source) : source.cutTo 0 = [] := by
  rw [cutTo]

theorem cutTo_data {n : Nat} (hn : 0 < n) (bytes : List UInt8) (rest : Source) :
    cutTo n (.data bytes :: rest) = .data (bytes.take n) :: rest.cutTo (n - bytes.length) := by
  obtain ⟨n, rfl⟩ := Nat.exists_eq_succ_of_ne_zero (Nat.ne_of_gt hn)
  rw [cutTo]

theorem cutTo_interrupted {n : Nat} (hn : 0 < n) (rest : Source) :
    cutTo n (.interrupted :: rest) = .interrupted :: rest.cutTo n := by
  obtain ⟨n, rfl⟩ := Nat.exists_eq_succ_of_ne_zero (Nat.ne_of_gt hn)
  rw [cutTo]

/-- A read that lies before the cut brings the same, whatever stands behind the cut. -/
theorem read_cutTo_append {source left : Source} {bytes : List UInt8} (hbytes : bytes ≠ [])
    (h : source.read = (.ok bytes, left)) (n : Nat) (rest : Source) :
    (source.cutTo (bytes.length + n) ++ rest).read = (.ok bytes, left.cutTo n ++ rest) := by
  have hpos : 0 < bytes.length + n := Nat.add_pos_left (List.length_pos_iff.mpr hbytes) n
  induction source with
  | nil =>
    cases h
    exact absurd rfl hbytes
  | cons item source ih =>
    cases item with
    | interrupted =>
      rw [cutTo_interrupted hpos]
      exact ih h
    | failure message => cases h
    | data piece =>
      rw [cutTo_data hpos, List.cons_append, read]
      rw [read] at h
      by_cases hle : piece.length ≤ readLimit
      · rw [if_pos hle] at h
        cases h
        have htake : bytes.take (bytes.length + n) = bytes :=
          List.take_of_length_le (Nat.le_add_right _ _)
        rw [htake, if_pos hle, Nat.add_sub_cancel_left]
      · -- The read takes part of the piece, and the cut is in the same piece or behind it.
        rw [if_neg hle] at h
        cases h
        have hlength : (piece.take readLimit).length = readLimit := by
          rw [List.length_take]
          omega
        rw [hlength]
        rcases Nat.eq_zero_or_pos n with rfl | hn
        · have hnone : readLimit + 0 - piece.length = 0 := by omega
          rw [hnone, Nat.add_zero, if_pos (Nat.le_of_eq hlength), cutTo_zero, cutTo_zero]
        · have hlong : ¬ (piece.take (readLimit + n)).length ≤ readLimit := by
            rw [List.length_take]
            omega
          have hrest : readLimit + n - piece.length = n - (piece.drop readLimit).length := by
            rw [List.length_drop]
            omega
          rw [if_neg hlong, List.take_take, List.drop_take, cutTo_data hn, hrest,
            Nat.min_eq_left (Nat.le_add_right _ _), Nat.add_sub_cancel_left, List.cons_append]

/-- A schedule that is cut after some reads delivers what they bring, and ends. -/
theorem deliver_cutAfter (k : Nat) (source : Source) :
    (source.cutAfter k).deliver none = { bytes := (source.firstReads k).flatten } := by
  have hend : deliver none [] = { bytes := [] } := deliver_of_nil (by simp) rfl
  induction k generalizing source with
  | zero => rw [cutAfter, firstReads, List.flatten_nil, List.length_nil, cutTo_zero, hend]
  | succ k ih =>
    by_cases hnone : (source.firstReads (k + 1)).flatten.length = 0
    · rw [cutAfter, hnone, cutTo_zero, hend, List.length_eq_zero_iff.mp hnone]
    · obtain ⟨bytes, left, hbytes, hread⟩ := exists_of_firstReads (Nat.pos_of_ne_zero hnone)
      have hcut := read_cutTo_append hbytes hread (left.firstReads k).flatten.length []
      rw [List.append_nil, List.append_nil] at hcut
      rw [cutAfter, firstReads_of_ok hbytes hread, List.flatten_cons, List.length_append,
        deliver_of_ok (by simp) hbytes hcut, Option.map_none]
      exact congrArg (Tape.prepend bytes) (ih left)

/-- The second read takes the second piece whole. -/
example : cutAfter 2 [.data [1], .interrupted, .data [2, 3], .failure "late"] =
    [.data [1], .interrupted, .data [2, 3]] := by
  decide

/-! ## Announced sizes -/

/-- The `k`-th read is the first one after which `size` bytes have come. -/
def ReachedBy (size k : Nat) (source : Source) : Prop :=
  size ≤ (source.firstReads k).flatten.length ∧
    ∀ j < k, (source.firstReads j).flatten.length < size

/-- If a size is not reached at once, the first read brings bytes, and the others reach what is
then left of the size. -/
theorem ReachedBy.of_succ {size k : Nat} {source : Source} (h : source.ReachedBy size (k + 1)) :
    0 < size ∧ ∃ bytes rest, bytes ≠ [] ∧ source.read = (.ok bytes, rest) ∧
      rest.ReachedBy (size - bytes.length) k := by
  obtain ⟨hreached, hbefore⟩ := h
  have hpos : 0 < size := hbefore 0 (Nat.succ_pos k)
  obtain ⟨bytes, rest, hbytes, hread⟩ := exists_of_firstReads (Nat.lt_of_lt_of_le hpos hreached)
  have hlength : ∀ j, (source.firstReads (j + 1)).flatten.length =
      bytes.length + (rest.firstReads j).flatten.length := by
    intro j
    rw [firstReads_of_ok hbytes hread, List.flatten_cons, List.length_append]
  refine ⟨hpos, bytes, rest, hbytes, hread, ?_, ?_⟩
  · rw [hlength] at hreached
    omega
  · intro j hj
    have hless := hbefore (j + 1) (Nat.succ_lt_succ hj)
    rw [hlength] at hless
    omega

/-- With the size announced, what comes is what is brought until the size is reached. -/
theorem deliver_size_of_reached {size k : Nat} {source : Source} (h : source.ReachedBy size k) :
    source.deliver (some size) = { bytes := (source.firstReads k).flatten } := by
  induction k generalizing size source with
  | zero =>
    obtain rfl : size = 0 := Nat.le_zero.mp h.1
    exact deliver_zero source
  | succ k ih =>
    obtain ⟨hpos, bytes, rest, hbytes, hread, hrest⟩ := h.of_succ
    have hwanted : some size ≠ some 0 := by
      rw [ne_eq, Option.some.injEq]
      omega
    rw [deliver_of_ok hwanted hbytes hread, Option.map_some, ih hrest,
      firstReads_of_ok hbytes hread, List.flatten_cons]
    rfl

/-- What stands behind the read that reaches the size may as well be something else. -/
theorem ReachedBy.cutAfter_append {size k : Nat} {source : Source} (h : source.ReachedBy size k)
    (rest : Source) :
    (source.cutAfter k ++ rest).deliver (some size) =
      { bytes := (source.firstReads k).flatten } := by
  induction k generalizing size source with
  | zero =>
    obtain rfl : size = 0 := Nat.le_zero.mp h.1
    exact deliver_zero _
  | succ k ih =>
    obtain ⟨hpos, bytes, left, hbytes, hread, hleft⟩ := h.of_succ
    have hwanted : some size ≠ some 0 := by
      rw [ne_eq, Option.some.injEq]
      omega
    have hcut := read_cutTo_append hbytes hread (left.firstReads k).flatten.length rest
    rw [cutAfter, firstReads_of_ok hbytes hread, List.flatten_cons, List.length_append,
      deliver_of_ok hwanted hbytes hcut, Option.map_some]
    exact congrArg (Tape.prepend bytes) (ih hleft)

/-- A size that is never reached has no effect. -/
theorem deliver_size_of_not_reached {size : Nat} {source : Source}
    (h : ∀ k, (source.firstReads k).flatten.length < size) :
    source.deliver (some size) = source.deliver none := by
  induction hn : source.unread using Nat.strongRecOn generalizing size source with
  | ind n ih =>
    have hpos : 0 < size := h 0
    have hwanted : some size ≠ some 0 := by
      rw [ne_eq, Option.some.injEq]
      omega
    generalize hread : source.read = answer
    obtain ⟨answer, rest⟩ := answer
    match answer with
    | .error message =>
      rw [deliver_of_error hwanted hread, deliver_of_error (by simp) hread]
    | .ok [] => rw [deliver_of_nil hwanted hread, deliver_of_nil (by simp) hread]
    | .ok (b :: bytes) =>
      have hless : rest.unread < n := by
        have hunread := read_ok_unread hread
        rw [List.length_cons] at hunread
        omega
      have hrest : ∀ k, (rest.firstReads k).flatten.length < size - (b :: bytes).length := by
        intro k
        have hbelow := h (k + 1)
        rw [firstReads_of_ok (by simp) hread, List.flatten_cons, List.length_append] at hbelow
        omega
      rw [deliver_of_ok hwanted (by simp) hread, deliver_of_ok (by simp) (by simp) hread,
        Option.map_some, Option.map_none, ih rest.unread hless hrest rfl]

/-- Every size is reached by some read or by none. -/
theorem exists_reachedBy_or (size : Nat) (source : Source) :
    (∃ k, source.ReachedBy size k) ∨ ∀ k, (source.firstReads k).flatten.length < size := by
  by_cases hreached : ∃ k, size ≤ (source.firstReads k).flatten.length
  · left
    refine ⟨Nat.find hreached, Nat.find_spec hreached, fun j hj => ?_⟩
    exact Nat.lt_of_not_le (Nat.find_min hreached hj)
  · right
    intro k
    exact Nat.lt_of_not_le fun hle => hreached ⟨k, hle⟩

/-- The right size, announced for bytes that the source ends with, has no effect. -/
theorem deliver_size_of_eq {source : Source} {bytes : List UInt8}
    (h : source.deliver none = { bytes }) : source.deliver (some bytes.length) = { bytes } := by
  rcases exists_reachedBy_or bytes.length source with ⟨k, hk⟩ | hnever
  · have hprefix : (source.firstReads k).flatten <+: bytes := by
      have hdeliver := firstReads_prefix_deliver k source
      rwa [h] at hdeliver
    rw [deliver_size_of_reached hk, hprefix.eq_of_length_le hk.1]
  · rw [deliver_size_of_not_reached hnever, h]

end TabMarkup.Source
