import TabMarkup.Source

/-!
# What a source delivers

A tape is what a source comes to when it is read to its end: the bytes in order, and the failure
after them if there is one. How the bytes are cut into pieces, where the interruptions are and
what stands behind the end leave no trace on it (`Delivers.deliver_eq`). A source whose size was
announced is read only until so many bytes have come.
-/

namespace TabMarkup

/-- The bytes that are to come, and the failure that comes after them, if it is not the end. -/
structure Tape where
  bytes : List UInt8
  failure? : Option String := none
  deriving Repr, DecidableEq

namespace Tape

/-- The tape with more bytes in front. -/
def prepend (bytes : List UInt8) (t : Tape) : Tape :=
  { t with bytes := bytes ++ t.bytes }

@[simp] theorem prepend_nil (t : Tape) : t.prepend [] = t :=
  rfl

theorem prepend_append (u v : List UInt8) (t : Tape) :
    t.prepend (u ++ v) = (t.prepend v).prepend u := by
  simp [prepend]

end Tape

namespace Source

/-- What is read of a source until `wanted?` bytes have come, or all of it if nothing is said
about its size. Whole chunks are read, so more bytes may come than are wanted. -/
def deliver (wanted? : Option Nat) (source : Source) : Tape :=
  if wanted? = some 0 then { bytes := [] }
  else
    match h : source.read with
    | (.error message, _) => { bytes := [], failure? := some message }
    | (.ok [], _) => { bytes := [] }
    | (.ok (b :: bytes), rest) =>
      have : rest.unread < source.unread := by
        have := read_ok_unread h
        simp only [List.length_cons] at this
        omega
      (deliver (wanted?.map (· - (b :: bytes).length)) rest).prepend (b :: bytes)
termination_by source.unread

theorem deliver_zero (source : Source) : source.deliver (some 0) = { bytes := [] } := by
  rw [deliver, if_pos rfl]

theorem deliver_of_error {source rest : Source} {wanted? : Option Nat} {message : String}
    (hwanted : wanted? ≠ some 0) (h : source.read = (.error message, rest)) :
    source.deliver wanted? = { bytes := [], failure? := some message } := by
  rw [deliver, if_neg hwanted]
  split <;> simp_all

theorem deliver_of_nil {source rest : Source} {wanted? : Option Nat}
    (hwanted : wanted? ≠ some 0) (h : source.read = (.ok [], rest)) :
    source.deliver wanted? = { bytes := [] } := by
  rw [deliver, if_neg hwanted]
  split <;> simp_all

theorem deliver_of_ok {source rest : Source} {wanted? : Option Nat} {bytes : List UInt8}
    (hwanted : wanted? ≠ some 0) (hbytes : bytes ≠ []) (h : source.read = (.ok bytes, rest)) :
    source.deliver wanted? = (rest.deliver (wanted?.map (· - bytes.length))).prepend bytes := by
  rw [deliver, if_neg hwanted]
  split <;> simp_all

/-! ## Sources of unknown size -/

/-- An interruption before the rest of a source is not delivered. -/
theorem deliver_interrupted (wanted? : Option Nat) (rest : Source) :
    deliver wanted? (.interrupted :: rest) = deliver wanted? rest := by
  have hread : read (.interrupted :: rest) = read rest := rfl
  by_cases hwanted : wanted? = some 0
  · rw [hwanted, deliver_zero, deliver_zero]
  · cases h : read rest with
    | mk answer left =>
      cases answer with
      | error message =>
        rw [deliver_of_error hwanted (hread.trans h), deliver_of_error hwanted h]
      | ok bytes =>
        cases bytes with
        | nil => rw [deliver_of_nil hwanted (hread.trans h), deliver_of_nil hwanted h]
        | cons b bytes =>
          rw [deliver_of_ok hwanted (by simp) (hread.trans h), deliver_of_ok hwanted (by simp) h]

/-- A piece of data is delivered whole, however many reads it takes. -/
theorem deliver_data {bytes : List UInt8} (hbytes : bytes ≠ []) (rest : Source) :
    deliver none (.data bytes :: rest) = (deliver none rest).prepend bytes := by
  induction hn : bytes.length using Nat.strongRecOn generalizing bytes with
  | ind n ih =>
    by_cases hle : bytes.length ≤ readLimit
    · have hread : read (.data bytes :: rest) = (.ok bytes, rest) := by rw [read, if_pos hle]
      rw [deliver_of_ok (by simp) hbytes hread, Option.map_none]
    · have hread : read (.data bytes :: rest) =
          (.ok (bytes.take readLimit), .data (bytes.drop readLimit) :: rest) := by
        rw [read, if_neg hle]
      have htake : bytes.take readLimit ≠ [] := by
        simp [readLimit, hbytes]
      have hdrop : bytes.drop readLimit ≠ [] := by
        simp only [ne_eq, List.drop_eq_nil_iff]
        exact hle
      have hlength : (bytes.drop readLimit).length < n := by
        simp only [List.length_drop, readLimit]
        have := List.length_pos_iff.mpr hbytes
        omega
      rw [deliver_of_ok (by simp) htake hread, Option.map_none, ih _ hlength hdrop rfl,
        ← Tape.prepend_append, List.take_append_drop]

/-- A source that has all its bytes at once delivers them and ends. -/
theorem deliver_ofBytes (bytes : List UInt8) : (ofBytes bytes).deliver none = { bytes } := by
  have hend : deliver none [] = { bytes := [] } := deliver_of_nil (by simp) rfl
  cases bytes with
  | nil => exact deliver_of_nil (by simp) rfl
  | cons b bytes =>
    rw [ofBytes, deliver_data (by simp), hend]
    simp [Tape.prepend]

end Source

/-- Schedules by which `bytes` arrive and then the end: pieces that are cut anywhere, with
interruptions between them, up to the end of the schedule or to an empty piece. -/
inductive Delivers : Source → List UInt8 → Prop where
  | ended : Delivers [] []
  | empty (rest : Source) : Delivers (.data [] :: rest) []
  | interrupted {source : Source} {bytes : List UInt8} (h : Delivers source bytes) :
      Delivers (.interrupted :: source) bytes
  | data {source : Source} {bytes piece : List UInt8} (hpiece : piece ≠ [])
      (h : Delivers source bytes) : Delivers (.data piece :: source) (piece ++ bytes)

/-- Bytes that arrive all at once are followed by the end. -/
theorem delivers_ofBytes (bytes : List UInt8) : Delivers (.ofBytes bytes) bytes := by
  cases bytes with
  | nil => exact .empty []
  | cons b bytes =>
    have hdata := Delivers.data (List.cons_ne_nil b bytes) .ended
    rwa [List.append_nil] at hdata

/-- The schedule leaves no trace: what is delivered is the bytes and the end. -/
theorem Delivers.deliver_eq {source : Source} {bytes : List UInt8} (h : Delivers source bytes) :
    source.deliver none = { bytes } := by
  induction h with
  | ended => exact Source.deliver_of_nil (by simp) rfl
  | empty rest => exact Source.deliver_of_nil (by simp) rfl
  | interrupted h ih => rw [Source.deliver_interrupted, ih]
  | data hpiece h ih =>
    rw [Source.deliver_data hpiece, ih]
    rfl

/-- Schedules by which `bytes` arrive and then a failure: pieces that are cut anywhere, with
interruptions between them, then the failure and behind it anything. -/
inductive FailsAfter : Source → List UInt8 → (message : String) → Prop where
  | failure (message : String) (rest : Source) : FailsAfter (.failure message :: rest) [] message
  | interrupted {source : Source} {bytes : List UInt8} {message : String}
      (h : FailsAfter source bytes message) : FailsAfter (.interrupted :: source) bytes message
  | data {source : Source} {bytes piece : List UInt8} {message : String} (hpiece : piece ≠ [])
      (h : FailsAfter source bytes message) :
      FailsAfter (.data piece :: source) (piece ++ bytes) message

/-- Up to its failure a schedule leaves no trace either. -/
theorem FailsAfter.deliver_eq {source : Source} {bytes : List UInt8} {message : String}
    (h : FailsAfter source bytes message) :
    source.deliver none = { bytes, failure? := some message } := by
  induction h with
  | failure message rest => exact Source.deliver_of_error (by simp) rfl
  | interrupted h ih => rw [Source.deliver_interrupted, ih]
  | data hpiece h ih =>
    rw [Source.deliver_data hpiece, ih]
    rfl

end TabMarkup
