import TabMarkup.Compilation.File
import TabMarkup.Proofs.Compilation.Delivery
import TabMarkup.Proofs.Reads

/-!
# Announced sizes

A size that is announced ends a source after the read that reaches it, and does nothing else: the
source is parsed as if it were cut there and nothing were known of its size
(`parse_size_eq_parse_cut`). The size of a file is that of its bytes, so it cuts nothing off.
-/

namespace TabMarkup

open Compilation

/-- The bytes of a file, read with their number announced, are parsed as bytes of unknown
number. -/
theorem Compilation.parse_ofBytes_size (bytes : List UInt8) :
    parse (.ofBytes bytes) (some bytes.length) = parse (.ofBytes bytes) := by
  have hdeliver : (Source.ofBytes bytes).deliver none = { bytes } := Source.deliver_ofBytes bytes
  apply parse_eq_of_deliver
  rw [hdeliver]
  exact Source.deliver_size_of_eq hdeliver

/-- Whatever size is announced, a source is parsed like the same source cut after the first read
that reaches the size, with nothing known of its size. What stands behind the cut makes no
difference, be it a failure. A source that never reaches the size is parsed as it is. In
particular a file compiles like its bytes. -/
theorem parse_size_eq_parse_cut :
    (∀ (source : Source) (size k : Nat), source.ReachedBy size k →
      parse source (some size) = parse (source.cutAfter k) ∧
      ∀ rest, parse (source.cutAfter k ++ rest) (some size) = parse (source.cutAfter k)) ∧
    (∀ (source : Source) (size : Nat), (∀ k, (source.firstReads k).flatten.length < size) →
      parse source (some size) = parse source) ∧
    (∀ (source : Source) (size : Nat),
      (∃ k, source.ReachedBy size k) ∨ ∀ k, (source.firstReads k).flatten.length < size) ∧
    ∀ (fs : FileSystem) (path : String) (bytes : List UInt8) (time : Time),
      fs.stat path = .ok (.file bytes time) →
      (compileFile fs path).result = (compile (.ofBytes bytes)).result := by
  refine ⟨?_, ?_, fun source size => Source.exists_reachedBy_or size source, ?_⟩
  · intro source size k hreached
    have hcut := Source.deliver_cutAfter k source
    constructor
    · apply parse_eq_of_deliver
      rw [hcut, Source.deliver_size_of_reached hreached]
    · intro rest
      apply parse_eq_of_deliver
      rw [hcut, hreached.cutAfter_append rest]
  · intro source size hnever
    apply parse_eq_of_deliver
    exact Source.deliver_size_of_not_reached hnever
  · intro fs path bytes time hstat
    have hparse := parse_ofBytes_size bytes
    rw [compileFile, hstat]
    simp only [compileEntry, compileBytes, compile, run, hparse]

end TabMarkup
