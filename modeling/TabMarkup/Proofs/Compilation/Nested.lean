import TabMarkup.Proofs.Compilation.Render
import TabMarkup.Proofs.Nested

/-!
# What compiles is well nested

However the lines of a source are indented, the tags of its fragments are opened and closed like
brackets, and each of its tag lines opens one (`wellNested_of_compile`).
-/

namespace TabMarkup

open Fragment Grammar

namespace Compilation

/-- The lines of a source that compiles are well formed. -/
theorem wellFormed_of_document {number : Nat} {ws : List (List UInt8)} {lines : List Line}
    (hlines : Document number ws lines) : ∀ line ∈ lines, line.WellFormed := by
  intro line hline
  obtain ⟨_, _, htext⟩ := hlines.lineText_of_mem hline
  exact htext.wellFormed

/-- All fragments that a source compiles to are well formed. -/
theorem wellFormed_of_mem {source : Source} {q : FragmentQueue}
    (hq : (compile source).result = .ok q) : ∀ f ∈ q.toList, f.WellFormed := by
  obtain ⟨bytes, lines, _, hlines, hfragments⟩ := exists_document hq
  rw [hfragments]
  exact Nesting.wellFormed_of_mem_fragmentsOf (wellFormed_of_document hlines) 0 (by simp)

end Compilation

/-- The fragments of any source that compiles, read from left to right with a stack of open tags:
every tag that is closed is the innermost open one, and none is left open. There are as many opened
tags as tag lines, items stand right behind the tag that they belong to, and names are names. -/
theorem wellNested_of_compile {source : Source} {q : FragmentQueue}
    (hq : (compile source).result = .ok q) :
    q.toList.foldlM openAfter [] = some [] ∧
    (∃ bytes, source.deliver none = { bytes } ∧
      q.toList.countP opens = (bytes.splitOn 10).countP beginsTag) ∧
    Arranged q.toList ∧
    ∀ f ∈ q.toList, f.HasNames := by
  obtain ⟨bytes, lines, hdeliver, hlines, hfragments⟩ := Compilation.exists_document hq
  have hentries : ∀ tabs number name entries,
      Line.tag tabs number name (.items entries) ∈ lines → entries ≠ [] := by
    intro tabs number name entries hmem
    have hline := Compilation.wellFormed_of_document hlines _ hmem
    exact hline.2.1
  refine ⟨?_, ⟨bytes, hdeliver, ?_⟩, ?_, ?_⟩
  · rw [hfragments]
    exact Nesting.foldlM_fragmentsOf 0 [] lines
  · rw [hfragments, Nesting.countP_opens_fragmentsOf, hlines.countP_beginsTag]
  · rw [hfragments]
    exact Nesting.arranged_fragmentsOf 0 [] hentries
  · intro f hf
    exact (Compilation.wellFormed_of_mem hq f hf).hasNames

/-- A tag two levels too deep: the lines are `ul`, with three tabs `li x='1' {{$y}}`, and with one
tab `p|a`, which closes both tags before it. -/
theorem wellNested_of_overIndented :
    ∃ q, (compile (.ofBytes [0x75, 0x6C, 0x0A, 0x09, 0x09, 0x09, 0x6C, 0x69, 0x20, 0x78, 0x3D, 0x27,
        0x31, 0x27, 0x20, 0x7B, 0x7B, 0x24, 0x79, 0x7D, 0x7D, 0x0A, 0x09, 0x70, 0x7C,
        0x61])).result = .ok q ∧
      q.toList.foldlM openAfter [] = some [] ∧ q.toList.countP opens = 3 ∧ Arranged q.toList ∧
      ∀ f ∈ q.toList, f.HasNames := by
  have hq : (compile (.ofBytes [0x75, 0x6C, 0x0A, 0x09, 0x09, 0x09, 0x6C, 0x69, 0x20, 0x78, 0x3D,
      0x27, 0x31, 0x27, 0x20, 0x7B, 0x7B, 0x24, 0x79, 0x7D, 0x7D, 0x0A, 0x09, 0x70, 0x7C,
      0x61])).result = .ok { fragments :=
        #[.openTag "ul", .halfOpenTag "li", .attr "x='1'", .rawText " ", .directive (.value "y"),
          .rawText ">", .closeTag "li", .closeTag "ul", .openTag "p", .rawText "a",
          .closeTag "p"] } := by
    decide +kernel
  obtain ⟨hnested, _, harranged, hnames⟩ := wellNested_of_compile hq
  exact ⟨_, hq, hnested, by decide, harranged, hnames⟩

end TabMarkup
