import TabMarkup.Proofs.Grammar
import TabMarkup.Proofs.Render.Evaluation
import TabMarkup.Proofs.Text.Utf8

/-!
# What lines say is well formed

The texts of the grammar are bytes, the names of fragments are characters. Since names are made
of ASCII bytes, and attributes begin and end with one, what a line says keeps all that the grammar
asks of its text.
-/

namespace TabMarkup

/-- What the item says can be told apart in a composed document. -/
def Item.WellFormed : Item → Prop
  | .attr text => (Fragment.attr text).WellFormed
  | .directive d => d.WellFormed

/-- There are items if there is room for them, and all of them are well formed. -/
def TagBody.WellFormed : TagBody → Prop
  | .bare | .text _ => True
  | .items entries => entries ≠ [] ∧ ∀ i ∈ entries, i.WellFormed

/-- The names of the line are names. -/
def Line.WellFormed : Line → Prop
  | .blank => True
  | .directive _ d => d.WellFormed
  | .tag _ _ name body => Fragment.IsTagName name ∧ body.WellFormed

namespace Grammar

open Utf8

/-! ## Names -/

/-- A fact about all bytes, byte by byte. -/
theorem forall_byte {P : UInt8 → Prop} (h : ∀ n : Fin 256, P (UInt8.ofNat n)) (b : UInt8) :
    P b := by
  have := h ⟨b.toNat, b.toNat_lt⟩
  rwa [UInt8.ofNat_toNat] at this

theorem identifier_byte (b : UInt8) (hb : Pattern.identifier.admits b = true) :
    b < 0x80 ∧ Name.isIdentifierChar (asciiChar b) = true := by
  revert hb
  revert b
  apply forall_byte
  decide +kernel

theorem letter_byte (b : UInt8) (hb : Pattern.letter.admits b = true) :
    b < 0x80 ∧ (asciiChar b).isAlpha = true := by
  revert hb
  revert b
  apply forall_byte
  decide +kernel

theorem attributeName_byte (b : UInt8) (hb : Pattern.attributeName.admits b = true) :
    b < 0x80 ∧ Text.isBlank (asciiChar b) = false := by
  revert hb
  revert b
  apply forall_byte
  decide +kernel

/-- ASCII bytes as text. -/
theorem toList_text_ascii {w : List UInt8} (hw : ∀ b ∈ w, b < 0x80) :
    (text w).toList = w.map asciiChar := by
  rw [text, String.toList_ofList]
  simpa using decodeLossy_ascii hw []

/-- A run of identifier bytes is an identifier. -/
theorem IsRun.isIdentifier {x : List UInt8} (hx : IsRun .identifier x) :
    (∀ b ∈ x, b < 0x80) ∧ Name.isIdentifier (x.map asciiChar) = true := by
  refine ⟨fun b hb => (identifier_byte b (hx.2 b hb)).1, ?_⟩
  simp only [Name.isIdentifier, Bool.and_eq_true, List.all_eq_true]
  constructor
  · simpa using hx.1
  · intro c hc
    obtain ⟨b, hb, rfl⟩ := List.mem_map.mp hc
    exact (identifier_byte b (hx.2 b hb)).2

theorem IsRun.isIdentifier_text {x : List UInt8} (hx : IsRun .identifier x) :
    Name.isIdentifier (text x).toList = true := by
  obtain ⟨hascii, hname⟩ := hx.isIdentifier
  rwa [toList_text_ascii hascii]

/-- A run of letters is the name of a tag. -/
theorem IsRun.isTagName {x : List UInt8} (hx : IsRun .letter x) : Fragment.IsTagName (text x) := by
  unfold Fragment.IsTagName
  rw [toList_text_ascii fun b hb => (letter_byte b (hx.2 b hb)).1]
  constructor
  · simpa using hx.1
  · intro c hc
    obtain ⟨b, hb, rfl⟩ := List.mem_map.mp hc
    exact (letter_byte b (hx.2 b hb)).2

/-- Identifiers with backslashes between them are a path without a backslash in front. -/
theorem Segments.isPath {w : List UInt8} (hw : Segments w) :
    (∀ b ∈ w, b < 0x80) ∧
      (Text.splitOn '\\' (w.map asciiChar)).all Name.isIdentifier = true ∧
      ∃ c rest, w.map asciiChar = c :: rest ∧ c ≠ '\\' := by
  have hrun : ∀ {w : List UInt8}, IsRun .identifier w → ∃ c rest, w.map asciiChar = c :: rest ∧
      c ≠ '\\' ∧ '\\' ∉ w.map asciiChar := by
    intro w hw
    have hnotMem := Name.notMem_of_isIdentifier hw.isIdentifier.2 (c := '\\') rfl
    obtain ⟨b, w, rfl⟩ := List.exists_cons_of_ne_nil hw.1
    exact ⟨_, _, rfl, fun h => hnotMem (by simp [h]), hnotMem⟩
  induction hw with
  | single hw =>
    obtain ⟨hascii, hname⟩ := hw.isIdentifier
    obtain ⟨c, rest, hcons, hc, hnotMem⟩ := hrun hw
    exact ⟨hascii, by simp [Text.splitOn_of_notMem hnotMem, hname], c, rest, hcons, hc⟩
  | @cons w v hw hv ih =>
    obtain ⟨hascii, hname⟩ := hw.isIdentifier
    obtain ⟨hascii', hall, _⟩ := ih
    obtain ⟨c, rest, hcons, hc, hnotMem⟩ := hrun hw
    have hmap : (w ++ ascii ['\\'] ++ v).map asciiChar =
        w.map asciiChar ++ '\\' :: v.map asciiChar := by
      simp [ascii]
      rfl
    refine ⟨?_, ?_, c, rest ++ '\\' :: v.map asciiChar, by rw [hmap, hcons]; rfl, hc⟩
    · simp only [List.mem_append]
      rintro b ((hb | hb) | hb)
      · exact hascii b hb
      · rw [List.mem_singleton.mp hb]
        decide
      · exact hascii' b hb
    · rw [hmap, Text.splitOn_append, Text.splitOn_of_notMem hnotMem, List.singleton_append]
      simp [hname, hall]

/-- A path of the grammar is a path. -/
theorem Path.isPath_text {p : List UInt8} (hp : Path p) :
    Name.isPath (text p).toList = true := by
  cases hp with
  | plain hw =>
    obtain ⟨hascii, hall, c, rest, hcons, hc⟩ := hw.isPath
    have hroot : Name.withoutRoot (p.map asciiChar) = p.map asciiChar := by
      rw [hcons]
      unfold Name.withoutRoot
      split
      · rename_i heq
        cases heq
        exact absurd rfl hc
      · rfl
    rwa [toList_text_ascii hascii, Name.isPath, hroot]
  | @rooted w hw =>
    obtain ⟨hascii, hall, _⟩ := hw.isPath
    have hascii' : ∀ b ∈ ascii ['\\'] ++ w, b < 0x80 := by
      simp only [List.mem_append]
      rintro b (hb | hb)
      · rw [List.mem_singleton.mp hb]
        decide
      · exact hascii b hb
    rw [toList_text_ascii hascii']
    exact hall

/-! ## Lines -/

theorem Embedding.wellFormed {w : List UInt8} {d : Directive} (hw : Embedding w d) :
    d.WellFormed := by
  cases hw with
  | value hx => exact hx.isIdentifier_text
  | call hx hy => exact ⟨hx.isIdentifier_text, hy.isIdentifier_text⟩
  | staticCall hp hy => exact ⟨hp.isPath_text, hy.isIdentifier_text⟩
  | staticProperty hp hy => exact ⟨hp.isPath_text, hy.isIdentifier_text⟩

/-- An attribute begins with a character of its name and ends with a quote. -/
theorem Attribute.wellFormed {w : List UInt8} (hw : Attribute w) :
    (Fragment.attr (text w)).WellFormed := by
  cases hw with
  | @quoted x v q hx hq hv =>
    obtain ⟨b, x, rfl⟩ := List.exists_cons_of_ne_nil hx.1
    obtain ⟨hb, hblank⟩ := attributeName_byte b (hx.2 b (by simp))
    have hquote : q.toUInt8 < 0x80 ∧ Text.isBlank (asciiChar q.toUInt8) = false ∧
        asciiChar q.toUInt8 ≠ '<' := by
      rcases hq with rfl | rfl <;> decide
    have hfirst : (text (b :: x ++ ascii ['=', q] ++ v ++ ascii [q])).toList.head? =
        some (asciiChar b) := by
      rw [text, String.toList_ofList, List.cons_append, List.cons_append, List.cons_append,
        decodeLossy_cons_ascii hb]
      rfl
    have hlast : (text (b :: x ++ ascii ['=', q] ++ v ++ ascii [q])).toList.getLast? =
        some (asciiChar q.toUInt8) := by
      rw [text, String.toList_ofList]
      change (decodeLossy (_ ++ q.toUInt8 :: [])).getLast? = _
      rw [decodeLossy_append_ascii hquote.1, decodeLossy_nil]
      exact List.getLast?_concat
    refine ⟨Text.trim_eq_self ?_ ?_ ?_, ?_⟩
    · intro hnil
      rw [hnil] at hfirst
      cases hfirst
    · intro c hc
      rw [hfirst] at hc
      cases hc
      exact hblank
    · intro c hc
      rw [hlast] at hc
      cases hc
      exact hquote.2.1
    · rw [hlast]
      exact fun h => hquote.2.2 (Option.some.inj h)

theorem ItemText.wellFormed {w : List UInt8} {i : Item} (hw : ItemText w i) : i.WellFormed := by
  cases hw with
  | attr hw => exact hw.wellFormed
  | directive hw => exact hw.wellFormed

theorem ItemsText.wellFormed {w : List UInt8} {is : List Item} (hw : ItemsText w is) :
    is ≠ [] ∧ ∀ i ∈ is, i.WellFormed := by
  induction hw with
  | single hw => exact ⟨List.cons_ne_nil _ _, by simpa using hw.wellFormed⟩
  | cons hw hv ih =>
    exact ⟨List.cons_ne_nil _ _, List.forall_mem_cons.mpr ⟨hw.wellFormed, ih.2⟩⟩

/-- What a line of the grammar says is well formed. -/
theorem LineText.wellFormed {number : Nat} {w : List UInt8} {line : Line}
    (hw : LineText number w line) : line.WellFormed := by
  cases hw with
  | blank count => trivial
  | directive hw => exact hw.wellFormed
  | tag hx hw =>
    refine ⟨hx.isTagName, ?_⟩
    cases hw with
    | bare => trivial
    | text hv => trivial
    | items hw => exact hw.wellFormed

end Grammar

end TabMarkup
