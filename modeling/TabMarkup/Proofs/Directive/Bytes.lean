import TabMarkup.Proofs.Directive.Parts
import TabMarkup.Proofs.Line.WellFormed

/-!
# Directives as bytes

The text of a directive is made of ASCII characters, each of which is one byte, and the bytes of
its names are names of the grammar. So a directive between double braces is an embedding, and the
embedding says this directive (`HasParts.embedding`).
-/

namespace TabMarkup

namespace Grammar

open Name Utf8

/-! ## ASCII texts -/

/-- A fact about all ASCII characters, character by character. -/
theorem forall_ascii {P : Char → Prop} (h : ∀ n : Fin 128, P (Char.ofNat n)) {c : Char}
    (hc : c.toNat < 128) : P c := by
  have hchar := h ⟨c.toNat, hc⟩
  rwa [Char.ofNat_toNat] at hchar

theorem asciiChar_toUInt8 {c : Char} (hc : c.toNat < 128) : asciiChar c.toUInt8 = c :=
  forall_ascii (P := fun c => asciiChar c.toUInt8 = c) (by decide +kernel) hc

theorem toUInt8_lt {c : Char} (hc : c.toNat < 128) : c.toUInt8 < 0x80 :=
  forall_ascii (P := fun c => c.toUInt8 < 0x80) (by decide +kernel) hc

theorem utf8EncodeChar_ascii {c : Char} (hc : c.toNat < 128) :
    String.utf8EncodeChar c = [c.toUInt8] :=
  forall_ascii (P := fun c => String.utf8EncodeChar c = [c.toUInt8]) (by decide +kernel) hc

theorem identifier_toUInt8 {c : Char} (hc : isIdentifierChar c = true) :
    Pattern.identifier.admits c.toUInt8 = true := by
  have hrange := isIdentifierChar_range hc
  have hascii : c.toNat < 128 := by omega
  exact forall_ascii (P := fun c => isIdentifierChar c = true →
    Pattern.identifier.admits c.toUInt8 = true) (by decide +kernel) hascii hc

theorem ascii_append (u v : List Char) : ascii (u ++ v) = ascii u ++ ascii v :=
  List.map_append

/-- ASCII characters are encoded by one byte each. -/
theorem encode_ascii {u : List Char} (hu : ∀ c ∈ u, c.toNat < 128) : encode u = ascii u := by
  induction u with
  | nil => rfl
  | cons c u ih =>
    have hc : String.utf8EncodeChar c = [c.toUInt8] :=
      utf8EncodeChar_ascii (hu c List.mem_cons_self)
    have hrest : encode u = ascii u := ih fun d hd => hu d (List.mem_cons_of_mem c hd)
    change String.utf8EncodeChar c ++ encode u = c.toUInt8 :: ascii u
    rw [hc, hrest, List.singleton_append]

/-- The bytes of an ASCII text are read as the text. -/
theorem text_ascii {u : List Char} (hu : ∀ c ∈ u, c.toNat < 128) :
    text (ascii u) = String.ofList u := by
  have hbytes : ∀ b ∈ ascii u, b < 0x80 := by
    intro b hb
    obtain ⟨c, hc, rfl⟩ := List.mem_map.mp hb
    exact toUInt8_lt (hu c hc)
  have hmap : (ascii u).map asciiChar = u := by
    rw [ascii, List.map_map]
    calc u.map (asciiChar ∘ Char.toUInt8) = u.map id :=
          List.map_congr_left fun c hc => asciiChar_toUInt8 (hu c hc)
      _ = u := List.map_id u
  rw [text, ← List.append_nil (ascii u), decodeLossy_ascii hbytes, hmap, decodeLossy_nil,
    List.append_nil]

/-! ## Names -/

/-- The bytes of an identifier are a run of identifier bytes. -/
theorem isRun_of_isIdentifier {x : List Char} (hx : IsIdentifier x) :
    IsRun .identifier (ascii x) := by
  have hname : isIdentifier x = true := isIdentifier_iff.mpr hx
  constructor
  · simpa [ascii] using hx.1
  · intro b hb
    obtain ⟨c, hc, rfl⟩ := List.mem_map.mp hb
    exact identifier_toUInt8 (isIdentifierChar_of_mem hname hc)

theorem segments_of_names {names : List (List Char)} (hne : names ≠ [])
    (hnames : ∀ x ∈ names, IsIdentifier x) : Segments (ascii (['\\'].intercalate names)) := by
  induction names with
  | nil => exact absurd rfl hne
  | cons x names ih =>
    have hx : IsRun .identifier (ascii x) := isRun_of_isIdentifier (hnames x List.mem_cons_self)
    cases names with
    | nil => simpa using Segments.single hx
    | cons y names =>
      have hrest : Segments (ascii (['\\'].intercalate (y :: names))) :=
        ih (by simp) fun z hz => hnames z (List.mem_cons_of_mem x hz)
      rw [List.intercalate_cons_cons, ascii_append, ascii_append]
      exact Segments.cons hx hrest

/-- The bytes of a path are a path of the grammar. -/
theorem path_of_isPath {p : List Char} (hp : IsPath p) : Path (ascii p) := by
  obtain ⟨root, names, hroot, hne, hnames, rfl⟩ := hp
  have hsegments := segments_of_names hne hnames
  rcases hroot with rfl | rfl
  · exact Path.plain hsegments
  · rw [ascii_append]
    exact Path.rooted hsegments

end Grammar

namespace Directive

open Grammar Name

/-- The characters of the text of a directive are ASCII. -/
theorem toNat_lt_of_isBodyChar {c : Char} (hc : isBodyChar c = true) : c.toNat < 128 := by
  rcases Bool.or_eq_true_iff.mp hc with hc | hc
  · have hrange := isIdentifierChar_range hc
    omega
  · simp only [List.contains_iff_mem, List.mem_cons, List.not_mem_nil, or_false] at hc
    rcases hc with rfl | rfl | rfl | rfl | rfl | rfl | rfl <;> decide

theorem text_of_isIdentifier {name : String} (hname : IsIdentifier name.toList) :
    text (ascii name.toList) = name := by
  have hascii : ∀ c ∈ name.toList, c.toNat < 128 := fun c hc =>
    toNat_lt_of_isBodyChar (isBodyChar_of_isIdentifier (isIdentifier_iff.mpr hname) c hc)
  rw [text_ascii hascii, String.ofList_toList]

theorem text_of_isPath {path : String} (hpath : IsPath path.toList) :
    text (ascii path.toList) = path := by
  have hascii : ∀ c ∈ path.toList, c.toNat < 128 := fun c hc =>
    toNat_lt_of_isBodyChar (isBodyChar_of_isPath (isPath_iff.mpr hpath) c hc)
  rw [text_ascii hascii, String.ofList_toList]

/-- A directive between double braces is an embedding of the grammar that says the directive. -/
theorem HasParts.embedding {d : Directive} (hd : d.HasParts) :
    Embedding (Utf8.encode (['\x7b', '\x7b'] ++ d.body ++ ['\x7d', '\x7d'])) d := by
  have hascii : ∀ c ∈ ['\x7b', '\x7b'] ++ d.body ++ ['\x7d', '\x7d'], c.toNat < 128 := by
    have hbody : ∀ c ∈ d.body, c.toNat < 128 := fun c hc =>
      toNat_lt_of_isBodyChar ((wellFormed_iff.mpr hd).body_chars c hc)
    have hopening : ∀ c ∈ ['\x7b', '\x7b'], c.toNat < 128 := by simp
    have hclosing : ∀ c ∈ ['\x7d', '\x7d'], c.toNat < 128 := by simp
    exact List.forall_mem_append.mpr ⟨List.forall_mem_append.mpr ⟨hopening, hbody⟩, hclosing⟩
  rw [encode_ascii hascii]
  cases d with
  | value name =>
    have hvalue := Embedding.value (isRun_of_isIdentifier hd)
    rw [text_of_isIdentifier hd] at hvalue
    simpa [body, ascii] using hvalue
  | call object method =>
    obtain ⟨hobject, hmethod⟩ := hd
    have hcall := Embedding.call (isRun_of_isIdentifier hobject) (isRun_of_isIdentifier hmethod)
    rw [text_of_isIdentifier hobject, text_of_isIdentifier hmethod] at hcall
    simpa [body, ascii] using hcall
  | staticCall path method =>
    obtain ⟨hpath, hmethod⟩ := hd
    have hcall := Embedding.staticCall (path_of_isPath hpath) (isRun_of_isIdentifier hmethod)
    rw [text_of_isPath hpath, text_of_isIdentifier hmethod] at hcall
    simpa [body, ascii] using hcall
  | staticProperty path property =>
    obtain ⟨hpath, hproperty⟩ := hd
    have hstatic :=
      Embedding.staticProperty (path_of_isPath hpath) (isRun_of_isIdentifier hproperty)
    rw [text_of_isPath hpath, text_of_isIdentifier hproperty] at hstatic
    simpa [body, ascii] using hstatic

end Directive

end TabMarkup
