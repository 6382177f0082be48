import Mathlib.Tactic.Ring
import TabMarkup.Proofs.Text.Encoding
import TabMarkup.Proofs.Text.Utf8

/-!
# The text that bytes are read as

Bytes that are read as UTF-8, one U+FFFD for every ill-formed part, and written again are a
well-formed text, and it is read as they are (`decodeLossy_lossy`). The ASCII bytes keep their
places in it: what stands between two of them is replaced on its own (`lossy_append`), by bytes
that are not ASCII either (`mem_lossy`) and by none only where there were none (`lossy_eq_nil`).
-/

namespace TabMarkup.Utf8

/-- The bytes of the text that a byte text is read as. -/
def lossy (bytes : List UInt8) : List UInt8 :=
  encode (decodeLossy bytes)

/-- An encoded text is read as it is. -/
theorem decodeLossy_encode (text : List Char) : decodeLossy (encode text) = text := by
  rw [decodeLossy, parts_encode, List.map_map]
  exact List.map_id text

/-- The text that bytes are read as is read as they are. -/
theorem decodeLossy_lossy (w : List UInt8) : decodeLossy (lossy w) = decodeLossy w :=
  decodeLossy_encode (decodeLossy w)

/-! ## ASCII bytes -/

theorem utf8EncodeChar_asciiChar {b : UInt8} (hb : b < 0x80) :
    String.utf8EncodeChar (asciiChar b) = [b] := by
  have hlt : b.toNat < 128 := hb
  have hall : ∀ n < 128, String.utf8EncodeChar (Char.ofNat n) = [UInt8.ofNat n] := by
    decide +kernel
  rw [asciiChar, hall b.toNat hlt, UInt8.ofNat_toNat]

@[simp] theorem lossy_nil : lossy [] = [] := by
  rw [lossy, decodeLossy_nil]
  rfl

/-- Both sides of an ASCII byte are replaced on their own. -/
theorem lossy_append_ascii {b : UInt8} (hb : b < 0x80) (u v : List UInt8) :
    lossy (u ++ b :: v) = lossy u ++ b :: lossy v := by
  rw [lossy, decodeLossy_append_ascii hb, encode, List.flatMap_append, List.flatMap_cons,
    utf8EncodeChar_asciiChar hb]
  rfl

/-- An ASCII byte at the front stays there. -/
theorem lossy_cons_ascii {b : UInt8} (hb : b < 0x80) (v : List UInt8) :
    lossy (b :: v) = b :: lossy v := by
  simpa using lossy_append_ascii hb [] v

/-- ASCII bytes are not replaced. -/
theorem lossy_ascii_append {w : List UInt8} (hw : ∀ b ∈ w, b < 0x80) (v : List UInt8) :
    lossy (w ++ v) = w ++ lossy v := by
  induction w with
  | nil => rfl
  | cons b w ih =>
    rw [List.cons_append, lossy_cons_ascii (hw b (by simp)), ih fun c hc => hw c (by simp [hc]),
      List.cons_append]

/-- Bytes are replaced on their own up to an ASCII byte or the end. -/
theorem lossy_append (u : List UInt8) {rest : List UInt8} (hrest : ∀ b ∈ rest.head?, b < 0x80) :
    lossy (u ++ rest) = lossy u ++ lossy rest := by
  cases rest with
  | nil => simp
  | cons b v =>
    have hb : b < 0x80 := hrest b rfl
    rw [lossy_append_ascii hb, lossy_cons_ascii hb]

/-- Between ASCII bytes only what is between them is replaced. -/
theorem lossy_between {before after : List UInt8} (hbefore : ∀ b ∈ before, b < 0x80)
    (hafter : ∀ b ∈ after, b < 0x80) (u : List UInt8) :
    lossy (before ++ u ++ after) = before ++ lossy u ++ after := by
  have hend : lossy after = after := by
    simpa using lossy_ascii_append hafter []
  have hfirst : ∀ b ∈ after.head?, b < 0x80 := fun b hb => hafter b (List.mem_of_mem_head? hb)
  rw [List.append_assoc, lossy_ascii_append hbefore, lossy_append u hfirst, hend,
    List.append_assoc]

/-! ## Other bytes -/

/-- What follows a sequence is an end of the input. -/
theorem follow_suffix (more : Nat) (low high : UInt8) (bits : Nat) (input : List UInt8) :
    (follow more low high bits input).2 <:+ input := by
  induction input generalizing more low high bits with
  | nil => cases more <;> simp [follow]
  | cons b input ih =>
    cases more with
    | zero => simp [follow]
    | succ more =>
      rw [follow]
      split
      · exact (ih _ _ _ _).trans (List.suffix_cons b input)
      · exact List.suffix_refl _

/-- A sequence goes on with a byte in the range. -/
theorem follow_eq_some {more : Nat} {low high : UInt8} {bits n : Nat} {input : List UInt8}
    (h : (follow (more + 1) low high bits input).1 = some n) :
    ∃ b rest, low ≤ b ∧ b ≤ high ∧
      (follow more 0x80 0xBF (bits * 64 + (b.toNat - 0x80)) rest).1 = some n := by
  cases input with
  | nil => cases h
  | cons b rest =>
    rw [follow] at h
    split at h
    · rename_i hrange
      exact ⟨b, rest, hrange.1, hrange.2, h⟩
    · cases h

/-- Every byte that follows adds six bits. -/
theorem bits_of_follow {more bits n : Nat} {input : List UInt8}
    (h : (follow more 0x80 0xBF bits input).1 = some n) :
    bits * 64 ^ more ≤ n ∧ n < (bits + 1) * 64 ^ more := by
  induction more generalizing bits input with
  | zero =>
    cases h
    simp
  | succ more ih =>
    obtain ⟨b, rest, hlow, hhigh, hrest⟩ := follow_eq_some h
    obtain ⟨hle, hlt⟩ := ih hrest
    have hb : b.toNat - 0x80 < 64 := by
      have : b.toNat ≤ 0xBF := hhigh
      omega
    constructor
    · calc bits * 64 ^ (more + 1) = bits * 64 * 64 ^ more := by ring
        _ ≤ (bits * 64 + (b.toNat - 0x80)) * 64 ^ more :=
            Nat.mul_le_mul_right _ (Nat.le_add_right _ _)
        _ ≤ n := hle
    · calc n < (bits * 64 + (b.toNat - 0x80) + 1) * 64 ^ more := hlt
        _ ≤ (bits * 64 + 64) * 64 ^ more := Nat.mul_le_mul_right _ (by omega)
        _ = (bits + 1) * 64 ^ (more + 1) := by ring

/-- The same with the range of the first byte that follows. -/
theorem bits_of_follow_succ {more : Nat} {low high : UInt8} {bits n : Nat} {input : List UInt8}
    (h : (follow (more + 1) low high bits input).1 = some n) :
    (bits * 64 + (low.toNat - 0x80)) * 64 ^ more ≤ n ∧
      n < (bits * 64 + (high.toNat - 0x80) + 1) * 64 ^ more := by
  obtain ⟨b, rest, hlow, hhigh, hrest⟩ := follow_eq_some h
  obtain ⟨hle, hlt⟩ := bits_of_follow hrest
  have hlow : low.toNat ≤ b.toNat := hlow
  have hhigh : b.toNat ≤ high.toNat := hhigh
  exact ⟨Nat.le_trans (Nat.mul_le_mul_right _ (by omega)) hle,
    Nat.lt_of_lt_of_le hlt (Nat.mul_le_mul_right _ (by omega))⟩

/-- The numbers that a first byte announces are no ASCII characters, and all of them are
characters: overlong forms are excluded, and so are surrogates. -/
theorem lead_range : ∀ x < 0x100, 0x80 ≤ x → ∀ l ∈ lead (.ofNat x), 0 < l.more ∧
    0x80 ≤ (l.bits * 64 + (l.low.toNat - 0x80)) * 64 ^ (l.more - 1) ∧
    ((l.bits * 64 + (l.high.toNat - 0x80) + 1) * 64 ^ (l.more - 1) ≤ 0xD800 ∨
      0xDFFF < (l.bits * 64 + (l.low.toNat - 0x80)) * 64 ^ (l.more - 1) ∧
        (l.bits * 64 + (l.high.toNat - 0x80) + 1) * 64 ^ (l.more - 1) ≤ 0x110000) := by
  decide +kernel

/-- A sequence that begins with another byte than an ASCII one holds no ASCII character. -/
theorem ofNat_of_follow {b : UInt8} {l : Lead} {input : List UInt8} {n : Nat} (hb : 0x80 ≤ b)
    (hlead : lead b = some l) (h : (follow l.more l.low l.high l.bits input).1 = some n) :
    0x80 ≤ (Char.ofNat n).toNat := by
  obtain ⟨more, low, high, bits⟩ := l
  have hrange := lead_range b.toNat b.toNat_lt hb
  rw [UInt8.ofNat_toNat, hlead] at hrange
  obtain ⟨hmore, hlow, hhigh⟩ := hrange _ rfl
  cases more with
  | zero => cases hmore
  | succ more =>
    dsimp only at h hlow hhigh
    obtain ⟨hle, hlt⟩ := bits_of_follow_succ h
    rw [Nat.add_sub_cancel] at hlow hhigh
    have hvalid : n.isValidChar := by
      unfold Nat.isValidChar
      omega
    have hn : (Char.ofNat n).toNat = n := by
      rw [Char.ofNat, dif_pos hvalid]
      rfl
    omega

/-- Before a byte that is not ASCII comes a part that holds no ASCII character. -/
theorem decodeLossy_cons_of_le {b : UInt8} (hb : 0x80 ≤ b) (v : List UInt8) :
    ∃ c rest, decodeLossy (b :: v) = c :: decodeLossy rest ∧ 0x80 ≤ c.toNat ∧ rest <:+ v := by
  have hreplacement : 0x80 ≤ replacement.toNat := by decide
  cases hlead : lead b with
  | none =>
    refine ⟨replacement, v, ?_, hreplacement, List.suffix_refl v⟩
    rw [decodeLossy, parts, hlead]
    rfl
  | some l =>
    refine ⟨((follow l.more l.low l.high l.bits v).1.map Char.ofNat).getD replacement, _, ?_, ?_,
      follow_suffix l.more l.low l.high l.bits v⟩
    · rw [decodeLossy, parts, hlead]
      rfl
    · cases hfollow : (follow l.more l.low l.high l.bits v).1 with
      | none => exact hreplacement
      | some n => exact ofNat_of_follow hb hlead hfollow

/-- Bytes that are not ASCII are read as characters that are not. -/
theorem le_of_mem_decodeLossy {w : List UInt8} (hw : ∀ b ∈ w, 0x80 ≤ b) {c : Char}
    (hc : c ∈ decodeLossy w) : 0x80 ≤ c.toNat := by
  induction hn : w.length using Nat.strongRecOn generalizing w with
  | ind n ih =>
    cases w with
    | nil => simp at hc
    | cons b w =>
      obtain ⟨d, rest, hcons, hd, hrest⟩ := decodeLossy_cons_of_le (hw b List.mem_cons_self) w
      have hlength : rest.length < n := by
        rw [← hn, List.length_cons]
        exact Nat.lt_succ_of_le hrest.length_le
      rw [hcons] at hc
      rcases List.mem_cons.mp hc with rfl | hc
      · exact hd
      · exact ih rest.length hlength
          (fun b' hb' => hw b' (List.mem_cons_of_mem b (hrest.mem hb'))) hc rfl

/-- The bytes of a character that is not ASCII are not ASCII either. -/
theorem le_of_mem_utf8EncodeChar {c : Char} (hc : 0x80 ≤ c.toNat) {b : UInt8}
    (hb : b ∈ String.utf8EncodeChar c) : 0x80 ≤ b := by
  have hval : c.val.toNat = c.toNat := rfl
  have hbyte {x : Nat} (hlow : 0x80 ≤ x) (hhigh : x < 0x100) : (0x80 : UInt8) ≤ .ofNat x := by
    rw [UInt8.le_iff_toNat_le, UInt8.toNat_ofNat']
    change 0x80 ≤ x % 256
    omega
  unfold String.utf8EncodeChar at hb
  rw [hval] at hb
  generalize c.toNat = v at hc hb
  dsimp only at hb
  split at hb
  · omega
  split at hb
  · simp only [List.mem_cons, List.not_mem_nil, or_false] at hb
    rcases hb with rfl | rfl <;> exact hbyte (by omega) (by omega)
  split at hb
  · simp only [List.mem_cons, List.not_mem_nil, or_false] at hb
    rcases hb with rfl | rfl | rfl <;> exact hbyte (by omega) (by omega)
  · simp only [List.mem_cons, List.not_mem_nil, or_false] at hb
    rcases hb with rfl | rfl | rfl | rfl <;> exact hbyte (by omega) (by omega)

/-- Bytes that are not ASCII are replaced by bytes that are not. -/
theorem le_of_mem_lossy {w : List UInt8} (hw : ∀ b ∈ w, 0x80 ≤ b) {b : UInt8} (hb : b ∈ lossy w) :
    0x80 ≤ b := by
  obtain ⟨c, hc, hb⟩ := List.mem_flatMap.mp hb
  exact le_of_mem_utf8EncodeChar (le_of_mem_decodeLossy hw hc) hb

/-- No ASCII byte comes in that was not there. -/
theorem mem_lossy {w : List UInt8} {b : UInt8} (hb : b ∈ lossy w) : b ∈ w ∨ 0x80 ≤ b := by
  induction hn : w.length using Nat.strongRecOn generalizing w with
  | ind n ih =>
    by_cases hw : ∀ c ∈ w, 0x80 ≤ c
    · exact Or.inr (le_of_mem_lossy hw hb)
    · obtain ⟨c, hc, hascii⟩ : ∃ c ∈ w, c < 0x80 := by simpa using hw
      obtain ⟨u, v, rfl⟩ := List.append_of_mem hc
      have hlength : u.length < n ∧ v.length < n := by
        rw [← hn, List.length_append, List.length_cons]
        omega
      rw [lossy_append_ascii hascii, List.mem_append, List.mem_cons] at hb
      rcases hb with hb | rfl | hb
      · exact (ih u.length hlength.1 hb rfl).imp_left fun hu => by simp [hu]
      · exact Or.inl hc
      · exact (ih v.length hlength.2 hb rfl).imp_left fun hv => by simp [hv]

/-- The first byte stays or, if it is not ASCII, may be replaced by another one that is not. -/
theorem lossy_cons (b : UInt8) (v : List UInt8) :
    ∃ b' v', lossy (b :: v) = b' :: v' ∧ (b' = b ∨ 0x80 ≤ b ∧ 0x80 ≤ b') := by
  rcases UInt8.lt_or_le b 0x80 with hb | hb
  · exact ⟨b, lossy v, lossy_cons_ascii hb v, Or.inl rfl⟩
  · obtain ⟨c, rest, hcons, hc, _⟩ := decodeLossy_cons_of_le hb v
    obtain ⟨b', u, hfirst⟩ : ∃ b' u, String.utf8EncodeChar c = b' :: u := by
      apply List.exists_cons_of_length_pos
      rw [String.length_utf8EncodeChar]
      exact c.utf8Size_pos
    refine ⟨b', u ++ lossy rest, ?_, Or.inr ⟨hb, le_of_mem_utf8EncodeChar hc (by simp [hfirst])⟩⟩
    rw [lossy, hcons, encode, List.flatMap_cons, hfirst]
    rfl

/-- Only the empty text has no bytes. -/
@[simp] theorem lossy_eq_nil {w : List UInt8} : lossy w = [] ↔ w = [] := by
  cases w with
  | nil => simp
  | cons b v =>
    obtain ⟨b', v', hcons, _⟩ := lossy_cons b v
    simp [hcons]

end TabMarkup.Utf8
