import TabMarkup.Text.Utf8

/-!
# What is encoded is decoded again

The bytes of a character are one well-formed sequence, whatever follows them. So a text that was
written as UTF-8 is read as the same text.
-/

namespace TabMarkup.Utf8

/-! ## First bytes -/

theorem lead_one : ∀ x < 0x80, lead (.ofNat x) = some ⟨0, 0x80, 0xBF, x⟩ := by
  decide

theorem lead_two : ∀ x < 0x20, 2 ≤ x → lead (.ofNat (x + 0xC0)) = some ⟨1, 0x80, 0xBF, x⟩ := by
  decide

theorem lead_three : ∀ x < 0x10, lead (.ofNat (x + 0xE0)) =
    some ⟨2, if x = 0 then 0xA0 else 0x80, if x = 0xD then 0x9F else 0xBF, x⟩ := by
  decide

theorem lead_four : ∀ x < 5, lead (.ofNat (x + 0xF0)) =
    some ⟨3, if x = 0 then 0x90 else 0x80, if x = 4 then 0x8F else 0xBF, x⟩ := by
  decide

/-! ## Characters -/

/-- A continuation byte in the range adds its six bits. -/
theorem follow_continuation (more : Nat) {low high : UInt8} {x : Nat} (hx : x < 0x40)
    (hlow : low.toNat ≤ x + 0x80) (hhigh : x + 0x80 ≤ high.toNat) (bits : Nat)
    (input : List UInt8) :
    follow (more + 1) low high bits (.ofNat (x + 0x80) :: input) =
      follow more 0x80 0xBF (bits * 64 + x) input := by
  have hbyte : (UInt8.ofNat (x + 0x80)).toNat = x + 0x80 := by
    rw [UInt8.toNat_ofNat']
    omega
  have hrange : low ≤ .ofNat (x + 0x80) ∧ .ofNat (x + 0x80) ≤ high := by
    rw [UInt8.le_iff_toNat_le, UInt8.le_iff_toNat_le, hbyte]
    exact ⟨hlow, hhigh⟩
  rw [follow, if_pos hrange, hbyte, Nat.add_sub_cancel]

/-- A continuation byte that is not the second of its sequence adds its six bits. -/
theorem follow_any (more bits : Nat) {x : Nat} (hx : x < 0x40) (input : List UInt8) :
    follow (more + 1) 0x80 0xBF bits (.ofNat (x + 0x80) :: input) =
      follow more 0x80 0xBF (bits * 64 + x) input :=
  follow_continuation more hx (by simp) (by simp; omega) bits input

/-- A first byte that announces a number, with the bytes that complete it, is a part. -/
theorem parts_of_follow {b : UInt8} {l : Lead} {input rest : List UInt8} {c : Char}
    (hlead : lead b = some l)
    (hfollow : follow l.more l.low l.high l.bits input = (some c.toNat, rest)) :
    parts (b :: input) = some c :: parts rest := by
  rw [parts, hlead]
  dsimp only
  rw [hfollow]
  simp [Char.ofNat_toNat]

/-- The bytes of a character are one part, in front of whatever follows. -/
theorem parts_encodeChar_append (c : Char) (rest : List UInt8) :
    parts (String.utf8EncodeChar c ++ rest) = some c :: parts rest := by
  have hvalid : c.toNat < 0xD800 ∨ 0xDFFF < c.toNat ∧ c.toNat < 0x110000 := c.valid
  have hval : c.val.toNat = c.toNat := rfl
  unfold String.utf8EncodeChar
  rw [hval]
  generalize hv : c.toNat = v at hvalid
  dsimp only
  -- One case for each number of bytes; what is left of each is that the bits add up.
  split
  · apply parts_of_follow (lead_one v (by omega))
    simp [follow, hv]
  split
  · simp only [List.cons_append, List.nil_append]
    apply parts_of_follow (lead_two (v / 64 % 0x20) (by omega) (by omega))
    rw [follow_any 0 _ (by omega)]
    simp [follow, hv]
    omega
  split
  · simp only [List.cons_append, List.nil_append]
    apply parts_of_follow (lead_three (v / 4096 % 0x10) (by omega))
    dsimp only
    rw [follow_continuation 1 (by omega) ?_ ?_,
      follow_any 0 _ (by omega)]
    · simp [follow, hv]
      omega
    · split
      · simp
        omega
      · simp
    · split <;> simp <;> omega
  · simp only [List.cons_append, List.nil_append]
    apply parts_of_follow (lead_four (v / 262144 % 0x08) (by omega))
    dsimp only
    rw [follow_continuation 2 (by omega) ?_ ?_, follow_any 1 _ (by omega),
      follow_any 0 _ (by omega)]
    · simp [follow, hv]
      omega
    · split
      · simp
        omega
      · simp
    · split <;> simp <;> omega

/-- The parts of an encoded text are its characters. -/
theorem parts_encode (text : List Char) : parts (encode text) = text.map some := by
  induction text with
  | nil => simp [encode, parts]
  | cons c text ih =>
    have hcons : encode (c :: text) = String.utf8EncodeChar c ++ encode text := rfl
    rw [hcons, parts_encodeChar_append, ih, List.map_cons]

/-- What is encoded is decoded again. -/
theorem decode?_encode (text : List Char) : decode? (encode text) = some text := by
  rw [decode?, parts_encode]
  induction text with
  | nil => rfl
  | cons c text ih => simp [ih]

end TabMarkup.Utf8
