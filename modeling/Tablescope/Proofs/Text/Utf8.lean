import Tablescope.Text.Utf8

/-!
# UTF-8 is read back

The bytes of a text are good UTF-8 and stand for that text and no other. The characters fall into
four classes by the number of their bytes; in each the first byte tells the width, the second is
one that may follow it, and the payload bits put together are the code point.
-/

namespace Tablescope.Text.Utf8

/-! ### One character, byte by byte -/

section Bytes

variable {a b c d : UInt8} {start : Nat} {rest : List UInt8}

theorem decodeFrom_one (hw : width? a = some 1) :
    decodeFrom start (a :: rest) = (Char.ofNat a.toNat :: ·) <$> decodeFrom (start + 1) rest := by
  rw [decodeFrom.eq_def]
  simp only [hw]
  exact bind_pure_comp _ _

theorem decodeFrom_two (hw : width? a = some 2) (hb : maySecond a b = true) :
    decodeFrom start (a :: b :: rest) =
      (Char.ofNat (a.toNat % 0x20 * 0x40 + tailBits b) :: ·) <$> decodeFrom (start + 2) rest := by
  rw [decodeFrom.eq_def]
  simp only [hw, hb, if_true]
  exact bind_pure_comp _ _

theorem decodeFrom_three (hw : width? a = some 3) (hb : maySecond a b = true)
    (hc : isTail c = true) :
    decodeFrom start (a :: b :: c :: rest) =
      (Char.ofNat (a.toNat % 0x10 * 0x1000 + tailBits b * 0x40 + tailBits c) :: ·) <$>
        decodeFrom (start + 3) rest := by
  rw [decodeFrom.eq_def]
  simp only [hw, hb, hc, Bool.not_true, Bool.false_eq_true, if_false]
  exact bind_pure_comp _ _

theorem decodeFrom_four (hw : width? a = some 4) (hb : maySecond a b = true)
    (hc : isTail c = true) (hd : isTail d = true) :
    decodeFrom start (a :: b :: c :: d :: rest) =
      (Char.ofNat
        (a.toNat % 0x08 * 0x40000 + tailBits b * 0x1000 + tailBits c * 0x40 + tailBits d) :: ·) <$>
        decodeFrom (start + 4) rest := by
  rw [decodeFrom.eq_def]
  simp only [hw, hb, hc, hd, Bool.not_true, Bool.false_eq_true, if_false]
  exact bind_pure_comp _ _

end Bytes

/-! ### The bytes of a character -/

theorem width?_eq_one {n : Nat} (h : n ≤ 0x7F) : width? (UInt8.ofNat n) = some 1 := by
  have hn := UInt8.toNat_ofNat_of_lt' (show n < 256 by omega)
  rw [width?, if_pos]
  rwa [UInt8.le_iff_toNat_le, hn]

theorem width?_eq_two {n : Nat} (h : 0xC2 ≤ n) (h' : n ≤ 0xDF) :
    width? (UInt8.ofNat n) = some 2 := by
  have hn := UInt8.toNat_ofNat_of_lt' (show n < 256 by omega)
  simp only [width?, UInt8.le_iff_toNat_le, hn, UInt8.reduceToNat, Bool.and_eq_true,
    decide_eq_true_eq]
  rw [if_neg (by omega), if_pos ⟨h, h'⟩]

theorem width?_eq_three {n : Nat} (h : 0xE0 ≤ n) (h' : n ≤ 0xEF) :
    width? (UInt8.ofNat n) = some 3 := by
  have hn := UInt8.toNat_ofNat_of_lt' (show n < 256 by omega)
  simp only [width?, UInt8.le_iff_toNat_le, hn, UInt8.reduceToNat, Bool.and_eq_true,
    decide_eq_true_eq]
  rw [if_neg (by omega), if_neg (by omega), if_pos ⟨h, h'⟩]

theorem width?_eq_four {n : Nat} (h : 0xF0 ≤ n) (h' : n ≤ 0xF4) :
    width? (UInt8.ofNat n) = some 4 := by
  have hn := UInt8.toNat_ofNat_of_lt' (show n < 256 by omega)
  simp only [width?, UInt8.le_iff_toNat_le, hn, UInt8.reduceToNat, Bool.and_eq_true,
    decide_eq_true_eq]
  rw [if_neg (by omega), if_neg (by omega), if_neg (by omega), if_pos ⟨h, h'⟩]

theorem isTail_ofNat (n : Nat) : isTail (UInt8.ofNat (n % 0x40 + 0x80)) = true := by
  have hn := UInt8.toNat_ofNat_of_lt' (show n % 0x40 + 0x80 < 256 by omega)
  simp only [isTail, UInt8.le_iff_toNat_le, hn, UInt8.reduceToNat, Bool.and_eq_true,
    decide_eq_true_eq]
  omega

theorem tailBits_ofNat (n : Nat) : tailBits (UInt8.ofNat (n % 0x40 + 0x80)) = n % 0x40 := by
  rw [tailBits, UInt8.toNat_ofNat_of_lt' (show _ < 256 by omega)]
  omega

/-- A tail byte may be second unless it is too small behind `E0` or `F0` or too great behind `ED`
or `F4`. -/
theorem maySecond_ofNat {m n : Nat} (hm : m < 256) (he0 : m = 0xE0 → 0x20 ≤ n % 0x40)
    (hed : m = 0xED → n % 0x40 < 0x20) (hf0 : m = 0xF0 → 0x10 ≤ n % 0x40)
    (hf4 : m = 0xF4 → n % 0x40 < 0x10) :
    maySecond (UInt8.ofNat m) (UInt8.ofNat (n % 0x40 + 0x80)) = true := by
  have ha := UInt8.toNat_ofNat_of_lt' hm
  have hb := UInt8.toNat_ofNat_of_lt' (show n % 0x40 + 0x80 < 256 by omega)
  simp only [maySecond, isTail, beq_iff_eq, ← UInt8.toNat_inj, UInt8.le_iff_toNat_le, ha, hb,
    UInt8.reduceToNat]
  split
  · have := he0 ‹_›
    simp only [Bool.and_eq_true, decide_eq_true_eq]
    omega
  split
  · have := hed ‹_›
    simp only [Bool.and_eq_true, decide_eq_true_eq]
    omega
  split
  · have := hf0 ‹_›
    simp only [Bool.and_eq_true, decide_eq_true_eq]
    omega
  split
  · have := hf4 ‹_›
    simp only [Bool.and_eq_true, decide_eq_true_eq]
    omega
  · simp only [Bool.and_eq_true, decide_eq_true_eq]
    omega

/-- Code points are below `110000` and none is a surrogate. -/
theorem toNat_bounds (c : Char) : c.toNat < 0x110000 ∧ (c.toNat < 0xD800 ∨ 0xE000 ≤ c.toNat) := by
  have h : c.toNat < 0xD800 ∨ (0xDFFF < c.toNat ∧ c.toNat < 0x110000) := c.valid
  omega

theorem ofNat_eq_of_toNat {c : Char} {n : Nat} (h : n = c.toNat) : Char.ofNat n = c := by
  rw [h, Char.ofNat_toNat]

/-- The bytes of a character are read as that character, whatever follows them. -/
theorem decodeFrom_utf8EncodeChar (start : Nat) (c : Char) (rest : List UInt8) :
    decodeFrom start (String.utf8EncodeChar c ++ rest) =
      (c :: ·) <$> decodeFrom (start + (String.utf8EncodeChar c).length) rest := by
  obtain ⟨hlt, hsur⟩ := toNat_bounds c
  unfold String.utf8EncodeChar
  simp only [show c.val.toNat = c.toNat from rfl]
  split
  · rw [List.cons_append, List.nil_append, decodeFrom_one (width?_eq_one ‹_›),
      UInt8.toNat_ofNat_of_lt' (show _ < 256 by omega), Char.ofNat_toNat]
    rfl
  split
  · rw [List.cons_append, List.cons_append, List.nil_append,
      decodeFrom_two (width?_eq_two (by omega) (by omega))
        (maySecond_ofNat (by omega) (by omega) (by omega) (by omega) (by omega)),
      UInt8.toNat_ofNat_of_lt' (show _ < 256 by omega), tailBits_ofNat,
      ofNat_eq_of_toNat (c := c) (by omega)]
    rfl
  split
  · rw [List.cons_append, List.cons_append, List.cons_append, List.nil_append,
      decodeFrom_three (width?_eq_three (by omega) (by omega))
        (maySecond_ofNat (by omega) (by omega) (by omega) (by omega) (by omega)) (isTail_ofNat _),
      UInt8.toNat_ofNat_of_lt' (show _ < 256 by omega), tailBits_ofNat, tailBits_ofNat,
      ofNat_eq_of_toNat (c := c) (by omega)]
    rfl
  · rw [List.cons_append, List.cons_append, List.cons_append, List.cons_append, List.nil_append,
      decodeFrom_four (width?_eq_four (by omega) (by omega))
        (maySecond_ofNat (by omega) (by omega) (by omega) (by omega) (by omega)) (isTail_ofNat _)
        (isTail_ofNat _),
      UInt8.toNat_ofNat_of_lt' (show _ < 256 by omega), tailBits_ofNat, tailBits_ofNat,
      tailBits_ofNat, ofNat_eq_of_toNat (c := c) (by omega)]
    rfl

/-! ### Texts -/

theorem decodeFrom_encodeChars (start : Nat) (cs : List Char) :
    decodeFrom start (encodeChars cs) = .ok cs := by
  induction cs generalizing start with
  | nil => rfl
  | cons c cs ih =>
    rw [encodeChars, List.flatMap_cons, decodeFrom_utf8EncodeChar]
    rw [show cs.flatMap String.utf8EncodeChar = encodeChars cs from rfl, ih]
    rfl

theorem decode_encodeChars (cs : List Char) : decode (encodeChars cs) = .ok (String.ofList cs) := by
  rw [decode, decodeFrom_encodeChars]
  rfl

end Tablescope.Text.Utf8
