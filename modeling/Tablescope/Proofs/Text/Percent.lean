import Tablescope.Text.Percent
import Tablescope.Proofs.Text.Utf8

/-!
# Percent coding is read back

Decoding undoes the coding of every text. A coded byte is either an unreserved character, which
stands for itself, or a triple `%XX`, whose digits are read as the byte; nothing else occurs in a
coded text, in particular no comma.
-/

namespace Tablescope.Text.Percent

/-! ### Digits -/

theorem value?_upper {n : Nat} (h : n < 16) : Hex.value? (Hex.upper n) = some n := by
  revert n
  decide

theorem isUnreserved_upper {n : Nat} (h : n < 16) : isUnreserved (Hex.upper n) = true := by
  revert n
  decide

/-! ### Unreserved characters -/

theorem toNat_lt_of_isUnreserved {c : Char} (h : isUnreserved c = true) : c.toNat < 0x80 := by
  have hv : c.val.toNat = c.toNat := rfl
  delta isUnreserved Char.isAlphanum Char.isAlpha Char.isUpper Char.isLower Char.isDigit at h
  simp only [Bool.or_eq_true, Bool.and_eq_true, decide_eq_true_eq, beq_iff_eq, ge_iff_le,
    UInt32.le_iff_toNat_le, Char.reduceVal, UInt32.reduceToNat, hv] at h
  rcases h with ((((h | h) | h) | h) | h) | h
  · omega
  · omega
  · subst h; decide
  · subst h; decide
  · subst h; decide
  · subst h; decide

theorem ne_percent_of_isUnreserved {c : Char} (h : isUnreserved c = true) : c ≠ '%' := by
  rintro rfl
  exact absurd h (by decide)

theorem toNat_charOfNat {n : Nat} (h : n < 256) : (Char.ofNat n).toNat = n := by
  rw [Char.ofNat, dif_pos (.inl (by omega))]
  rfl

/-- A byte below `80` is all of its character. -/
theorem utf8EncodeChar_ofNat {b : UInt8} (h : (Char.ofNat b.toNat).toNat < 0x80) :
    String.utf8EncodeChar (Char.ofNat b.toNat) = [b] := by
  have hc : (Char.ofNat b.toNat).val.toNat = b.toNat := toNat_charOfNat b.toNat_lt
  have hb : b.toNat ≤ 0x7F := by
    have : (Char.ofNat b.toNat).val.toNat < 0x80 := h
    omega
  rw [String.utf8EncodeChar, hc, if_pos hb, UInt8.ofNat_toNat]

/-! ### Coded bytes -/

/-- A character other than `%` stands for its own bytes. -/
theorem decodeChars_cons_of_ne {c : Char} (h : c ≠ '%') (rest : List Char) :
    decodeChars (c :: rest) = String.utf8EncodeChar c ++ decodeChars rest := by
  rw [decodeChars]
  rintro _ _ _ rfl
  exact absurd rfl h

theorem decodeChars_encodeByte (b : UInt8) (rest : List Char) :
    decodeChars (encodeByte b ++ rest) = b :: decodeChars rest := by
  have hb := b.toNat_lt
  rw [encodeByte]
  split
  · next h =>
    rw [List.cons_append, List.nil_append, decodeChars_cons_of_ne (ne_percent_of_isUnreserved h),
      utf8EncodeChar_ofNat (toNat_lt_of_isUnreserved h)]
    rfl
  · rw [List.cons_append, List.cons_append, List.cons_append, List.nil_append, decodeChars,
      value?_upper (by omega), value?_upper (by omega)]
    simp only
    rw [show 16 * (b.toNat / 16) + b.toNat % 16 = b.toNat by omega, UInt8.ofNat_toNat]

theorem decodeChars_flatMap_encodeByte (bytes : List UInt8) :
    decodeChars (bytes.flatMap encodeByte) = bytes := by
  induction bytes with
  | nil => rfl
  | cons b bytes ih => rw [List.flatMap_cons, decodeChars_encodeByte, ih]

/-! ### Coded texts -/

theorem decodeChars_encodeChars (cs : List Char) :
    decodeChars (encodeChars cs) = Utf8.encodeChars cs := by
  rw [encodeChars, decodeChars_flatMap_encodeByte]

theorem decode_encode (s : String) : decode (encode s) = .ok s := by
  rw [decode, encode, String.toList_ofList, decodeChars_encodeChars, Utf8.decode_encodeChars,
    String.ofList_toList]

theorem encode_injective {s t : String} (h : encode s = encode t) : s = t := by
  have hd : decode (encode s) = decode (encode t) := by rw [h]
  rwa [decode_encode, decode_encode, Except.ok.injEq] at hd

/-- Only unreserved characters and `%` occur in a coded text. -/
theorem isUnreserved_of_mem_encodeChars {c : Char} {cs : List Char} (h : c ∈ encodeChars cs) :
    isUnreserved c = true ∨ c = '%' := by
  obtain ⟨b, -, hc⟩ := List.mem_flatMap.1 h
  have hb := b.toNat_lt
  rw [encodeByte] at hc
  split at hc
  · rw [List.mem_singleton] at hc
    exact .inl (hc ▸ ‹_›)
  · simp only [List.mem_cons, List.not_mem_nil, or_false] at hc
    rcases hc with rfl | rfl | rfl
    · exact .inr rfl
    · exact .inl (isUnreserved_upper (by omega))
    · exact .inl (isUnreserved_upper (by omega))

theorem comma_not_mem_encode (s : String) : ',' ∉ (encode s).toList := by
  intro h
  rw [encode, String.toList_ofList] at h
  rcases isUnreserved_of_mem_encodeChars h with h | h <;> exact absurd h (by decide)

/-! ### The form of a coded text -/

/-- The digits of an escape. -/
def hexDigits : List Char := "0123456789ABCDEF".toList

/-- Texts of ASCII letters, digits, `-`, `_`, `.` and `~` and of escapes `%XX` with upper-case
digits. -/
inductive UrlSafe : List Char → Prop where
  | nil : UrlSafe []
  | bare {c : Char} {cs : List Char} (h : c.isAlphanum = true ∨ c ∈ ['-', '_', '.', '~'])
      (hcs : UrlSafe cs) : UrlSafe (c :: cs)
  | escape {a b : Char} {cs : List Char} (ha : a ∈ hexDigits) (hb : b ∈ hexDigits)
      (hcs : UrlSafe cs) : UrlSafe ('%' :: a :: b :: cs)

theorem upper_mem_hexDigits {n : Nat} (h : n < 16) : Hex.upper n ∈ hexDigits := by
  revert n
  decide

theorem isUnreserved_iff {c : Char} :
    isUnreserved c = true ↔ c.isAlphanum = true ∨ c ∈ ['-', '_', '.', '~'] := by
  simp only [isUnreserved, Bool.or_eq_true, beq_iff_eq, List.mem_cons, List.not_mem_nil, or_false,
    or_assoc]

theorem urlSafe_encodeByte_append (b : UInt8) {cs : List Char} (h : UrlSafe cs) :
    UrlSafe (encodeByte b ++ cs) := by
  have hb := b.toNat_lt
  rw [encodeByte]
  split
  · next hu => exact .bare (isUnreserved_iff.1 hu) h
  · exact .escape (upper_mem_hexDigits (by omega)) (upper_mem_hexDigits (by omega)) h

theorem urlSafe_encode (s : String) : UrlSafe (encode s).toList := by
  rw [encode, String.toList_ofList, encodeChars]
  induction Utf8.encodeChars s.toList with
  | nil => exact .nil
  | cons b bytes ih =>
    rw [List.flatMap_cons]
    exact urlSafe_encodeByte_append b ih

end Tablescope.Text.Percent
