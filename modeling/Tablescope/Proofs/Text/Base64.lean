import Tablescope.Text.Base64

/-!
# Base64 is read back

A text stands for a byte string exactly if it is the one that the byte string is written as. The
letters are a bijection with the numbers below sixty-four and `=` is none of them, so a group of four
letters gives back the three, two or one bytes that it was made of, and is made of no others.
-/

namespace Tablescope.Text.Base64

/-! ### Letters -/

theorem value?_letter {n : Nat} (h : n < 64) : value? (letter n) = some n := by
  revert n
  decide

theorem letter_ne_pad {n : Nat} (h : n < 64) : letter n ≠ '=' := by
  revert n
  decide

/-- Letters are ASCII. -/
theorem toNat_lt_of_value? {c : Char} {n : Nat} (h : value? c = some n) : c.toNat < 128 := by
  have hrange : ∀ first last : Char, last.toNat < 128 → (first ≤ c && c ≤ last) = true →
      c.toNat < 128 := by
    intro first last hlast hc
    simp only [Bool.and_eq_true, decide_eq_true_eq] at hc
    exact Nat.lt_of_le_of_lt hc.2 hlast
  unfold value? at h
  split at h
  · next hc => exact hrange _ _ (by decide) hc
  split at h
  · next hc => exact hrange _ _ (by decide) hc
  split at h
  · next hc => exact hrange _ _ (by decide) hc
  split at h
  · next hc =>
    subst hc
    decide
  split at h
  · next hc =>
    subst hc
    decide
  · cases h

theorem letter_of_value? {c : Char} {n : Nat} (h : value? c = some n) : letter n = c ∧ n < 64 := by
  have hascii : ∀ k < 128, ∀ n ∈ value? (Char.ofNat k), letter n = Char.ofNat k ∧ n < 64 := by
    decide
  have hc := hascii c.toNat (toNat_lt_of_value? h) n
  rw [Char.ofNat_toNat] at hc
  exact hc h

/-! ### Groups -/

theorem ofNat_eq_of_toNat {b : UInt8} {n : Nat} (h : n = b.toNat) : UInt8.ofNat n = b := by
  rw [h, UInt8.ofNat_toNat]

theorem three?_letters (a b c : UInt8) :
    three? (letter (a.toNat / 4)) (letter (a.toNat % 4 * 16 + b.toNat / 16))
      (letter (b.toNat % 16 * 4 + c.toNat / 64)) (letter (c.toNat % 64)) = some [a, b, c] := by
  have ha := a.toNat_lt
  have hb := b.toNat_lt
  have hc := c.toNat_lt
  simp only [three?, value?_letter (show a.toNat / 4 < 64 by omega),
    value?_letter (show a.toNat % 4 * 16 + b.toNat / 16 < 64 by omega),
    value?_letter (show b.toNat % 16 * 4 + c.toNat / 64 < 64 by omega),
    value?_letter (show c.toNat % 64 < 64 by omega), Option.bind_eq_bind, Option.bind_some]
  rw [ofNat_eq_of_toNat (b := a) (by omega), ofNat_eq_of_toNat (b := b) (by omega),
    ofNat_eq_of_toNat (b := c) (by omega)]

theorem lastTwo?_letters (a b : UInt8) :
    lastTwo? (letter (a.toNat / 4)) (letter (a.toNat % 4 * 16 + b.toNat / 16))
      (letter (b.toNat % 16 * 4)) = some [a, b] := by
  have ha := a.toNat_lt
  have hb := b.toNat_lt
  simp only [lastTwo?, value?_letter (show a.toNat / 4 < 64 by omega),
    value?_letter (show a.toNat % 4 * 16 + b.toNat / 16 < 64 by omega),
    value?_letter (show b.toNat % 16 * 4 < 64 by omega), Option.bind_eq_bind, Option.bind_some]
  rw [if_pos (by omega), ofNat_eq_of_toNat (b := a) (by omega),
    ofNat_eq_of_toNat (b := b) (by omega)]

theorem lastOne?_letters (a : UInt8) :
    lastOne? (letter (a.toNat / 4)) (letter (a.toNat % 4 * 16)) = some [a] := by
  have ha := a.toNat_lt
  simp only [lastOne?, value?_letter (show a.toNat / 4 < 64 by omega),
    value?_letter (show a.toNat % 4 * 16 < 64 by omega), Option.bind_eq_bind, Option.bind_some]
  rw [if_pos (by omega), ofNat_eq_of_toNat (b := a) (by omega)]

/-! ### Groups made of bytes -/

/-- Four letters are those of the three bytes that they stand for. -/
theorem encodeBytes_of_three? {a b c d : Char} {bytes : List UInt8}
    (h : three? a b c d = some bytes) (more : List UInt8) :
    encodeBytes (bytes ++ more) = a :: b :: c :: d :: encodeBytes more := by
  simp only [three?, Option.bind_eq_bind, Option.bind_eq_some_iff] at h
  obtain ⟨m, hm, n, hn, o, ho, p, hp, h⟩ := h
  cases h
  obtain ⟨rfl, hm⟩ := letter_of_value? hm
  obtain ⟨rfl, hn⟩ := letter_of_value? hn
  obtain ⟨rfl, ho⟩ := letter_of_value? ho
  obtain ⟨rfl, hp⟩ := letter_of_value? hp
  simp only [List.cons_append, List.nil_append, encodeBytes]
  rw [UInt8.toNat_ofNat_of_lt' (show m * 4 + n / 16 < 256 by omega),
    UInt8.toNat_ofNat_of_lt' (show n % 16 * 16 + o / 4 < 256 by omega),
    UInt8.toNat_ofNat_of_lt' (show o % 4 * 64 + p < 256 by omega),
    show (m * 4 + n / 16) / 4 = m by omega,
    show (m * 4 + n / 16) % 4 * 16 + (n % 16 * 16 + o / 4) / 16 = n by omega,
    show (n % 16 * 16 + o / 4) % 16 * 4 + (o % 4 * 64 + p) / 64 = o by omega,
    show (o % 4 * 64 + p) % 64 = p by omega]

/-- So are three before `=`. -/
theorem encodeBytes_of_lastTwo? {a b c : Char} {bytes : List UInt8}
    (h : lastTwo? a b c = some bytes) : encodeBytes bytes = [a, b, c, '='] := by
  simp only [lastTwo?, Option.bind_eq_bind, Option.bind_eq_some_iff,
    Option.ite_none_right_eq_some] at h
  obtain ⟨m, hm, n, hn, o, ho, hzero, h⟩ := h
  cases h
  obtain ⟨rfl, hm⟩ := letter_of_value? hm
  obtain ⟨rfl, hn⟩ := letter_of_value? hn
  obtain ⟨rfl, ho⟩ := letter_of_value? ho
  simp only [encodeBytes]
  rw [UInt8.toNat_ofNat_of_lt' (show m * 4 + n / 16 < 256 by omega),
    UInt8.toNat_ofNat_of_lt' (show n % 16 * 16 + o / 4 < 256 by omega),
    show (m * 4 + n / 16) / 4 = m by omega,
    show (m * 4 + n / 16) % 4 * 16 + (n % 16 * 16 + o / 4) / 16 = n by omega,
    show (n % 16 * 16 + o / 4) % 16 * 4 = o by omega]

/-- So are two before `==`. -/
theorem encodeBytes_of_lastOne? {a b : Char} {bytes : List UInt8}
    (h : lastOne? a b = some bytes) : encodeBytes bytes = [a, b, '=', '='] := by
  simp only [lastOne?, Option.bind_eq_bind, Option.bind_eq_some_iff,
    Option.ite_none_right_eq_some] at h
  obtain ⟨m, hm, n, hn, hzero, h⟩ := h
  cases h
  obtain ⟨rfl, hm⟩ := letter_of_value? hm
  obtain ⟨rfl, hn⟩ := letter_of_value? hn
  simp only [encodeBytes]
  rw [UInt8.toNat_ofNat_of_lt' (show m * 4 + n / 16 < 256 by omega),
    show (m * 4 + n / 16) / 4 = m by omega,
    show (m * 4 + n / 16) % 4 * 16 = n by omega]

/-! ### Byte strings -/

/-- Reading goes on behind a full group. -/
theorem decodeChars?_group {a b c d : Char} {rest : List Char} {bytes more : List UInt8}
    (hd : d ≠ '=') (hg : three? a b c d = some bytes) (hr : decodeChars? rest = some more) :
    decodeChars? (a :: b :: c :: d :: rest) = some (bytes ++ more) := by
  cases rest with
  | nil =>
    have hm : more = [] := by simpa [decodeChars?] using hr.symm
    rw [decodeChars?, if_neg hd, hg, hm, List.append_nil]
  | cons e rest =>
    rw [decodeChars?, hg, hr]
    · rfl
    · simp

theorem decodeChars?_encodeBytes (bytes : List UInt8) :
    decodeChars? (encodeBytes bytes) = some bytes := by
  induction bytes using encodeBytes.induct with
  | case1 => rfl
  | case2 a => rw [encodeBytes, decodeChars?, if_pos rfl, if_pos rfl, lastOne?_letters]
  | case3 a b =>
    have hb := b.toNat_lt
    rw [encodeBytes, decodeChars?, if_pos rfl, if_neg (letter_ne_pad (by omega)), lastTwo?_letters]
  | case4 a b c rest ih =>
    rw [encodeBytes, decodeChars?_group (letter_ne_pad (by omega)) (three?_letters a b c) ih]
    rfl

theorem encodeBytes_of_decodeChars? {cs : List Char} {bytes : List UInt8}
    (h : decodeChars? cs = some bytes) : encodeBytes bytes = cs := by
  fun_induction decodeChars? cs generalizing bytes with
  | case1 =>
    cases h
    rfl
  | case2 a b => exact encodeBytes_of_lastOne? h
  | case3 a b c hc => exact encodeBytes_of_lastTwo? h
  | case4 a b c d hd =>
    have hgroup := encodeBytes_of_three? h []
    rwa [List.append_nil] at hgroup
  | case5 a b c d rest _ ih =>
    obtain ⟨bytes, hbytes, h⟩ := Option.bind_eq_some_iff.1 h
    obtain ⟨more, hmore, h⟩ := Option.bind_eq_some_iff.1 h
    cases h
    rw [encodeBytes_of_three? hbytes, ih hmore]
  | case6 => cases h

theorem decode?_encode (bytes : List UInt8) : decode? (encode bytes) = some bytes := by
  rw [decode?, encode, String.toList_ofList, decodeChars?_encodeBytes]

/-- A text stands for a byte string exactly if it is what the byte string is written as. -/
theorem decode?_eq_some_iff {s : String} {bytes : List UInt8} :
    decode? s = some bytes ↔ encode bytes = s := by
  constructor
  · intro h
    rw [encode, encodeBytes_of_decodeChars? h, String.ofList_toList]
  · rintro rfl
    exact decode?_encode bytes

theorem decode?_eq_none_iff {s : String} : decode? s = none ↔ ∀ bytes, encode bytes ≠ s := by
  simp only [Option.eq_none_iff_forall_ne_some, ne_eq, decode?_eq_some_iff]

theorem encode_injective {bytes more : List UInt8} (h : encode bytes = encode more) :
    bytes = more := by
  have hd : decode? (encode bytes) = decode? (encode more) := by rw [h]
  rwa [decode?_encode, decode?_encode, Option.some.injEq] at hd

end Tablescope.Text.Base64
