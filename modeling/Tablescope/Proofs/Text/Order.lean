import Tablescope.Proofs.Text.Utf8

/-!
# The order of UTF-8 bytes

Texts are ordered by their code points, and just so by their UTF-8 bytes: of two characters the one
with the smaller code point has the smaller byte where their bytes first differ, and the bytes of
neither begin those of the other. So whatever follows two different characters has no say in how
their texts are ordered.
-/

namespace Tablescope.Text.Utf8

/-! ### One character -/

/-- The smaller first byte decides, and behind the same first byte the rest does. -/
theorem ofNat_cons_lt_iff {m n : Nat} (hm : m < 256) (hn : n < 256) {xs ys : List UInt8} :
    UInt8.ofNat m :: xs < UInt8.ofNat n :: ys ↔ m < n ∨ m = n ∧ xs < ys := by
  rw [List.cons_lt_cons_iff, UInt8.lt_iff_toNat_lt, ← UInt8.toNat_inj,
    UInt8.toNat_ofNat_of_lt' hm, UInt8.toNat_ofNat_of_lt' hn]

/-- Numbers are ordered by the first digit to the base of 64 in which they differ. -/
theorem digits_lt {m n : Nat} (h : m < n) :
    m / 262144 < n / 262144 ∨ m / 262144 = n / 262144 ∧
      (m / 4096 % 64 < n / 4096 % 64 ∨ m / 4096 % 64 = n / 4096 % 64 ∧
        (m / 64 % 64 < n / 64 % 64 ∨ m / 64 % 64 = n / 64 % 64 ∧ m % 64 < n % 64)) := by
  rcases Nat.lt_trichotomy (m / 262144) (n / 262144) with hfirst | hfirst | hfirst
  · exact .inl hfirst
  · refine .inr ⟨hfirst, ?_⟩
    rcases Nat.lt_trichotomy (m / 4096 % 64) (n / 4096 % 64) with hsecond | hsecond | hsecond
    · exact .inl hsecond
    · exact .inr ⟨hsecond, by omega⟩
    · omega
  · omega

/-- The bytes of a character, whatever follows them, come before those of a greater one. -/
theorem utf8EncodeChar_append_lt {c d : Char} (h : c < d) (xs ys : List UInt8) :
    String.utf8EncodeChar c ++ xs < String.utf8EncodeChar d ++ ys := by
  have hlt : c.toNat < d.toNat := h
  have hdigits := digits_lt hlt
  obtain ⟨hc, -⟩ := toNat_bounds c
  obtain ⟨hd, -⟩ := toNat_bounds d
  have hcfirst : c.toNat / 262144 % 8 = c.toNat / 262144 := Nat.mod_eq_of_lt (by omega)
  have hdfirst : d.toNat / 262144 % 8 = d.toNat / 262144 := Nat.mod_eq_of_lt (by omega)
  unfold String.utf8EncodeChar
  simp only [show c.val.toNat = c.toNat from rfl, show d.val.toNat = d.toNat from rfl]
  generalize (xs < ys) = later
  -- one case for each pair of widths: a wider character has a greater first byte, and of two with
  -- one width the bytes have the digits of the code points
  repeat' split
  all_goals
    simp (disch := omega) only [List.cons_append, List.nil_append, ofNat_cons_lt_iff]
    omega

/-! ### Texts -/

theorem encodeChars_cons (c : Char) (cs : List Char) :
    encodeChars (c :: cs) = String.utf8EncodeChar c ++ encodeChars cs := List.flatMap_cons

theorem nil_lt_encodeChars_cons (c : Char) (cs : List Char) : [] < encodeChars (c :: cs) := by
  have hne : String.utf8EncodeChar c ≠ [] := by
    unfold String.utf8EncodeChar
    simp only
    repeat' split
    all_goals exact List.cons_ne_nil _ _
  obtain ⟨b, bs, hbytes⟩ := List.exists_cons_of_ne_nil hne
  rw [encodeChars_cons, hbytes]
  exact List.nil_lt_cons _ _

theorem encodeChars_lt {cs ds : List Char} (h : cs < ds) : encodeChars cs < encodeChars ds := by
  induction cs generalizing ds with
  | nil =>
    cases ds with
    | nil => exact absurd h (List.lt_irrefl _)
    | cons d ds => exact nil_lt_encodeChars_cons d ds
  | cons c cs ih =>
    cases ds with
    | nil => exact absurd h (List.not_lt_nil _)
    | cons d ds =>
      rw [encodeChars_cons, encodeChars_cons]
      rcases List.cons_lt_cons_iff.1 h with hcd | ⟨rfl, hrest⟩
      · exact utf8EncodeChar_append_lt hcd _ _
      · exact List.append_left_lt (ih hrest)

theorem encode_lt {s t : String} (h : s < t) : encode s < encode t :=
  encodeChars_lt (String.lt_iff.1 h)

/-- The UTF-8 bytes of texts are ordered as the texts are. -/
theorem encode_lt_encode_iff {s t : String} : encode s < encode t ↔ s < t := by
  constructor
  · intro h
    rcases Std.lt_trichotomy s t with hlt | rfl | hgt
    · exact hlt
    · exact absurd h (List.lt_irrefl _)
    · exact absurd h (List.lt_asymm (encode_lt hgt))
  · exact encode_lt

end Tablescope.Text.Utf8
