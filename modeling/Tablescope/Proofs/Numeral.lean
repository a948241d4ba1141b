import Tablescope.Numeral
import Tablescope.Proofs.Text.Blank

/-!
# The characters of numerals

A text that is a number has digits, signs, points and the letter of an exponent in it and nothing
else. So no blank can be trimmed off a number.
-/

namespace Tablescope

namespace Numeral

/-- The characters that numerals are made of. -/
def IsNumeralChar (c : Char) : Prop :=
  c.isDigit = true ∨ c = '+' ∨ c = '-' ∨ c = '.' ∨ c = 'e' ∨ c = 'E'

theorem not_isBlank_of_isNumeralChar {c : Char} (h : IsNumeralChar c) : Text.isBlank c = false := by
  rcases h with h | h | h | h | h | h
  · simp only [Char.isDigit_iff_toNat, Char.reduceToNat] at h
    simp only [Text.isBlank, Bool.or_eq_false_iff, Bool.and_eq_false_iff, decide_eq_false_iff_not,
      beq_eq_false_iff_ne]
    omega
  · subst h; decide
  · subst h; decide
  · subst h; decide
  · subst h; decide
  · subst h; decide

/-! ### The parts of a numeral -/

theorem mem_of_dropSign {cs : List Char} {c : Char} (hc : c ∈ cs) :
    c ∈ dropSign cs ∨ c = '+' ∨ c = '-' := by
  fun_cases dropSign cs with
  | case1 rest =>
    rcases List.mem_cons.1 hc with h | h
    · exact .inr (.inl h)
    · exact .inl h
  | case2 rest =>
    rcases List.mem_cons.1 hc with h | h
    · exact .inr (.inr h)
    · exact .inl h
  | case3 => exact .inl hc

theorem isNumeralChar_of_takeWhile {cs : List Char} {c : Char} (h : c ∈ cs.takeWhile Char.isDigit) :
    IsNumeralChar c :=
  .inl (List.all_eq_true.1 (List.all_takeWhile (l := cs)) c h)

theorem isNumeralChar_of_exponent? {cs : List Char} {e : Int} (h : exponent? cs = some e) {c : Char}
    (hc : c ∈ cs) : IsNumeralChar c := by
  cases cs with
  | nil => exact absurd hc (by simp)
  | cons x rest =>
    simp only [exponent?, Option.ite_none_right_eq_some, Bool.and_eq_true, Bool.or_eq_true,
      decide_eq_true_eq, List.all_eq_true] at h
    obtain ⟨⟨⟨hx, -⟩, hd⟩, -⟩ := h
    rcases List.mem_cons.1 hc with rfl | hc
    · rcases hx with rfl | rfl <;> simp [IsNumeralChar]
    · rcases mem_of_dropSign hc with hc | rfl | rfl
      · exact .inl (hd c hc)
      · simp [IsNumeralChar]
      · simp [IsNumeralChar]

/-- Nothing is lost at the point but the point. -/
theorem mem_of_splitPoint {cs : List Char} {c : Char} (hc : c ∈ cs) :
    IsNumeralChar c ∨ c ∈ (splitPoint cs).2.2 := by
  rw [← List.takeWhile_append_dropWhile (p := Char.isDigit) (l := cs), List.mem_append] at hc
  rcases hc with hc | hc
  · exact .inl (isNumeralChar_of_takeWhile hc)
  unfold splitPoint
  simp only
  split
  · next rest hd =>
    rw [hd, List.mem_cons] at hc
    rcases hc with rfl | hc
    · exact .inl (by simp [IsNumeralChar])
    · rw [← List.takeWhile_append_dropWhile (p := Char.isDigit) (l := rest), List.mem_append] at hc
      rcases hc with hc | hc
      · exact .inl (isNumeralChar_of_takeWhile hc)
      · exact .inr hc
  · exact .inr hc

theorem isNumeralChar_of_ofChars? {cs : List Char} {n : Numeral} (h : ofChars? cs = some n)
    {c : Char} (hc : c ∈ cs) : IsNumeralChar c := by
  rcases mem_of_dropSign hc with hc | rfl | rfl
  · rcases mem_of_splitPoint hc with hc | hc
    · exact hc
    · unfold ofChars? ofUnsigned? at h
      simp only [Option.ite_none_left_eq_some, Option.map_eq_some_iff] at h
      obtain ⟨-, e, he, -⟩ := h
      exact isNumeralChar_of_exponent? he hc
  · simp [IsNumeralChar]
  · simp [IsNumeralChar]

end Numeral

theorem isNumeralChar_of_isNumber {s : String} (h : isNumber s = true) {c : Char}
    (hc : c ∈ s.toList) : Numeral.IsNumeralChar c := by
  unfold isNumber at h
  split at h
  · exact Numeral.isNumeralChar_of_ofChars? ‹_› hc
  · exact absurd h (by decide)

namespace Text

/-- There are no blanks around a number. -/
theorem trim_eq_of_isNumber {s : String} (h : isNumber s = true) : trim s = s :=
  trim_eq_self fun _ hc => Numeral.not_isBlank_of_isNumeralChar (isNumeralChar_of_isNumber h hc)

end Text

end Tablescope
