import Mathlib.Algebra.Order.Ring.Abs
import Tablescope.Proofs.Cursor.Format
import Tablescope.Proofs.Numeral.Range
import Tablescope.Proofs.Text.Blank

/-!
# Which texts are numbers

A text is a number exactly if it is a numeral whose number is not rounded to infinity. A value is read
as one when that is true of what is between its blanks, which is kept as it stands; a cursor takes a
number only as it stands.
-/

namespace Tablescope

namespace Numeral

variable {n : Numeral} {cs : List Char} {text : String} {x : ℚ}

/-- Whether characters are a numeral in range, of any length. -/
def WritesInRange (cs : List Char) : Prop := ∃ x, Writes cs x ∧ |x| < 2 ^ 1024 - 2 ^ 970

theorem abs_sign_mul (cs : List Char) (n : Numeral) : |(sign cs : ℚ) * n.value| = n.value := by
  rw [abs_mul, abs_of_nonneg n.value_nonneg, sign]
  split <;> simp

theorem isNumber_iff : isNumber text = true ↔ WritesInRange text.toList := by
  rw [isNumber, WritesInRange, ← cast_limit]
  constructor
  · intro h
    split at h
    · next n hn =>
      refine ⟨_, writes_iff.2 ⟨n, hn, rfl⟩, ?_⟩
      rw [abs_sign_mul]
      exact (inRange_iff (writesUnsigned_of_ofUnsigned? hn).2).1 h
    · cases h
  · rintro ⟨x, hx, hlt⟩
    obtain ⟨n, hn, rfl⟩ := writes_iff.1 hx
    rw [abs_sign_mul] at hlt
    simp only [hn]
    exact (inRange_iff (writesUnsigned_of_ofUnsigned? hn).2).2 hlt

/-- A numeral writes one number. -/
theorem Writes.unique {y : ℚ} (hx : Writes cs x) (hy : Writes cs y) : x = y := by
  obtain ⟨n, hn, rfl⟩ := writes_iff.1 hx
  obtain ⟨n', hn', rfl⟩ := writes_iff.1 hy
  cases hn.symm.trans hn'
  rfl

theorem ne_comma_of_isNumeralChar {c : Char} (h : IsNumeralChar c) : c ≠ ',' := by
  rintro rfl
  revert h
  simp [IsNumeralChar]

end Numeral

namespace ScalarType

variable {name raw text : String}

/-- A number is read from what is between the blanks of a text and is kept as it stands there. -/
theorem coerce_number_eq_ok_iff {s : Scalar} :
    number.coerce name raw = .ok s ↔
      ∃ text, Text.IsTrimmed raw text ∧ isNumber text = true ∧ s = .number text := by
  rw [coerce_eq_ok_iff, coerce?_number, Option.ite_none_right_eq_some, Option.some.injEq]
  constructor
  · rintro ⟨hn, rfl⟩
    exact ⟨_, Text.isTrimmed_trim raw, hn, rfl⟩
  · rintro ⟨text, htrim, hn, rfl⟩
    rw [Text.trim_eq_iff.2 htrim]
    exact ⟨hn, rfl⟩

theorem coerce_number_self_iff :
    number.coerce name text = .ok (.number text) ↔ isNumber text = true := by
  rw [coerce_eq_ok_iff, coerce?_number]
  constructor
  · intro h
    obtain ⟨hn, heq⟩ := Option.ite_none_right_eq_some.1 h
    rwa [Scalar.number.inj (Option.some.inj heq)] at hn
  · intro hn
    rw [Text.trim_eq_of_isNumber hn, if_pos hn]

end ScalarType

namespace Cursor

/-- Among members that are in order, it is left to the text of a number whether the cursor is read. -/
theorem parse_of_number_member {json name text : String} {before behind : List Member}
    {es fs : List Entry}
    (h : (document (before ++ ⟨name, .number, text⟩ :: behind)).IsWritten json)
    (hn : (before.map Member.name ++ name :: behind.map Member.name).Nodup)
    (hbefore : List.Forall₂ Member.Says before es) (hbehind : List.Forall₂ Member.Says behind fs) :
    parse json =
      if isNumber text = true then .ok ⟨es ++ (name, .number text) :: fs⟩
      else .error (.invalidCursor (.notANumber name text)) := by
  split
  · next hnumber =>
    refine parse_of_writes ⟨_, h, ?_, List.rel_append hbefore (.cons (.number hnumber) hbehind)⟩
    rwa [List.map_append, List.map_cons]
  · next hnumber =>
    have hnew : name ∉ before.map Member.name := fun hold =>
      (List.nodup_append.1 hn).2.2 name hold name List.mem_cons_self rfl
    have hfirst : Begins json (before ++ [⟨name, .number, text⟩]) := by
      refine @begins_of_isWritten json _ behind ?_
      rwa [List.append_assoc, List.singleton_append]
    exact parse_of_offence (.member ⟨(List.nodup_append.1 hn).1, hbefore⟩ hfirst
      (.notANumber hnew (Bool.not_eq_true _ ▸ hnumber)))

end Cursor

namespace Numeral

/-- A text is a number exactly if it is a numeral, of any length, whose number is below the bound, or
what is the same, is not rounded to infinity; a numeral writes one number only. Neither a blank nor a
comma is in a number. A value is read as a number exactly if what is between its blanks is one, and
this is kept as it stands. A cursor is read with a number in it, among any members that are in order,
exactly if the value is read and left as it is. -/
theorem validates_exactly (text : String) :
    (isNumber text = true ↔ ∃ x, Writes text.toList x ∧ |x| < 2 ^ 1024 - 2 ^ 970) ∧
      (isNumber text = true ↔ ∃ x, Writes text.toList x ∧ ¬Overflows x) ∧
      (∀ x y, Writes text.toList x → Writes text.toList y → x = y) ∧
      (isNumber text = true → ∀ c ∈ text.toList, Text.isBlank c = false ∧ c ≠ ',') ∧
      (∀ name s, ScalarType.number.coerce name text = .ok s ↔
        ∃ numeral, Text.IsTrimmed text numeral ∧
          (∃ x, Writes numeral.toList x ∧ |x| < 2 ^ 1024 - 2 ^ 970) ∧ s = .number numeral) ∧
      ∀ (json name : String) (before behind : List Cursor.Member) (es fs : List Entry),
        (Cursor.document (before ++ ⟨name, .number, text⟩ :: behind)).IsWritten json →
        (before.map Cursor.Member.name ++ name :: behind.map Cursor.Member.name).Nodup →
        List.Forall₂ Cursor.Member.Says before es → List.Forall₂ Cursor.Member.Says behind fs →
        ((∃ c, Cursor.parse json = .ok c) ↔
          ScalarType.number.coerce name text = .ok (.number text)) ∧
        ∀ c, Cursor.parse json = .ok c → c = ⟨es ++ (name, .number text) :: fs⟩ := by
  refine ⟨isNumber_iff, ?_, fun _ _ => Writes.unique, fun h c hc => ?_, fun name s => ?_,
    fun json name before behind es fs hjson hn hbefore hbehind => ?_⟩
  · simp only [overflows_iff, not_le]
    exact isNumber_iff
  · have hchar := isNumeralChar_of_isNumber h hc
    exact ⟨not_isBlank_of_isNumeralChar hchar, ne_comma_of_isNumeralChar hchar⟩
  · simp only [ScalarType.coerce_number_eq_ok_iff, isNumber_iff]
    rfl
  · rw [Cursor.parse_of_number_member hjson hn hbefore hbehind, ScalarType.coerce_number_self_iff]
    split
    · next hnumber => simp [hnumber]
    · next hnumber => simp [hnumber]

/-- Zero with a huge exponent, in a cursor between other members, and a number just out of range. -/
theorem validates_exactly_of_zero :
    let text := "-00.0E+99999999999999999999"
    let before : List Cursor.Member := [⟨"id", .text, "a"⟩]
    let behind : List Cursor.Member := [⟨"of", .text, "b"⟩]
    let json := "\x7b\"id\":\x7b\"S\":\"a\"\x7d, \"n\" : \x7b\"N\":\"-00.0E+99999999999999999999\"\x7d," ++
      "\"of\":\x7b\"S\":\"b\"\x7d\x7d"
    (Cursor.document (before ++ ⟨"n", .number, text⟩ :: behind)).IsWritten json ∧
      isNumber text = true ∧ (∃ x, Writes text.toList x ∧ |x| < 2 ^ 1024 - 2 ^ 970) ∧
      ScalarType.number.coerce "n" text = .ok (.number text) ∧
      (∃ c, Cursor.parse json = .ok c) ∧
      ¬∃ x, Writes "17976931348623159e292".toList x ∧ |x| < 2 ^ 1024 - 2 ^ 970 := by
  intro text before behind json
  have hjson : (Cursor.document (before ++ ⟨"n", .number, text⟩ :: behind)).IsWritten json :=
    Cursor.document_isWritten_iff.2 (by decide +kernel)
  have hnumber : isNumber text = true := by decide +kernel
  have hlimit : ¬isNumber "17976931348623159e292" = true := by decide +kernel
  obtain ⟨hrange, -, -, -, hcoerce, hcursor⟩ := validates_exactly text
  have hself := (hcoerce "n" (.number text)).2
    ⟨text, Text.trim_eq_iff.1 (by decide +kernel), hrange.1 hnumber, rfl⟩
  obtain ⟨hread, -⟩ := hcursor json "n" before behind [("id", .text "a")]
    [("of", .text "b")] hjson (by decide) (.cons .text .nil) (.cons .text .nil)
  exact ⟨hjson, hnumber, hrange.1 hnumber, hself, hread.2 hself,
    fun h => hlimit ((validates_exactly _).1.2 h)⟩

end Numeral

end Tablescope
