import Mathlib.Data.List.Basic
import Tablescope.Attribute.Value
import Tablescope.Proofs.Attribute.Scalar
import Tablescope.Proofs.Text.Blank

/-!
# Reading and writing a scalar undo each other

A raw text is read as a scalar of one type, and the text of the scalar is the raw text, for a number
without the blanks around it. The other way round, the text of every text, of every byte string and of
every number is read as what it is the text of. A scalar has no text as another type, and no other
value has a text at all.
-/

namespace Tablescope

namespace ScalarType

variable {type : ScalarType} {name raw : String} {s : Scalar}

/-- Whether this is what stays of a raw text that is read as a type: of a number, what is between the
blanks. -/
def Keeps : ScalarType → String → String → Prop
  | .number, raw, kept => Text.IsTrimmed raw kept
  | .text, raw, kept => kept = raw
  | .binary, raw, kept => kept = raw

theorem keeps_of_coerce? (h : type.coerce? raw = some s) : type.Keeps raw s.render := by
  cases type with
  | text =>
    cases h
    rfl
  | number =>
    rw [coerce?_number] at h
    cases (Option.ite_none_right_eq_some.1 h).2
    exact Text.isTrimmed_trim raw
  | binary =>
    obtain ⟨bytes, hbytes, rfl⟩ := Option.map_eq_some_iff.1 h
    exact Text.Base64.decode?_eq_some_iff.1 hbytes

theorem exists_coerce_binary_iff :
    (∃ s, binary.coerce name raw = .ok s) ↔ ∃! bytes, Text.Base64.encode bytes = raw := by
  simp only [coerce_eq_ok_iff]
  constructor
  · rintro ⟨s, h⟩
    obtain ⟨bytes, hbytes, -⟩ := Option.map_eq_some_iff.1 h
    rw [Text.Base64.decode?_eq_some_iff] at hbytes
    exact ⟨bytes, hbytes, fun _ hmore => Text.Base64.encode_injective (hmore.trans hbytes.symm)⟩
  · rintro ⟨bytes, rfl, -⟩
    exact ⟨.binary bytes, coerce?_render (s := .binary bytes) rfl⟩

end ScalarType

namespace Value

theorem renderAs?_scalar (s : Scalar) : (scalar s).renderAs? s.type = some s.render := if_pos rfl

theorem renderAs?_eq_none_iff {v : Value} {type : ScalarType} :
    v.renderAs? type = none ↔ v.type? ≠ some type := by
  cases v <;> simp [renderAs?, type?, scalar?]

end Value

namespace ScalarType

/-- What is read as a type is of this type; its text is what stays of the raw text, and is read as the
same again, under whatever name. The text of every text, of every byte string and of every number is
read as what it was written for, and no value has a text as a type that it is not of. In particular a
text is read as bytes exactly if it is what some bytes are written as, and these are the only ones. -/
theorem coerce_undoes_render :
    (∀ (type : ScalarType) (name raw : String) (s : Scalar), type.coerce name raw = .ok s →
      (Value.scalar s).type? = some type ∧ ∃ kept, (Value.scalar s).renderAs? type = some kept ∧
        type.Keeps raw kept ∧ ∀ name', type.coerce name' kept = .ok s) ∧
      (∀ s : Scalar, (∀ numeral, s = .number numeral → isNumber numeral = true) →
        ∃ kept, (Value.scalar s).renderAs? s.type = some kept ∧
          ∀ name, s.type.coerce name kept = .ok s) ∧
      (∀ (v : Value) (type : ScalarType), v.renderAs? type = none ↔ v.type? ≠ some type) ∧
      ∀ name raw, (∃ s, binary.coerce name raw = .ok s) ↔
        ∃! bytes, Text.Base64.encode bytes = raw := by
  refine ⟨fun type name raw s h => ?_, fun s h => ?_, fun _ _ => Value.renderAs?_eq_none_iff,
    fun _ _ => exists_coerce_binary_iff⟩
  · rw [coerce_eq_ok_iff] at h
    have hback := coerce?_render (isReadable_of_coerce? h)
    cases type_of_coerce? h
    exact ⟨rfl, s.render, Value.renderAs?_scalar s, keeps_of_coerce? h,
      fun _ => coerce_eq_ok_iff.2 hback⟩
  · exact ⟨s.render, Value.renderAs?_scalar s,
      fun _ => coerce_eq_ok_iff.2 (coerce?_render (Scalar.isReadable_iff.2 h))⟩

theorem coerce_undoes_render_of_blanks :
    let raw := "\u00a0-01.50\n"
    number.coerce "price" raw = .ok (.number "-01.50") ∧ Text.IsTrimmed raw "-01.50" ∧
      number.coerce "cost" "-01.50" = .ok (.number "-01.50") ∧
      (∃ kept, (Value.scalar (.binary [0, 255])).renderAs? .binary = some kept ∧
        ∀ name, binary.coerce name kept = .ok (.binary [0, 255])) ∧
      (Value.scalar (.binary [0, 255])).renderAs? .text = none ∧
      ¬∃! bytes, Text.Base64.encode bytes = "AP9=" := by
  intro raw
  have hread : number.coerce "price" raw = .ok (.number "-01.50") := by decide +kernel
  obtain ⟨hcoerce, hrender, hother, hbinary⟩ := coerce_undoes_render
  obtain ⟨-, kept, hkept, htrim, hagain⟩ := hcoerce _ _ _ _ hread
  cases hkept
  -- the last letter leaves bits over that are not zero
  have hrefused : ¬∃ s, binary.coerce "picture" "AP9=" = .ok s := by
    rintro ⟨s, hs⟩
    have hfault : binary.coerce "picture" "AP9=" = .error (.invalidBinary "picture") := by
      decide +kernel
    cases hfault.symm.trans hs
  exact ⟨hread, htrim, hagain "cost", hrender (.binary [0, 255]) nofun,
    (hother _ _).2 (by decide), mt (hbinary "picture" "AP9=").2 hrefused⟩

end ScalarType

end Tablescope
