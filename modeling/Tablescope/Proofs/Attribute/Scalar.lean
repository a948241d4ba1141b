import Tablescope.Attribute.Coercion
import Tablescope.Proofs.Numeral
import Tablescope.Proofs.Text.Base64

/-!
# Scalars are read back from their texts

A scalar is *readable* if its number, should it be one, is a number in range; texts and byte strings
always are. What a raw text is read as is readable, and every readable scalar is read back from its
own text.
-/

namespace Tablescope

/-- Whether a scalar can be read back from its text. -/
def Scalar.isReadable : Scalar → Bool
  | .number numeral => isNumber numeral
  | _ => true

theorem Scalar.isReadable_iff {s : Scalar} :
    s.isReadable = true ↔ ∀ numeral, s = .number numeral → isNumber numeral = true := by
  cases s <;> simp [isReadable]

namespace ScalarType

theorem ofDescriptor?_eq_some_iff {text : String} {type : ScalarType} :
    ofDescriptor? text = some type ↔ type.descriptor = text := by
  constructor
  · intro h
    unfold ofDescriptor? at h
    split at h <;> cases h <;> rfl
  · rintro rfl
    cases type <;> rfl

theorem coerce?_number (raw : String) :
    number.coerce? raw =
      if isNumber (Text.trim raw) then some (.number (Text.trim raw)) else none := rfl

theorem type_of_coerce? {type : ScalarType} {raw : String} {s : Scalar}
    (h : type.coerce? raw = some s) : s.type = type := by
  cases type with
  | text =>
    cases h
    rfl
  | number =>
    rw [coerce?_number, Option.ite_none_right_eq_some] at h
    cases h.2
    rfl
  | binary =>
    obtain ⟨bytes, -, rfl⟩ := Option.map_eq_some_iff.1 h
    rfl

theorem isReadable_of_coerce? {type : ScalarType} {raw : String} {s : Scalar}
    (h : type.coerce? raw = some s) : s.isReadable = true := by
  cases type with
  | text =>
    cases h
    rfl
  | number =>
    rw [coerce?_number, Option.ite_none_right_eq_some] at h
    cases h.2
    exact h.1
  | binary =>
    obtain ⟨bytes, -, rfl⟩ := Option.map_eq_some_iff.1 h
    rfl

theorem coerce?_render {s : Scalar} (h : s.isReadable = true) :
    s.type.coerce? s.render = some s := by
  cases s with
  | text t => rfl
  | number numeral =>
    have hn : isNumber numeral = true := h
    rw [Scalar.type, Scalar.render, coerce?_number, Text.trim_eq_of_isNumber hn, if_pos hn]
  | binary bytes =>
    change (Text.Base64.decode? (Text.Base64.encode bytes)).map Scalar.binary = _
    rw [Text.Base64.decode?_encode]
    rfl

theorem coerce_eq_ok_iff {type : ScalarType} {name raw : String} {s : Scalar} :
    type.coerce name raw = .ok s ↔ type.coerce? raw = some s := by
  unfold coerce
  cases type.coerce? raw with
  | none => simp
  | some t => simp

/-- Every text is a text, so only numbers and byte strings can be refused. -/
theorem coerce_eq_error_iff {type : ScalarType} {name raw : String} {fault : InputError} :
    type.coerce name raw = .error fault ↔
      type.coerce? raw = none ∧
        (type = .number ∧ fault = .invalidNumber name raw ∨
          type = .binary ∧ fault = .invalidBinary name) := by
  unfold coerce
  rcases hc : type.coerce? raw with _ | s
  · cases type with
    | text => cases hc
    | number => simp [eq_comm]
    | binary => simp [eq_comm]
  · simp

end ScalarType

/-- Scalars of one type differ in their texts. -/
theorem Scalar.eq_of_render_eq {s t : Scalar} (ht : s.type = t.type) (h : s.render = t.render) :
    s = t := by
  cases s <;> cases t <;> simp only [Scalar.type, reduceCtorEq] at ht
  · exact congrArg Scalar.text h
  · exact congrArg Scalar.number h
  · exact congrArg Scalar.binary (Text.Base64.encode_injective h)

end Tablescope
