import Tablescope.Filter.Criterion
import Tablescope.Proofs.Attribute.Scalar
import Tablescope.Proofs.Except

/-!
# The operands that a criterion takes

The value of a criterion is read as no operand, as one, or as the two halves around its only comma.
-/

namespace Tablescope

/-- The operands one after the other. -/
def Operands.toList : Operands → List Scalar
  | none => []
  | one v => [v]
  | pair low high => [low, high]

/-- How many operands there are. -/
def Operands.arity : Operands → Operator.Arity
  | none => .none
  | one _ => .one
  | pair _ _ => .two

namespace Criterion

/-- Whether these are the operands that the value of a criterion writes: none if the operator takes
none, the halves without the blanks around them if it takes two, and the value if it takes one. -/
def Takes (c : Criterion) (vs : List Scalar) : Prop :=
  match c.operator with
  | .present | .absent => vs = []
  | .between => ∃ low high l h, c.value = low ++ "," ++ high ∧ ',' ∉ low.toList ∧
      ',' ∉ high.toList ∧ c.type.coerce? (Text.trim low) = some l ∧
      c.type.coerce? (Text.trim high) = some h ∧ vs = [l, h]
  | _ => ∃ v, c.type.coerce? c.value = some v ∧ vs = [v]

/-- There are two parts if there is one comma. -/
theorem splitOn_eq_pair_iff {cs a b : List Char} :
    cs.splitOn ',' = [a, b] ↔ cs = a ++ ',' :: b ∧ ',' ∉ a ∧ ',' ∉ b := by
  constructor
  · intro h
    by_cases hc : ',' ∈ cs
    · obtain ⟨a', rest, rfl, ha'⟩ := List.eq_append_cons_of_mem hc
      rw [List.splitOn_append_cons_self_of_not_mem ha', List.cons.injEq] at h
      obtain ⟨rfl, h⟩ := h
      by_cases hrest : ',' ∈ rest
      · obtain ⟨b', rest', rfl, hb'⟩ := List.eq_append_cons_of_mem hrest
        rw [List.splitOn_append_cons_self_of_not_mem hb', List.cons.injEq] at h
        exact absurd h.2 (List.splitOn_ne_nil _ _)
      · rw [List.splitOn_eq_singleton hrest, List.cons.injEq] at h
        obtain ⟨rfl, -⟩ := h
        exact ⟨rfl, ha', hrest⟩
    · rw [List.splitOn_eq_singleton hc] at h
      cases h
  · rintro ⟨rfl, ha, hb⟩
    rw [List.splitOn_append_cons_self_of_not_mem ha, List.splitOn_eq_singleton hb]

theorem parts_eq_pair_iff {c : Criterion} {x y : String} :
    c.parts = [x, y] ↔ ∃ low high, c.value = low ++ "," ++ high ∧ ',' ∉ low.toList ∧
      ',' ∉ high.toList ∧ Text.trim low = x ∧ Text.trim high = y := by
  rw [parts, List.map_eq_cons_iff]
  constructor
  · rintro ⟨a, rest, hsplit, hx, hrest⟩
    obtain ⟨b, rest, rfl, hy, hnil⟩ := List.map_eq_cons_iff.1 hrest
    cases List.map_eq_nil_iff.1 hnil
    obtain ⟨hvalue, ha, hb⟩ := splitOn_eq_pair_iff.1 hsplit
    refine ⟨String.ofList a, String.ofList b, ?_, ?_, ?_, ?_, ?_⟩
    · apply String.toList_injective
      simp only [hvalue, String.toList_append, String.toList_ofList, List.append_assoc]
      rfl
    · rwa [String.toList_ofList]
    · rwa [String.toList_ofList]
    · rw [Text.trim, String.toList_ofList, hx]
    · rw [Text.trim, String.toList_ofList, hy]
  · rintro ⟨low, high, hvalue, hlow, hhigh, rfl, rfl⟩
    refine ⟨low.toList, [high.toList], ?_, rfl, rfl⟩
    rw [splitOn_eq_pair_iff, hvalue, String.toList_append, String.toList_append, List.append_assoc]
    exact ⟨rfl, hlow, hhigh⟩

theorem operands_of_arity_none {c : Criterion} (h : c.operator.arity = .none) :
    c.operands = .ok .none := by
  rw [operands, h]

theorem operands_of_arity_one {c : Criterion} (h : c.operator.arity = .one) {o : Operands} :
    c.operands = .ok o ↔ ∃ v, c.type.coerce? c.value = some v ∧ o = .one v := by
  rw [operands, h]
  simp only [Except.bind_eq_ok_iff, ScalarType.coerce_eq_ok_iff]
  refine exists_congr fun v => and_congr_right fun _ => ?_
  exact ⟨fun h => (Except.ok.inj h).symm, fun h => congrArg Except.ok h.symm⟩

theorem operands_of_arity_two {c : Criterion} (h : c.operator.arity = .two) {o : Operands} :
    c.operands = .ok o ↔ ∃ x y l r, c.parts = [x, y] ∧ c.type.coerce? x = some l ∧
      c.type.coerce? y = some r ∧ o = .pair l r := by
  rw [operands, h]
  simp only
  constructor
  · intro ho
    split at ho
    · next x y hparts =>
      obtain ⟨l, hl, ho⟩ := Except.bind_eq_ok_iff.1 ho
      obtain ⟨r, hr, ho⟩ := Except.bind_eq_ok_iff.1 ho
      cases ho
      exact ⟨x, y, l, r, hparts, ScalarType.coerce_eq_ok_iff.1 hl,
        ScalarType.coerce_eq_ok_iff.1 hr, rfl⟩
    · cases ho
  · rintro ⟨x, y, l, r, hparts, hl, hr, rfl⟩
    rw [hparts]
    refine Except.bind_eq_ok_iff.2 ⟨l, ScalarType.coerce_eq_ok_iff.2 hl, ?_⟩
    exact Except.bind_eq_ok_iff.2 ⟨r, ScalarType.coerce_eq_ok_iff.2 hr, rfl⟩

/-- There are as many operands as the operator takes. -/
theorem arity_of_operands {c : Criterion} {o : Operands} (h : c.operands = .ok o) :
    o.arity = c.operator.arity := by
  rcases ha : c.operator.arity
  · rw [operands_of_arity_none ha] at h
    cases h
    rfl
  · obtain ⟨v, -, rfl⟩ := (operands_of_arity_one ha).1 h
    rfl
  · obtain ⟨x, y, l, r, -, -, -, rfl⟩ := (operands_of_arity_two ha).1 h
    rfl

/-- The operands of a criterion are those that its value writes. -/
theorem takes_iff {c : Criterion} {vs : List Scalar} :
    c.Takes vs ↔ ∃ o, c.operands = .ok o ∧ o.toList = vs := by
  have hnone : c.operator.arity = .none → (vs = [] ↔ ∃ o, c.operands = .ok o ∧ o.toList = vs) := by
    intro ha
    rw [operands_of_arity_none ha]
    constructor
    · rintro rfl
      exact ⟨.none, rfl, rfl⟩
    · rintro ⟨o, ⟨⟩, rfl⟩
      rfl
  have hone : c.operator.arity = .one →
      ((∃ v, c.type.coerce? c.value = some v ∧ vs = [v]) ↔
        ∃ o, c.operands = .ok o ∧ o.toList = vs) := by
    intro ha
    simp only [operands_of_arity_one ha]
    constructor
    · rintro ⟨v, hv, rfl⟩
      exact ⟨.one v, ⟨v, hv, rfl⟩, rfl⟩
    · rintro ⟨o, ⟨v, hv, rfl⟩, rfl⟩
      exact ⟨v, hv, rfl⟩
  have htwo : c.operator.arity = .two →
      ((∃ low high l h, c.value = low ++ "," ++ high ∧ ',' ∉ low.toList ∧ ',' ∉ high.toList ∧
        c.type.coerce? (Text.trim low) = some l ∧ c.type.coerce? (Text.trim high) = some h ∧
        vs = [l, h]) ↔ ∃ o, c.operands = .ok o ∧ o.toList = vs) := by
    intro ha
    simp only [operands_of_arity_two ha, parts_eq_pair_iff]
    constructor
    · rintro ⟨low, high, l, h, hvalue, hlow, hhigh, hl, hh, rfl⟩
      exact ⟨.pair l h, ⟨_, _, l, h, ⟨low, high, hvalue, hlow, hhigh, rfl, rfl⟩, hl, hh, rfl⟩, rfl⟩
    · rintro ⟨o, ⟨_, _, l, h, ⟨low, high, hvalue, hlow, hhigh, rfl, rfl⟩, hl, hh, rfl⟩, rfl⟩
      exact ⟨low, high, l, h, hvalue, hlow, hhigh, hl, hh, rfl⟩
  obtain ⟨name, operator, value, type⟩ := c
  cases operator with
  | present | absent => exact hnone rfl
  | between => exact htwo rfl
  | equal | unequal | less | lessOrEqual | greater | greaterOrEqual | beginsWith | contains =>
    exact hone rfl

end Criterion

end Tablescope
