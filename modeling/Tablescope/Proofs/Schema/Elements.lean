import Tablescope.Proofs.Attribute.Scalar
import Tablescope.Proofs.Schema.Declaration
import Tablescope.Schema.Description

/-!
# What definitions and key elements stand for

Definitions are read one by one. A key takes the first element of each role and, for each of them,
the first definition that it refers to, so its attributes are declared. Elements describe at most
one key, and what is told of elements that describe none is the first thing wrong with them: there
is no hash element, it is not defined, or the range element is not.
-/

namespace Tablescope

variable {definitions : List Attribute} {context : SchemaContext} {elements : List KeyElement}
  {e : SchemaError}

/-! ### Definitions -/

/-- Whether a definition declares an attribute: it names it and its type. -/
def AttributeDefinition.Declares (d : AttributeDefinition) (a : Attribute) : Prop :=
  a.name = d.name ∧ a.type.descriptor = d.type

/-- Whether a definition has the type of a scalar. -/
def AttributeDefinition.IsScalar (d : AttributeDefinition) : Prop := d.type ∈ ["S", "N", "B"]

namespace AttributeDefinition

variable {d : AttributeDefinition} {a : Attribute}

theorem resolve_eq_ok_iff : d.resolve = .ok a ↔ d.Declares a := by
  obtain ⟨name, text⟩ := d
  obtain ⟨n, type⟩ := a
  rw [Declares, ← ScalarType.ofDescriptor?_eq_some_iff, resolve]
  cases ScalarType.ofDescriptor? text <;> simp [eq_comm]

theorem exists_declares_iff : (∃ a, d.Declares a) ↔ d.IsScalar := by
  simp only [Declares, IsScalar, List.mem_cons, List.not_mem_nil, or_false]
  constructor
  · rintro ⟨⟨_, type⟩, -, h⟩
    cases type <;> simp [← h, ScalarType.descriptor]
  · rintro (h | h | h)
    · exact ⟨⟨d.name, .text⟩, rfl, h.symm⟩
    · exact ⟨⟨d.name, .number⟩, rfl, h.symm⟩
    · exact ⟨⟨d.name, .binary⟩, rfl, h.symm⟩

theorem resolve_eq_error_iff :
    d.resolve = .error e ↔ ¬d.IsScalar ∧ e = .unsupportedAttributeType d.name d.type := by
  rw [← exists_declares_iff]
  simp only [← resolve_eq_ok_iff]
  rw [resolve]
  cases ScalarType.ofDescriptor? d.type <;> simp [eq_comm]

theorem mapM_resolve_eq_ok_iff {ds : List AttributeDefinition} {as : List Attribute} :
    ds.mapM resolve = .ok as ↔ List.Forall₂ Declares ds as := by
  simp only [Except.mapM_eq_ok_iff, resolve_eq_ok_iff]

theorem mapM_resolve_eq_error_iff {ds : List AttributeDefinition} :
    ds.mapM resolve = .error e ↔
      ∃ before a after, ds = before ++ a :: after ∧ (∀ b ∈ before, b.IsScalar) ∧
        ¬a.IsScalar ∧ e = .unsupportedAttributeType a.name a.type := by
  simp only [Except.mapM_eq_error_iff, resolve_eq_ok_iff, exists_declares_iff,
    resolve_eq_error_iff]

theorem exists_forall₂_declares_iff {ds : List AttributeDefinition} :
    (∃ as, List.Forall₂ Declares ds as) ↔ ∀ d ∈ ds, d.IsScalar := by
  simp only [← mapM_resolve_eq_ok_iff, Except.exists_mapM_eq_ok_iff, resolve_eq_ok_iff,
    exists_declares_iff]

theorem names_of_forall₂_declares {ds : List AttributeDefinition} {as : List Attribute}
    (h : List.Forall₂ Declares ds as) :
    as.map Attribute.name = ds.map AttributeDefinition.name := by
  induction h with
  | nil => rfl
  | cons hd _ ih => rw [List.map_cons, List.map_cons, hd.1, ih]

end AttributeDefinition

/-! ### Keys -/

namespace KeySchema

/-- What the elements of a key give a role: the first definition that the first element of the role
refers to, or nothing if there is no such element. -/
inductive Gives (definitions : List Attribute) (elements : List KeyElement) (role : KeyRole) :
    Option Attribute → Prop where
  | absent (h : ∀ e ∈ elements, e.role ≠ some role) : Gives definitions elements role none
  | first {e : KeyElement} {a : Attribute} (he : IsFirst (·.role = some role) elements e)
      (ha : IsFirst (·.name = e.name) definitions a) : Gives definitions elements role (some a)

/-- Whether elements describe a key. -/
structure IsDescribed (definitions : List Attribute) (elements : List KeyElement)
    (key : KeySchema) : Prop where
  hash : Gives definitions elements .hash (some key.hash)
  range : Gives definitions elements .range key.range

/-- The first thing wrong with elements that describe no key. -/
inductive DescriptionFault (definitions : List Attribute) (context : SchemaContext)
    (elements : List KeyElement) : SchemaError → Prop where
  | noHash (h : ∀ e ∈ elements, e.role ≠ some .hash) :
      DescriptionFault definitions context elements (.missingHashKey context)
  | hash {e : KeyElement} (he : IsFirst (·.role = some .hash) elements e)
      (hd : ∀ d ∈ definitions, d.name ≠ e.name) :
      DescriptionFault definitions context elements (.undefinedAttribute e.name context)
  | range {a : Attribute} {e : KeyElement} (ha : Gives definitions elements .hash (some a))
      (he : IsFirst (·.role = some .range) elements e)
      (hd : ∀ d ∈ definitions, d.name ≠ e.name) :
      DescriptionFault definitions context elements (.undefinedAttribute e.name context)

variable {role : KeyRole} {key : KeySchema}

theorem attributeFor?_eq_ok_iff {a? : Option Attribute} :
    attributeFor? definitions context elements role = .ok a? ↔
      Gives definitions elements role a? := by
  rw [attributeFor?]
  constructor
  · intro h
    split at h
    · next hnone =>
      cases h
      exact .absent (find?_eq_none_iff_forall.1 hnone)
    · next element he =>
      split at h
      · next a ha =>
        cases h
        exact .first (isFirst_iff_find?.2 he) (TableSchema.definition?_eq_some_iff.1 ha)
      · cases h
  · rintro (hnone | ⟨he, ha⟩)
    · rw [find?_eq_none_iff_forall.2 hnone]
    · rw [isFirst_iff_find?.1 he]
      simp only [TableSchema.definition?_eq_some_iff.2 ha]

theorem attributeFor?_eq_error_iff :
    attributeFor? definitions context elements role = .error e ↔
      ∃ element, IsFirst (·.role = some role) elements element ∧
        (∀ d ∈ definitions, d.name ≠ element.name) ∧
        e = .undefinedAttribute element.name context := by
  rw [attributeFor?]
  constructor
  · intro h
    split at h
    · cases h
    · next element he =>
      split at h
      · cases h
      · next hnone =>
        cases h
        exact ⟨element, isFirst_iff_find?.2 he, TableSchema.definition?_eq_none_iff.1 hnone, rfl⟩
  · rintro ⟨element, he, hnone, rfl⟩
    rw [isFirst_iff_find?.1 he]
    simp only [TableSchema.definition?_eq_none_iff.2 hnone]

theorem ofElements_eq_ok_iff :
    ofElements definitions context elements = .ok key ↔ key.IsDescribed definitions elements := by
  obtain ⟨hash, range⟩ := key
  rw [ofElements, Except.bind_eq_ok_iff]
  constructor
  · rintro ⟨_ | a, ha, h⟩
    · cases h
    · obtain ⟨b?, hb, h⟩ := Except.bind_eq_ok_iff.1 h
      cases h
      exact ⟨attributeFor?_eq_ok_iff.1 ha, attributeFor?_eq_ok_iff.1 hb⟩
  · rintro ⟨ha, hb⟩
    exact ⟨some hash, attributeFor?_eq_ok_iff.2 ha,
      Except.bind_eq_ok_iff.2 ⟨range, attributeFor?_eq_ok_iff.2 hb, rfl⟩⟩

theorem ofElements_eq_error_iff :
    ofElements definitions context elements = .error e ↔
      DescriptionFault definitions context elements e := by
  rw [ofElements, Except.bind_eq_error_iff]
  constructor
  · rintro (h | ⟨_ | a, ha, h⟩)
    · obtain ⟨element, he, hd, rfl⟩ := attributeFor?_eq_error_iff.1 h
      exact .hash he hd
    · cases h
      cases attributeFor?_eq_ok_iff.1 ha with
      | absent hnone => exact .noHash hnone
    · rcases Except.bind_eq_error_iff.1 h with h | ⟨_, -, h⟩
      · obtain ⟨element, he, hd, rfl⟩ := attributeFor?_eq_error_iff.1 h
        exact .range (attributeFor?_eq_ok_iff.1 ha) he hd
      · cases h
  · rintro (hnone | ⟨he, hd⟩ | ⟨ha, he, hd⟩)
    · exact .inr ⟨none, attributeFor?_eq_ok_iff.2 (.absent hnone), rfl⟩
    · exact .inl (attributeFor?_eq_error_iff.2 ⟨_, he, hd, rfl⟩)
    · exact .inr ⟨some _, attributeFor?_eq_ok_iff.2 ha,
        Except.bind_eq_error_iff.2 (.inl (attributeFor?_eq_error_iff.2 ⟨_, he, hd, rfl⟩))⟩

/-- What elements give a role is taken from the definitions. -/
theorem Gives.isDeclared {a : Attribute} (h : Gives definitions elements role (some a)) :
    a.IsDeclared definitions := by
  cases h with
  | first _ ha => exact Attribute.isDeclared_of_isFirst ha

theorem IsDescribed.isDeclared (h : key.IsDescribed definitions elements) :
    key.IsDeclared definitions := by
  intro a ha
  rcases List.mem_cons.1 ha with rfl | ha
  · exact h.hash.isDeclared
  · have hrange := h.range
    rw [Option.mem_toList.1 ha] at hrange
    exact hrange.isDeclared

/-- Whether a key can be made of elements where these names are defined. -/
structure HasElements (names : List String) (elements : List KeyElement) : Prop where
  hash : ∃ e, IsFirst (·.role = some KeyRole.hash) elements e ∧ e.name ∈ names
  range : ∀ e, IsFirst (·.role = some KeyRole.range) elements e → e.name ∈ names

theorem exists_isDescribed_iff :
    (∃ key : KeySchema, key.IsDescribed definitions elements) ↔
      HasElements (definitions.map Attribute.name) elements := by
  constructor
  · rintro ⟨⟨hash, range⟩, hhash, hrange⟩
    simp only at hhash hrange
    obtain _ | ⟨he, ha⟩ := hhash
    refine ⟨⟨_, he, exists_isFirst_name_iff.1 ⟨_, ha⟩⟩, fun e he => ?_⟩
    cases hrange with
    | absent hnone => exact absurd he.holds (hnone e he.mem)
    | first hf hb =>
      rw [he.unique hf]
      exact exists_isFirst_name_iff.1 ⟨_, hb⟩
  · rintro ⟨⟨e, he, hname⟩, hrange⟩
    obtain ⟨a, ha⟩ := exists_isFirst_name_iff.2 hname
    by_cases hr : ∃ f, IsFirst (·.role = some KeyRole.range) elements f
    · obtain ⟨f, hf⟩ := hr
      obtain ⟨b, hb⟩ := exists_isFirst_name_iff.2 (hrange f hf)
      exact ⟨⟨a, some b⟩, .first he ha, .first hf hb⟩
    · rw [exists_isFirst_iff] at hr
      exact ⟨⟨a, none⟩, .first he ha, .absent fun f hf hrole => hr ⟨f, hf, hrole⟩⟩

end KeySchema

end Tablescope
