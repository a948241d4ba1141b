import Tablescope.Proofs.Except
import Tablescope.Schema.Table

/-!
# Declared keys

An attribute is *declared* if it is the first of the definitions with its name, so no name has two
declared attributes, however often it is defined. A key is accepted for a table or an index exactly
if all of its attributes are declared, and what is told otherwise is wrong with the first of them
that is not. A table is *consistent* if all of its keys are declared; then it can be built again
from its own parts.
-/

namespace Tablescope

/-! ### First elements -/

section First

variable {α : Type} {p : α → Prop} {xs : List α} {x y : α}

/-- Whether this is the first element of a list with a property. -/
def IsFirst (p : α → Prop) (xs : List α) (x : α) : Prop :=
  ∃ before after, xs = before ++ x :: after ∧ p x ∧ ∀ y ∈ before, ¬p y

theorem isFirst_iff_find? [DecidablePred p] : IsFirst p xs x ↔ xs.find? (p ·) = some x := by
  rw [List.find?_eq_some_iff_append]
  simp only [decide_eq_true_eq, Bool.not_eq_true', decide_eq_false_iff_not]
  constructor
  · rintro ⟨before, after, rfl, hx, hbefore⟩
    exact ⟨hx, before, after, rfl, hbefore⟩
  · rintro ⟨hx, before, after, rfl, hbefore⟩
    exact ⟨before, after, rfl, hx, hbefore⟩

theorem find?_eq_none_iff_forall [DecidablePred p] :
    xs.find? (p ·) = none ↔ ∀ x ∈ xs, ¬p x := by
  simp only [List.find?_eq_none, decide_eq_true_eq]

theorem IsFirst.holds (h : IsFirst p xs x) : p x := by
  obtain ⟨before, after, -, hx, -⟩ := h
  exact hx

theorem IsFirst.mem (h : IsFirst p xs x) : x ∈ xs := by
  obtain ⟨before, after, rfl, -, -⟩ := h
  simp

theorem IsFirst.unique [DecidablePred p] (hx : IsFirst p xs x) (hy : IsFirst p xs y) : x = y := by
  rw [isFirst_iff_find?] at hx hy
  exact Option.some.inj (hx.symm.trans hy)

theorem exists_isFirst_iff [DecidablePred p] : (∃ x, IsFirst p xs x) ↔ ∃ x ∈ xs, p x := by
  simp only [isFirst_iff_find?]
  rw [← Option.isSome_iff_exists, List.find?_isSome]
  simp only [decide_eq_true_eq]

end First

/-! ### Attributes -/

variable {definitions : List Attribute} {context : SchemaContext} {a b : Attribute}
  {key : KeySchema} {table table' : TableSchema} {e : SchemaError}

/-- Whether an attribute is the first definition with its name. -/
def Attribute.IsDeclared (definitions : List Attribute) (a : Attribute) : Prop :=
  IsFirst (·.name = a.name) definitions a

/-- What is wrong with an attribute that is not declared. -/
inductive Attribute.DeclarationFault (definitions : List Attribute) (context : SchemaContext)
    (a : Attribute) : SchemaError → Prop where
  | undefined (h : ∀ d ∈ definitions, d.name ≠ a.name) :
      DeclarationFault definitions context a (.undefinedAttribute a.name context)
  | conflicting {declared : Attribute} (h : IsFirst (·.name = a.name) definitions declared)
      (ht : declared.type ≠ a.type) :
      DeclarationFault definitions context a
        (.conflictingAttributeType a.name declared.type a.type context)

/-- One name has one declared attribute. -/
theorem Attribute.IsDeclared.eq_of_name_eq (ha : a.IsDeclared definitions)
    (hb : b.IsDeclared definitions) (h : a.name = b.name) : a = b := by
  rw [IsDeclared, h] at ha
  exact ha.unique hb

theorem exists_isFirst_name_iff {name : String} :
    (∃ a, IsFirst (·.name = name) definitions a) ↔ name ∈ definitions.map Attribute.name := by
  rw [exists_isFirst_iff, List.mem_map]

/-- What is looked up by its name is declared. -/
theorem Attribute.isDeclared_of_isFirst {name : String}
    (h : IsFirst (·.name = name) definitions a) : a.IsDeclared definitions := by
  rw [IsDeclared, h.holds]
  exact h

namespace TableSchema

theorem definition?_eq_some_iff {name : String} :
    definition? definitions name = some a ↔ IsFirst (·.name = name) definitions a :=
  isFirst_iff_find?.symm

theorem definition?_eq_none_iff {name : String} :
    definition? definitions name = none ↔ ∀ d ∈ definitions, d.name ≠ name :=
  find?_eq_none_iff_forall

theorem checkAttribute_eq_ok_iff :
    checkAttribute definitions context a = .ok () ↔ a.IsDeclared definitions := by
  rw [checkAttribute, Attribute.IsDeclared, ← definition?_eq_some_iff]
  rcases hd : definition? definitions a.name with _ | declared
  · simp
  · have hname : declared.name = a.name := (definition?_eq_some_iff.1 hd).holds
    simp only [Option.some.injEq]
    constructor
    · intro h
      split at h
      · next ht =>
        obtain ⟨n, t⟩ := declared
        cases a
        cases hname
        cases ht
        rfl
      · cases h
    · rintro rfl
      rw [if_pos rfl]

theorem checkAttribute_eq_error_iff :
    checkAttribute definitions context a = .error e ↔
      a.DeclarationFault definitions context e := by
  rw [checkAttribute]
  constructor
  · intro h
    split at h
    · next hnone =>
      cases h
      exact .undefined (definition?_eq_none_iff.1 hnone)
    · next declared hd =>
      split at h
      · cases h
      · next ht =>
        cases h
        exact .conflicting (definition?_eq_some_iff.1 hd) ht
  · rintro (hnone | ⟨hd, ht⟩)
    · rw [definition?_eq_none_iff.2 hnone]
    · rw [definition?_eq_some_iff.2 hd]
      exact if_neg ht

end TableSchema

/-! ### Keys -/

/-- Whether all attributes of a key are declared. -/
def KeySchema.IsDeclared (definitions : List Attribute) (key : KeySchema) : Prop :=
  ∀ a ∈ key.attributes, a.IsDeclared definitions

/-- Whether this is what is wrong with the first attribute of a key that is not declared. -/
def KeySchema.DeclarationFault (definitions : List Attribute) (context : SchemaContext)
    (key : KeySchema) (e : SchemaError) : Prop :=
  ∃ before a after, key.attributes = before ++ a :: after ∧
    (∀ b ∈ before, b.IsDeclared definitions) ∧ a.DeclarationFault definitions context e

namespace TableSchema

theorem checkKey_eq_ok_iff :
    checkKey definitions context key = .ok () ↔ key.IsDeclared definitions := by
  simp only [checkKey, Except.forM_eq_ok_iff, checkAttribute_eq_ok_iff, KeySchema.IsDeclared]

theorem checkKey_eq_error_iff :
    checkKey definitions context key = .error e ↔
      key.DeclarationFault definitions context e := by
  simp only [checkKey, Except.forM_eq_error_iff, checkAttribute_eq_ok_iff,
    checkAttribute_eq_error_iff, KeySchema.DeclarationFault]

/-! ### Tables -/

theorem ofKey_eq_ok_iff {name : String} :
    ofKey name definitions key = .ok table ↔
      key.IsDeclared definitions ∧ table = ⟨name, definitions, key, []⟩ := by
  rw [ofKey, Except.check_eq_ok_iff, checkKey_eq_ok_iff]

theorem ofKey_eq_error_iff {name : String} :
    ofKey name definitions key = .error e ↔ key.DeclarationFault definitions (.table name) e := by
  rw [ofKey, Except.check_eq_error_iff, checkKey_eq_error_iff]

/-- The table with further indexes, behind those that it has. -/
def withIndexes (table : TableSchema) (indexes : List IndexSchema) : TableSchema :=
  { table with indexes := table.indexes ++ indexes }

theorem addIndex_eq_ok_iff {index : IndexSchema} :
    table.addIndex index = .ok table' ↔
      index.key.IsDeclared table.definitions ∧ table' = table.withIndexes [index] := by
  rw [addIndex, Except.check_eq_ok_iff, checkKey_eq_ok_iff, withIndexes]

theorem addIndex_eq_error_iff {index : IndexSchema} :
    table.addIndex index = .error e ↔
      index.key.DeclarationFault table.definitions (.index index.name) e := by
  rw [addIndex, Except.check_eq_error_iff, checkKey_eq_error_iff]

theorem withIndexes_nil (table : TableSchema) : table.withIndexes [] = table := by
  rw [withIndexes, List.append_nil]

theorem withIndexes_cons (table : TableSchema) (index : IndexSchema)
    (indexes : List IndexSchema) :
    (table.withIndexes [index]).withIndexes indexes = table.withIndexes (index :: indexes) := by
  simp [withIndexes]

/-- Indexes are added one after another exactly if the keys of all of them are declared. -/
theorem foldlM_addIndex_eq_ok_iff {indexes : List IndexSchema} :
    indexes.foldlM addIndex table = .ok table' ↔
      (∀ index ∈ indexes, index.key.IsDeclared table.definitions) ∧
        table' = table.withIndexes indexes := by
  induction indexes generalizing table with
  | nil =>
    rw [List.foldlM_nil, withIndexes_nil]
    simp [pure, Except.pure, eq_comm]
  | cons index indexes ih =>
    rw [List.foldlM_cons, Except.bind_eq_ok_iff, List.forall_mem_cons]
    simp only [addIndex_eq_ok_iff, ih]
    constructor
    · rintro ⟨_, ⟨hindex, rfl⟩, hindexes, rfl⟩
      exact ⟨⟨hindex, hindexes⟩, withIndexes_cons ..⟩
    · rintro ⟨⟨hindex, hindexes⟩, rfl⟩
      exact ⟨_, ⟨hindex, rfl⟩, hindexes, (withIndexes_cons ..).symm⟩

/-! ### Consistent tables -/

/-- The keys of a table: its own and those of its indexes. -/
def keys (table : TableSchema) : List KeySchema := table.key :: table.indexes.map IndexSchema.key

/-- Whether all keys of a table are declared by its definitions. -/
def IsConsistent (table : TableSchema) : Prop :=
  ∀ key ∈ table.keys, key.IsDeclared table.definitions

theorem isConsistent_iff :
    table.IsConsistent ↔
      table.key.IsDeclared table.definitions ∧
        ∀ index ∈ table.indexes, index.key.IsDeclared table.definitions := by
  rw [IsConsistent, keys, List.forall_mem_cons, List.forall_mem_map]

/-- A table is consistent exactly if it can be built again from its parts. -/
theorem ofParts_self_iff :
    ofParts table.name table.definitions table.key table.indexes = .ok table ↔
      table.IsConsistent := by
  rw [ofParts, Except.bind_eq_ok_iff, isConsistent_iff]
  simp only [ofKey_eq_ok_iff, foldlM_addIndex_eq_ok_iff]
  constructor
  · rintro ⟨_, ⟨hkey, rfl⟩, hindexes, -⟩
    exact ⟨hkey, hindexes⟩
  · rintro ⟨hkey, hindexes⟩
    exact ⟨_, ⟨hkey, rfl⟩, hindexes, rfl⟩

theorem isConsistent_of_ofKey {name : String} (h : ofKey name definitions key = .ok table) :
    table.IsConsistent := by
  obtain ⟨hkey, rfl⟩ := ofKey_eq_ok_iff.1 h
  exact isConsistent_iff.2 ⟨hkey, by simp⟩

theorem IsConsistent.addIndex {index : IndexSchema} (ht : table.IsConsistent)
    (h : table.addIndex index = .ok table') : table'.IsConsistent := by
  obtain ⟨hindex, rfl⟩ := addIndex_eq_ok_iff.1 h
  obtain ⟨hkey, hindexes⟩ := isConsistent_iff.1 ht
  refine isConsistent_iff.2 ⟨hkey, fun i hi => ?_⟩
  rcases List.mem_append.1 hi with hi | hi
  · exact hindexes i hi
  · rw [List.mem_singleton.1 hi]
    exact hindex

/-- In a consistent table one name has one type, whichever keys it occurs in. -/
theorem IsConsistent.eq_of_name_eq {other : KeySchema} (h : table.IsConsistent)
    (hkey : key ∈ table.keys) (hother : other ∈ table.keys) (ha : a ∈ key.attributes)
    (hb : b ∈ other.attributes) (hname : a.name = b.name) : a = b :=
  (h key hkey a ha).eq_of_name_eq (h other hother b hb) hname

theorem mem_keys_of_keyOf {selection : Selection} (h : table.keyOf selection = .ok key) :
    key ∈ table.keys := by
  cases selection with
  | table =>
    cases h
    exact List.mem_cons_self
  | index name =>
    rw [keyOf] at h
    split at h
    · next index hfind =>
      cases h
      exact List.mem_cons_of_mem _ (List.mem_map_of_mem (List.mem_of_find?_eq_some hfind))
    · cases h

end TableSchema

end Tablescope
