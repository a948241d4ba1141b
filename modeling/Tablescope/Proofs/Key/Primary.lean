import Mathlib.Data.List.Perm.Basic
import Tablescope.Key.Primary
import Tablescope.Proofs.Except
import Tablescope.Proofs.NameMap

/-!
# Keys and the items that have them

A key *fits* a schema if its entries have the names and types that the schema lists. A key is taken
from an item exactly if it fits the schema and the item has all of its entries, so the key of an
item is unique, and an item is said to have a key without regard to how the key was made.
-/

namespace Tablescope

/-- The attribute that an entry is a value of. -/
def Entry.attribute (e : Entry) : Attribute := ⟨e.1, e.2.type⟩

/-- Whether the attributes of a key have different names. -/
def KeySchema.NamesDiffer (schema : KeySchema) : Prop :=
  (schema.attributes.map Attribute.name).Nodup

instance (schema : KeySchema) : Decidable schema.NamesDiffer :=
  inferInstanceAs (Decidable (List.Nodup _))

/-- Whether an item has all of these entries. -/
def Item.Has (item : Item) (es : List Entry) : Prop :=
  ∀ e ∈ es, item.get? e.1 = some (.scalar e.2)

instance (item : Item) (es : List Entry) : Decidable (item.Has es) :=
  inferInstanceAs (Decidable (∀ e ∈ es, _))

/-! ### Entries of an item -/

theorem Attribute.entry_eq_ok_iff {a : Attribute} {v : Value} {e : Entry} :
    a.entry v = .ok e ↔ e.attribute = a ∧ v = .scalar e.2 := by
  obtain ⟨name, s⟩ := e
  obtain ⟨n, t⟩ := a
  simp only [entry, Entry.attribute, Attribute.mk.injEq]
  constructor
  · intro h
    split at h
    · next s' hs =>
      split at h
      · next ht =>
        cases h
        cases v <;> simp only [Value.scalar?, reduceCtorEq, Option.some.injEq] at hs
        subst hs
        exact ⟨⟨rfl, ht⟩, rfl⟩
      · cases h
    · cases h
  · rintro ⟨⟨rfl, rfl⟩, rfl⟩
    simp [Value.scalar?]

theorem Attribute.entryOf_eq_ok_iff {item : Item} {a : Attribute} {e : Entry} :
    a.entryOf item = .ok e ↔ e.attribute = a ∧ item.get? e.1 = some (.scalar e.2) := by
  rw [entryOf]
  constructor
  · intro h
    split at h
    · next v hv =>
      obtain ⟨rfl, rfl⟩ := entry_eq_ok_iff.1 h
      exact ⟨rfl, hv⟩
    · cases h
  · rintro ⟨rfl, h⟩
    rw [Entry.attribute, h]
    exact entry_eq_ok_iff.2 ⟨rfl, rfl⟩

/-- What is wrong with an item that does not have an attribute as it is declared. -/
inductive Attribute.FaultIn (item : Item) (a : Attribute) : InputError → Prop where
  | missing (h : item.get? a.name = none) : FaultIn item a (.missingKeyAttribute a.name)
  | mistyped {v : Value} (h : item.get? a.name = some v)
      (hv : ∀ s : Scalar, v = .scalar s → s.type ≠ a.type) :
      FaultIn item a (.keyTypeMismatch a.name a.type)

theorem Attribute.entry_eq_error_iff {a : Attribute} {v : Value} {fault : InputError} :
    a.entry v = .error fault ↔
      (∀ s : Scalar, v = .scalar s → s.type ≠ a.type) ∧ fault = .keyTypeMismatch a.name a.type := by
  constructor
  · intro h
    refine ⟨?_, ?_⟩
    · rintro s rfl ht
      have hok : a.entry (.scalar s) = .ok (a.name, s) :=
        entry_eq_ok_iff.2 ⟨by rw [Entry.attribute, ht], rfl⟩
      rw [hok] at h
      cases h
    · unfold entry at h
      split at h
      · split at h
        · cases h
        · cases h
          rfl
      · cases h
        rfl
  · rintro ⟨hv, rfl⟩
    unfold entry
    split
    · next s hs =>
      rw [if_neg (hv s ?_)]
      cases v <;> simp only [Value.scalar?, reduceCtorEq, Option.some.injEq] at hs
      rw [hs]
    · rfl

theorem Attribute.entryOf_eq_error_iff {item : Item} {a : Attribute} {fault : InputError} :
    a.entryOf item = .error fault ↔ a.FaultIn item fault := by
  rw [entryOf]
  constructor
  · intro h
    split at h
    · next v hv =>
      obtain ⟨htype, rfl⟩ := entry_eq_error_iff.1 h
      exact .mistyped hv htype
    · next hnone =>
      cases h
      exact .missing hnone
  · rintro (hnone | ⟨hv, htype⟩)
    · rw [hnone]
    · rw [hv]
      exact entry_eq_error_iff.2 ⟨htype, rfl⟩

theorem mapM_entryOf_eq_ok_iff {item : Item} {as : List Attribute} {es : List Entry} :
    as.mapM (Attribute.entryOf item) = .ok es ↔ es.map Entry.attribute = as ∧ item.Has es := by
  rw [Except.mapM_eq_ok_iff]
  constructor
  · intro h
    induction h with
    | nil => exact ⟨rfl, by simp [Item.Has]⟩
    | cons h _ ih =>
      obtain ⟨ha, hg⟩ := Attribute.entryOf_eq_ok_iff.1 h
      exact ⟨by rw [List.map_cons, ha, ih.1], List.forall_mem_cons.2 ⟨hg, ih.2⟩⟩
  · rintro ⟨rfl, h⟩
    induction es with
    | nil => exact .nil
    | cons e es ih =>
      obtain ⟨he, hes⟩ := List.forall_mem_cons.1 h
      exact .cons (Attribute.entryOf_eq_ok_iff.2 ⟨rfl, he⟩) (ih hes)

/-- An item has one value only under each name. -/
theorem Item.entry_eq_of_name_eq {item : Item} {e f : Entry}
    (he : item.get? e.1 = some (.scalar e.2)) (hf : item.get? f.1 = some (.scalar f.2))
    (h : e.1 = f.1) : e = f := by
  rw [h, hf] at he
  injection he with he
  injection he with he
  exact Prod.ext h he.symm

section Alone

variable {item : Item} {es : List Entry}

/-- Entries with different names are the entries of the item that has them alone. -/
theorem Item.perm_ofEntries (h : (es.map Prod.fst).Nodup) :
    (Item.ofEntries es).toList.Perm (es.map fun e => (e.1, .scalar e.2)) := by
  apply NameMap.perm_ofList
  rwa [List.map_map]

/-- An item has entries with different names exactly if it includes the item that has them
alone. -/
theorem Item.has_iff_subset (h : (es.map Prod.fst).Nodup) :
    item.Has es ↔ (Item.ofEntries es).toList ⊆ item.toList := by
  rw [(Item.perm_ofEntries h).subset_congr_left, Item.Has, List.subset_def, List.forall_mem_map]
  simp only [NameMap.get?_eq_some_iff]

end Alone

namespace PrimaryKey

/-! ### Keys of a schema -/

/-- Whether a key has the names and types that a schema lists. -/
def Fits (schema : KeySchema) (k : PrimaryKey) : Prop :=
  k.entries.map Entry.attribute = schema.attributes

instance (schema : KeySchema) (k : PrimaryKey) : Decidable (k.Fits schema) :=
  inferInstanceAs (Decidable (_ = _))

theorem entries_injective {k l : PrimaryKey} (h : k.entries = l.entries) : k = l := by
  obtain ⟨kh, kr⟩ := k
  obtain ⟨lh, lr⟩ := l
  simp only [entries, List.cons.injEq] at h
  obtain ⟨rfl, hr⟩ := h
  cases kr <;> cases lr <;> simp_all

/-- The names of a key that fits are those of the schema. -/
theorem Fits.names_eq {schema : KeySchema} {k : PrimaryKey} (h : k.Fits schema) :
    k.entries.map Prod.fst = schema.attributes.map Attribute.name := by
  rw [← h, List.map_map]
  rfl

theorem Fits.nodup_names {schema : KeySchema} {k : PrimaryKey} (h : k.Fits schema)
    (hd : schema.NamesDiffer) : (k.entries.map Prod.fst).Nodup := by
  rw [h.names_eq]
  exact hd

/-! ### Keys of items -/

/-- The key of an item is made of the entries of its key attributes, and fails as they do. -/
theorem map_entries_ofItem (schema : KeySchema) (item : Item) :
    (ofItem schema item).map entries = schema.attributes.mapM (Attribute.entryOf item) := by
  obtain ⟨h, r⟩ := schema
  cases r with
  | none =>
    simp only [ofItem, KeySchema.attributes, Option.toList, List.mapM_cons, List.mapM_nil]
    cases h.entryOf item <;> rfl
  | some a =>
    simp only [ofItem, KeySchema.attributes, Option.toList, List.mapM_cons, List.mapM_nil]
    cases h.entryOf item <;> cases a.entryOf item <;> rfl

theorem ofItem_eq_ok_iff {schema : KeySchema} {item : Item} {k : PrimaryKey} :
    ofItem schema item = .ok k ↔ k.Fits schema ∧ item.Has k.entries := by
  rw [Fits, ← mapM_entryOf_eq_ok_iff, ← map_entries_ofItem, Except.map_eq_ok_iff]
  constructor
  · exact fun h => ⟨k, h, rfl⟩
  · rintro ⟨l, hl, hentries⟩
    rwa [← entries_injective hentries]

/-! ### Keys of values -/

theorem fits_of_ofValues {schema : KeySchema} {hash : Value} {range : Option Value} {k : PrimaryKey}
    (h : ofValues schema hash range = .ok k) : k.Fits schema := by
  obtain ⟨a, b⟩ := schema
  unfold ofValues at h
  split at h
  · next hb =>
    obtain ⟨e, he, h⟩ := Except.bind_eq_ok_iff.1 h
    cases h
    simp only at hb
    rw [Fits, KeySchema.attributes, hb, ← (Attribute.entry_eq_ok_iff.1 he).1]
    rfl
  · next c v hb =>
    obtain ⟨e, he, h⟩ := Except.bind_eq_ok_iff.1 h
    obtain ⟨f, hf, h⟩ := Except.bind_eq_ok_iff.1 h
    cases h
    simp only at hb
    rw [Fits, KeySchema.attributes, hb, ← (Attribute.entry_eq_ok_iff.1 he).1,
      ← (Attribute.entry_eq_ok_iff.1 hf).1]
    rfl
  · cases h

end PrimaryKey

end Tablescope
