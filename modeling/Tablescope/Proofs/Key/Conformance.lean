import Tablescope.Proofs.Cursor.Names
import Tablescope.Proofs.Key.Token

/-!
# Ways to make a key

A key can be made of values, taken from an item or read from a token, and the attributes of a key
can be composed into a cursor. All of these agree: a key that one of them makes fits the schema, the
others make it again from its own values and from every item that has them, and an item without a
key is refused by a key and by a cursor with the same words.
-/

namespace Tablescope

variable {schema : KeySchema} {item : Item} {k : PrimaryKey}

/-- The key attributes of an item make a cursor exactly as they make a key. -/
theorem Cursor.ofItem_attributes (item : Item) (schema : KeySchema) :
    Cursor.ofItem item schema.attributes = (PrimaryKey.ofItem schema item).map Cursor.ofKey := by
  rw [Cursor.ofItem, ← PrimaryKey.map_entries_ofItem]
  cases PrimaryKey.ofItem schema item <;> rfl

namespace PrimaryKey

theorem fits_iff :
    k.Fits schema ↔
      k.hash.attribute = schema.hash ∧ k.range.map Entry.attribute = schema.range := by
  obtain ⟨h, r⟩ := schema
  obtain ⟨kh, kr⟩ := k
  cases r <;> cases kr <;> simp [Fits, entries, KeySchema.attributes]

/-- A key that fits is made of its own values. -/
theorem ofValues_of_fits (h : k.Fits schema) :
    ofValues schema (.scalar k.hash.2) (k.range.map fun e => .scalar e.2) = .ok k := by
  obtain ⟨hhash, hrange⟩ := fits_iff.1 h
  obtain ⟨kh, kr⟩ := k
  have hentry : schema.hash.entry (.scalar kh.2) = .ok kh :=
    Attribute.entry_eq_ok_iff.2 ⟨hhash, rfl⟩
  cases kr with
  | none =>
    simp only [ofValues, ← hrange, Option.map_none, hentry]
    rfl
  | some e =>
    have he : e.attribute.entry (.scalar e.2) = .ok e := Attribute.entry_eq_ok_iff.2 ⟨rfl, rfl⟩
    simp only [ofValues, ← hrange, Option.map_some, hentry, he]
    rfl

/-- A key is taken from exactly the items that include it. -/
theorem ofItem_eq_ok_iff_subset (h : k.Fits schema) (hd : schema.NamesDiffer) :
    ofItem schema item = .ok k ↔ k.toItem.toList ⊆ item.toList := by
  rw [ofItem_eq_ok_iff, and_iff_right h, toItem, Item.has_iff_subset (h.nodup_names hd)]

theorem length_toItem (h : k.Fits schema) (hd : schema.NamesDiffer) :
    k.toItem.toList.length = schema.arity := by
  rw [toItem, (Item.perm_ofEntries (h.nodup_names hd)).length_eq, List.length_map,
    h.length_entries]

/-- An item has a key exactly if it bears the attributes of the key. -/
theorem exists_ofItem_iff :
    (∃ k, ofItem schema item = .ok k) ↔ item.Bears schema.attributes := by
  constructor
  · rintro ⟨k, hk⟩
    exact Item.bears_of_ofItem hk
  · intro h
    obtain ⟨c, hc⟩ := Cursor.exists_ofItem h
    rw [Cursor.ofItem_attributes] at hc
    obtain ⟨k, hk, -⟩ := Except.map_eq_ok_iff.1 hc
    exact ⟨k, hk⟩

theorem ofItem_eq_error_iff {fault : InputError} :
    ofItem schema item = .error fault ↔ item.FirstFault schema.attributes fault := by
  rw [← Cursor.ofItem_eq_error_iff, Cursor.ofItem_attributes, Except.map_eq_error_iff]

/-- A key fits its schema however it is made. It is taken from every item that includes it, it is
made of its own values again, its item has as many attributes as the schema, and its cursor is what
the key attributes of any such item make. An item without a key is refused with what is wrong with
its first key attribute that is missing or mistyped, by the key and by the cursor alike. -/
theorem conforms_however_made (schema : KeySchema) (hd : schema.NamesDiffer) :
    (∀ k : PrimaryKey, k.IsMade schema →
      (k.hash.attribute = schema.hash ∧ k.range.map Entry.attribute = schema.range) ∧
        (∀ item : Item, k.toItem.toList ⊆ item.toList →
          ofItem schema item = .ok k ∧
            Cursor.ofItem item schema.attributes = .ok (Cursor.ofKey k)) ∧
        ofValues schema (.scalar k.hash.2) (k.range.map fun e => .scalar e.2) = .ok k ∧
        k.toItem.toList.length = schema.arity) ∧
      ∀ item : Item, (∀ k, ofItem schema item ≠ .ok k) →
        ∃ fault, item.FirstFault schema.attributes fault ∧ ofItem schema item = .error fault ∧
          Cursor.ofItem item schema.attributes = .error fault := by
  refine ⟨fun k hk => ⟨fits_iff.1 hk.fits, fun item hitem => ?_, ofValues_of_fits hk.fits,
    length_toItem hk.fits hd⟩, fun item hitem => ?_⟩
  · have hkey := (ofItem_eq_ok_iff_subset hk.fits hd).2 hitem
    rw [Cursor.ofItem_attributes, hkey]
    exact ⟨rfl, rfl⟩
  · rcases hfault : ofItem schema item with fault | k
    · refine ⟨fault, ofItem_eq_error_iff.1 hfault, rfl, ?_⟩
      rw [Cursor.ofItem_attributes, hfault]
      rfl
    · exact absurd hfault (hitem k)

theorem conforms_however_made_of_measurement :
    let k : PrimaryKey := ⟨("name", .text "a,b"), some ("at", .number "-1.50")⟩
    let item : Item := .ofList [("more", .null true), ("at", .scalar (.number "-1.50")),
      ("name", .scalar (.text "a,b"))]
    let torn : Item := .ofList [("at", .scalar (.text "-1.50"))]
    measurementKey.NamesDiffer ∧ ofToken measurementKey "a%2cb,%20-1.50 " = .ok k ∧
      k.toItem.toList ⊆ item.toList ∧
      (ofItem measurementKey item = .ok k ∧
        Cursor.ofItem item measurementKey.attributes = .ok (Cursor.ofKey k)) ∧
      k.toItem.toList.length = 2 ∧ (∀ l, ofItem measurementKey torn ≠ .ok l) ∧
      ∃ fault, torn.FirstFault measurementKey.attributes fault ∧
        ofItem measurementKey torn = .error fault ∧
        Cursor.ofItem torn measurementKey.attributes = .error fault := by
  intro k item torn
  have hdiffer : measurementKey.NamesDiffer := by decide
  have hread : ofToken measurementKey "a%2cb,%20-1.50 " = .ok k := by decide +kernel
  have hsubset : k.toItem.toList ⊆ item.toList := by decide +kernel
  have htorn : ∀ l, ofItem measurementKey torn ≠ .ok l := by
    have herror : ofItem measurementKey torn = .error (.missingKeyAttribute "name") := by
      decide +kernel
    simp [herror]
  obtain ⟨hmade, hless⟩ := conforms_however_made measurementKey hdiffer
  obtain ⟨-, hitem, -, hlength⟩ := hmade k (.ofToken hread)
  exact ⟨hdiffer, hread, hsubset, hitem item hsubset, hlength, htorn, hless torn htorn⟩

end PrimaryKey

end Tablescope
