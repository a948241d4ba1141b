import Tablescope.Store.Memory
import Tablescope.Proofs.Key.Primary

/-!
# Items with different keys

The items of a table are *keyed* if each has a key of the schema and no two have the same. Looking
for the attributes of a key then finds the one item that has it, so all that the writes of a store
in memory do is to replace an item by one with its key, to append an item with a new key and to take
an item out.
-/

namespace Tablescope

/-- Items that have keys of a schema, all of them different. -/
structure Keyed (schema : KeySchema) (items : List Item) : Prop where
  typed : ∀ item ∈ items, ∃ k, PrimaryKey.ofItem schema item = .ok k
  distinct : (items.map (PrimaryKey.ofItem schema)).Nodup

instance (schema : KeySchema) (items : List Item) : Decidable (Keyed schema items) :=
  decidable_of_iff
    ((∀ item ∈ items, (PrimaryKey.ofItem schema item).toOption.isSome = true) ∧
      (items.map (PrimaryKey.ofItem schema)).Nodup) <| by
    have htyped : ∀ item, (PrimaryKey.ofItem schema item).toOption.isSome = true ↔
        ∃ k, PrimaryKey.ofItem schema item = .ok k := by
      intro item
      cases PrimaryKey.ofItem schema item <;> simp [Except.toOption]
    simp only [htyped]
    exact ⟨fun h => ⟨h.1, h.2⟩, fun h => ⟨h.typed, h.distinct⟩⟩

namespace Keyed

variable {schema : KeySchema} {items : List Item}

theorem nodup (h : Keyed schema items) : items.Nodup := .of_map _ h.distinct

theorem sublist {some : List Item} (h : Keyed schema items) (hs : some.Sublist items) :
    Keyed schema some :=
  ⟨fun item hi => h.typed item (hs.subset hi), h.distinct.sublist (hs.map _)⟩

/-- A key belongs to one item at most. -/
theorem eq_of_key_eq (h : Keyed schema items) {x y : Item} (hx : x ∈ items) (hy : y ∈ items)
    (hk : PrimaryKey.ofItem schema x = PrimaryKey.ofItem schema y) : x = y :=
  List.inj_on_of_nodup_map h.distinct hx hy hk

theorem ne_of_mem_append {as bs : List Item} (h : Keyed schema (as ++ bs)) {x y : Item}
    (hx : x ∈ as) (hy : y ∈ bs) : PrimaryKey.ofItem schema x ≠ PrimaryKey.ofItem schema y := by
  have hd := h.distinct
  rw [List.map_append, List.nodup_append] at hd
  exact hd.2.2 _ (List.mem_map_of_mem hx) _ (List.mem_map_of_mem hy)

/-- The items may be told apart where one of them stands. -/
theorem append_cons {before after : List Item} {x : Item} :
    Keyed schema (before ++ x :: after) ↔
      Keyed schema (before ++ after) ∧ (∃ k, PrimaryKey.ofItem schema x = .ok k) ∧
        ∀ y ∈ before ++ after, PrimaryKey.ofItem schema y ≠ PrimaryKey.ofItem schema x := by
  have hperm : (before ++ x :: after).Perm (x :: (before ++ after)) := List.perm_middle
  constructor
  · intro h
    have hd := (hperm.map (PrimaryKey.ofItem schema)).nodup_iff.1 h.distinct
    rw [List.map_cons, List.nodup_cons] at hd
    refine ⟨⟨fun y hy => h.typed y (hperm.mem_iff.2 (.tail _ hy)), hd.2⟩,
      h.typed x (by simp), fun y hy he => hd.1 ?_⟩
    rw [← he]
    exact List.mem_map_of_mem hy
  · rintro ⟨h, hx, hne⟩
    refine ⟨fun y hy => ?_, (hperm.map (PrimaryKey.ofItem schema)).nodup_iff.2 ?_⟩
    · rcases List.mem_cons.1 (hperm.mem_iff.1 hy) with rfl | hy
      · exact hx
      · exact h.typed y hy
    · rw [List.map_cons, List.nodup_cons]
      refine ⟨fun hm => ?_, h.distinct⟩
      obtain ⟨y, hy, he⟩ := List.mem_map.1 hm
      exact hne y hy he

end Keyed

namespace MemoryStore

/-! ### Covering -/

/-- The attributes of entries with different names are had by the items that have the entries. -/
theorem covers_ofEntries {item : Item} {es : List Entry} (h : (es.map Prod.fst).Nodup) :
    covers item (.ofEntries es) = true ↔ item.Has es := by
  rw [Item.has_iff_subset h, List.subset_def]
  simp only [covers, List.all_eq_true, decide_eq_true_eq, NameMap.get?_eq_some_iff]

theorem covers_toItem {schema : KeySchema} (hd : schema.NamesDiffer) {k : PrimaryKey}
    (hk : k.Fits schema) {item : Item} :
    covers item k.toItem = true ↔ PrimaryKey.ofItem schema item = .ok k := by
  rw [PrimaryKey.toItem, covers_ofEntries (hk.nodup_names hd), PrimaryKey.ofItem_eq_ok_iff]
  exact (and_iff_right hk).symm

/-! ### Positions -/

/-- The position of an item that alone has some attributes. -/
theorem position?_append_cons {before after : List Item} {x key : Item}
    (hx : covers x key = true) (hb : ∀ y ∈ before, covers y key = false) :
    position? (before ++ x :: after) key = some before.length := by
  rw [position?, List.findIdx?_append, List.findIdx?_eq_none_iff.2 hb, List.findIdx?_cons, hx]
  simp

/-- Where a position is found, the items split there. -/
theorem exists_of_position? {items : List Item} {key : Item} {i : Nat}
    (h : position? items key = some i) :
    ∃ before x after, items = before ++ x :: after ∧ before.length = i ∧ covers x key = true := by
  obtain ⟨hi, hc, -⟩ := List.findIdx?_eq_some_iff_getElem.1 h
  refine ⟨items.take i, items[i], items.drop (i + 1), ?_, ?_, hc⟩
  · rw [List.getElem_cons_drop, List.take_append_drop]
  · rw [List.length_take, Nat.min_eq_left (by omega)]

variable {schema : KeySchema} {items : List Item} {k : PrimaryKey}

/-- Among keyed items a key is found where the item with this key stands. -/
theorem position?_toItem_eq_some_iff (hd : schema.NamesDiffer) (hk : k.Fits schema)
    (h : Keyed schema items) {i : Nat} :
    position? items k.toItem = some i ↔
      ∃ before x after, items = before ++ x :: after ∧ before.length = i ∧
        PrimaryKey.ofItem schema x = .ok k := by
  constructor
  · intro hp
    obtain ⟨before, x, after, he, hl, hc⟩ := exists_of_position? hp
    exact ⟨before, x, after, he, hl, (covers_toItem hd hk).1 hc⟩
  · rintro ⟨before, x, after, rfl, rfl, hx⟩
    apply position?_append_cons ((covers_toItem hd hk).2 hx)
    intro y hy
    rw [Bool.eq_false_iff, ne_eq, covers_toItem hd hk, ← hx]
    exact (Keyed.append_cons.1 h).2.2 y (List.mem_append_left _ hy)

theorem position?_toItem_eq_none_iff (hd : schema.NamesDiffer) (hk : k.Fits schema) :
    position? items k.toItem = none ↔ ∀ x ∈ items, PrimaryKey.ofItem schema x ≠ .ok k := by
  rw [position?, List.findIdx?_eq_none_iff]
  refine forall₂_congr fun x _ => ?_
  rw [Bool.eq_false_iff, ne_eq, covers_toItem hd hk]

/-! ### Writes -/

/-- A put replaces the item that has the key or appends the new one. -/
theorem putItem_cases (hd : schema.NamesDiffer) (h : Keyed schema items) {item : Item}
    (hi : PrimaryKey.ofItem schema item = .ok k) :
    (∃ before x after, items = before ++ x :: after ∧ PrimaryKey.ofItem schema x = .ok k ∧
        putItem items k.toItem item = before ++ item :: after) ∨
      ((∀ x ∈ items, PrimaryKey.ofItem schema x ≠ .ok k) ∧
        putItem items k.toItem item = items ++ [item]) := by
  have hk := (PrimaryKey.ofItem_eq_ok_iff.1 hi).1
  unfold putItem
  cases hp : position? items k.toItem with
  | none => exact .inr ⟨(position?_toItem_eq_none_iff hd hk).1 hp, rfl⟩
  | some i =>
    obtain ⟨before, x, after, rfl, rfl, hx⟩ := (position?_toItem_eq_some_iff hd hk h).1 hp
    exact .inl ⟨before, x, after, rfl, hx, by simp⟩

/-- A delete takes the item out that has the key, or does nothing. -/
theorem deleteItem_cases (hd : schema.NamesDiffer) (hk : k.Fits schema) (h : Keyed schema items) :
    (∃ before x after, items = before ++ x :: after ∧ PrimaryKey.ofItem schema x = .ok k ∧
        deleteItem items k.toItem = before ++ after) ∨
      ((∀ x ∈ items, PrimaryKey.ofItem schema x ≠ .ok k) ∧
        deleteItem items k.toItem = items) := by
  unfold deleteItem
  cases hp : position? items k.toItem with
  | none => exact .inr ⟨(position?_toItem_eq_none_iff hd hk).1 hp, rfl⟩
  | some i =>
    obtain ⟨before, x, after, rfl, rfl, hx⟩ := (position?_toItem_eq_some_iff hd hk h).1 hp
    exact .inl ⟨before, x, after, rfl, hx, by simp [List.eraseIdx_append_of_length_le]⟩

/-! ### A table of notes -/

/-- A store of the notes of users, keyed by user and number; done notes are not given back, and the
second reading fails. -/
def notes : MemoryStore where
  schema :=
    { name := "notes"
      definitions := [⟨"user", .text⟩, ⟨"no", .number⟩]
      key := ⟨⟨"user", .text⟩, some ⟨"no", .number⟩⟩
      indexes := [⟨"byNo", .globalIndex, ⟨⟨"no", .number⟩, none⟩⟩] }
  isMatch item := item.get? "done" = none
  failingFetches := [2]
  tableNames := ["notes"]
  namesPerPage := 1

/-- The note of a user under a number, with further attributes. -/
def note (user no : String) (more : List (String × Value)) : Item :=
  .ofList (("user", .scalar (.text user)) :: ("no", .scalar (.number no)) :: more)

/-- Three notes, the second of which is done. -/
def someNotes : List Item :=
  [note "a,b" "1" [], note "a,b" "2" [("done", .bool true)], note "c" "1" []]

example : Keyed notes.schema.key someNotes := by decide

end MemoryStore

end Tablescope
