import Mathlib.Logic.Function.Basic
import Tablescope.Proofs.Store.Keyed

/-!
# A store as a map from keys

Keyed items are a finite map: under each key there is one item at most. A put inserts its item where
the item with the same key stands, or behind all others, and a delete erases the item with a key;
neither moves any other item. As a map the items are updated at the key and nowhere else.
-/

namespace Tablescope.MemoryStore

/-- The item with a key. -/
def lookup (schema : KeySchema) (items : List Item) (k : PrimaryKey) : Option Item :=
  items.find? fun item => PrimaryKey.ofItem schema item = .ok k

/-- An item, or the one that replaces the item with a key. -/
def replace (schema : KeySchema) (k : PrimaryKey) (item x : Item) : Item :=
  if PrimaryKey.ofItem schema x = .ok k then item else x

/-- The items with one put under a key, where the item with this key stands or at the end. -/
def insertAt (schema : KeySchema) (items : List Item) (k : PrimaryKey) (item : Item) : List Item :=
  if ∃ x ∈ items, PrimaryKey.ofItem schema x = .ok k then items.map (replace schema k item)
  else items ++ [item]

/-- The items with other keys. -/
def eraseAt (schema : KeySchema) (items : List Item) (k : PrimaryKey) : List Item :=
  items.filter fun x => PrimaryKey.ofItem schema x ≠ .ok k

variable {schema : KeySchema} {items : List Item} {k : PrimaryKey} {item x : Item}

/-! ### Looking up -/

theorem lookup_eq_some_iff (h : Keyed schema items) :
    lookup schema items k = some item ↔ item ∈ items ∧ PrimaryKey.ofItem schema item = .ok k := by
  constructor
  · intro hl
    exact ⟨List.mem_of_find?_eq_some hl, by simpa using List.find?_some hl⟩
  · rintro ⟨hi, hk⟩
    cases hl : lookup schema items k with
    | none =>
      have hne := List.find?_eq_none.1 hl item hi
      rw [decide_eq_true_eq] at hne
      exact absurd hk hne
    | some other =>
      have hother : PrimaryKey.ofItem schema other = .ok k := by simpa using List.find?_some hl
      rw [h.eq_of_key_eq (List.mem_of_find?_eq_some hl) hi (hother.trans hk.symm)]

/-- Looking for the attributes of a key finds the item with the key. -/
theorem find?_covers (hd : schema.NamesDiffer) (hk : k.Fits schema) :
    items.find? (covers · k.toItem) = lookup schema items k := by
  rw [lookup]
  congr 1
  funext item
  rw [Bool.eq_iff_iff, covers_toItem hd hk, decide_eq_true_eq]

/-! ### Putting -/

/-- Replacing an item by one with its key leaves the key. -/
theorem ofItem_replace (hi : PrimaryKey.ofItem schema item = .ok k) (x : Item) :
    PrimaryKey.ofItem schema (replace schema k item x) = PrimaryKey.ofItem schema x := by
  unfold replace
  split
  · next hx => rw [hi, hx]
  · rfl

theorem putItem_eq (hd : schema.NamesDiffer) (h : Keyed schema items)
    (hi : PrimaryKey.ofItem schema item = .ok k) :
    putItem items k.toItem item = insertAt schema items k item := by
  rcases putItem_cases hd h hi with ⟨before, x, after, rfl, hx, he⟩ | ⟨hn, he⟩
  · have hother := (Keyed.append_cons.1 h).2.2
    rw [hx] at hother
    have hsame : ∀ part : List Item, part ⊆ before ++ after →
        part.map (replace schema k item) = part := by
      intro part hpart
      refine (List.map_congr_left fun y hy => ?_).trans (List.map_id _)
      rw [replace, if_neg (hother y (hpart hy)), id]
    have hreplace : replace schema k item x = item := if_pos hx
    rw [he, insertAt, if_pos ⟨x, by simp, hx⟩, List.map_append, List.map_cons, hreplace,
      hsame before (List.subset_append_left _ _), hsame after (List.subset_append_right _ _)]
  · rw [he, insertAt, if_neg]
    rintro ⟨x, hmem, hx⟩
    exact hn x hmem hx

theorem mem_insertAt :
    x ∈ insertAt schema items k item ↔
      x = item ∨ x ∈ items ∧ PrimaryKey.ofItem schema x ≠ .ok k := by
  unfold insertAt
  split
  · next hex =>
    rw [List.mem_map]
    constructor
    · rintro ⟨y, hy, rfl⟩
      by_cases hyk : PrimaryKey.ofItem schema y = .ok k
      · exact .inl (if_pos hyk)
      · rw [replace, if_neg hyk]
        exact .inr ⟨hy, hyk⟩
    · rintro (rfl | ⟨hx, hxk⟩)
      · obtain ⟨y, hy, hyk⟩ := hex
        exact ⟨y, hy, if_pos hyk⟩
      · exact ⟨x, hx, if_neg hxk⟩
  · next hex =>
    rw [List.mem_append, List.mem_singleton, or_comm]
    refine or_congr_right (and_iff_left_of_imp fun hx hxk => ?_).symm
    exact hex ⟨x, hx, hxk⟩

theorem keyed_insertAt (h : Keyed schema items) (hi : PrimaryKey.ofItem schema item = .ok k) :
    Keyed schema (insertAt schema items k item) := by
  refine ⟨fun x hx => ?_, ?_⟩
  · rcases mem_insertAt.1 hx with rfl | ⟨hx, -⟩
    · exact ⟨k, hi⟩
    · exact h.typed x hx
  · unfold insertAt
    split
    · rw [List.map_map, show PrimaryKey.ofItem schema ∘ replace schema k item =
        PrimaryKey.ofItem schema from funext (ofItem_replace hi)]
      exact h.distinct
    · next hex =>
      have hkeyed : Keyed schema (items ++ item :: []) := by
        rw [Keyed.append_cons, List.append_nil, hi]
        exact ⟨h, ⟨k, rfl⟩, fun x hx hxk => hex ⟨x, hx, hxk⟩⟩
      exact hkeyed.distinct

theorem lookup_insertAt (h : Keyed schema items) (hi : PrimaryKey.ofItem schema item = .ok k) :
    lookup schema (insertAt schema items k item) =
      Function.update (lookup schema items) k (some item) := by
  funext l
  apply Option.ext
  intro x
  rw [lookup_eq_some_iff (keyed_insertAt h hi), mem_insertAt, Function.update_apply]
  by_cases hl : l = k
  · rw [if_pos hl, hl]
    constructor
    · rintro ⟨rfl | ⟨-, hxk⟩, hx⟩
      · rfl
      · exact absurd hx hxk
    · rintro ⟨⟩
      exact ⟨.inl rfl, hi⟩
  · rw [if_neg hl, lookup_eq_some_iff h]
    refine and_congr_left fun hx => ?_
    -- an item with another key is not the new one, and it was not replaced
    have hne : PrimaryKey.ofItem schema x ≠ .ok k := by
      rw [hx]
      exact fun hlk => hl (Except.ok.inj hlk)
    constructor
    · rintro (rfl | ⟨hmem, -⟩)
      · exact absurd hi hne
      · exact hmem
    · exact fun hmem => .inr ⟨hmem, hne⟩

/-! ### Deleting -/

theorem mem_eraseAt :
    x ∈ eraseAt schema items k ↔ x ∈ items ∧ PrimaryKey.ofItem schema x ≠ .ok k := by
  rw [eraseAt, List.mem_filter, decide_eq_true_eq]

theorem deleteItem_eq (hd : schema.NamesDiffer) (hk : k.Fits schema) (h : Keyed schema items) :
    deleteItem items k.toItem = eraseAt schema items k := by
  have hsame : ∀ {part : List Item}, (∀ y ∈ part, PrimaryKey.ofItem schema y ≠ .ok k) →
      eraseAt schema part k = part := fun hpart =>
    List.filter_eq_self.2 fun y hy => decide_eq_true (hpart y hy)
  rcases deleteItem_cases hd hk h with ⟨before, x, after, rfl, hx, he⟩ | ⟨hn, he⟩
  · have hother := (Keyed.append_cons.1 h).2.2
    rw [hx] at hother
    rw [he, ← hsame hother, eraseAt, eraseAt, List.filter_append, List.filter_append,
      List.filter_cons_of_neg (by simp [hx])]
  · rw [he, hsame hn]

theorem keyed_eraseAt (h : Keyed schema items) (k : PrimaryKey) :
    Keyed schema (eraseAt schema items k) :=
  h.sublist List.filter_sublist

theorem lookup_eraseAt (h : Keyed schema items) (k : PrimaryKey) :
    lookup schema (eraseAt schema items k) = Function.update (lookup schema items) k none := by
  funext l
  apply Option.ext
  intro x
  rw [lookup_eq_some_iff (keyed_eraseAt h k), mem_eraseAt, Function.update_apply]
  by_cases hl : l = k
  · rw [if_pos hl, hl]
    constructor
    · rintro ⟨⟨-, hxk⟩, hx⟩
      exact absurd hx hxk
    · rintro ⟨⟩
  · rw [if_neg hl, lookup_eq_some_iff h]
    refine and_congr_left fun hx => and_iff_left_of_imp fun _ hxk => hl ?_
    rw [hx] at hxk
    exact Except.ok.inj hxk

/-- Among keyed items the one with a key is all that is erased with the key. -/
theorem eraseAt_eq_erase (h : Keyed schema items) (hmem : item ∈ items)
    (hi : PrimaryKey.ofItem schema item = .ok k) :
    eraseAt schema items k = items.erase item := by
  rw [eraseAt, h.nodup.erase_eq_filter]
  refine List.filter_congr fun x hx => ?_
  rw [Bool.eq_iff_iff, decide_eq_true_eq, bne_iff_ne, not_iff_not]
  constructor
  · intro hk
    exact h.eq_of_key_eq hx hmem (hk.trans hi.symm)
  · rintro rfl
    exact hi

end Tablescope.MemoryStore
