import Tablescope.Cursor.Basic
import Tablescope.Proofs.Attribute.Scalar
import Tablescope.Proofs.Key.Primary

/-!
# Cursors that name an item

A cursor *names* an item if its entries are entries of the item, each once, and the item's key is
among them. Whoever has the entries then has the key, so among items with different keys the cursor
leads to the one it names. The cursor made from an item names it, and so does the cursor made from
the map of the item's entries.
-/

namespace Tablescope

/-- Whether an item has attributes as they are declared. -/
def Item.Bears (item : Item) (as : List Attribute) : Prop :=
  ∀ a ∈ as, ∃ s, item.get? a.name = some (.scalar s) ∧ s.type = a.type

/-- Whether an item has attributes as they are declared, with values that can be read back. -/
def Item.Carries (item : Item) (as : List Attribute) : Prop :=
  ∀ a ∈ as, ∃ s, item.get? a.name = some (.scalar s) ∧ s.type = a.type ∧ s.isReadable = true

instance (item : Item) (as : List Attribute) : Decidable (item.Carries as) :=
  decidable_of_iff
    (∀ a ∈ as, ((item.get? a.name).bind Value.scalar?).any
      (fun s => s.type = a.type && s.isReadable) = true) <| by
    refine forall₂_congr fun a _ => ?_
    rcases item.get? a.name with _ | v
    · simp
    · cases v <;> simp [Value.scalar?]

theorem Item.Carries.bears {item : Item} {as : List Attribute} (h : item.Carries as) :
    item.Bears as := by
  intro a ha
  obtain ⟨s, hs, ht, -⟩ := h a ha
  exact ⟨s, hs, ht⟩

/-- Whether this is what is wrong with the first attribute that an item does not have as it is
declared. -/
def Item.FirstFault (item : Item) (as : List Attribute) (fault : InputError) : Prop :=
  ∃ before a after, as = before ++ a :: after ∧ item.Bears before ∧ a.FaultIn item fault

theorem Attribute.exists_entryOf_iff {item : Item} {a : Attribute} :
    (∃ e, a.entryOf item = .ok e) ↔ ∃ s, item.get? a.name = some (.scalar s) ∧ s.type = a.type := by
  simp only [Attribute.entryOf_eq_ok_iff]
  constructor
  · rintro ⟨e, rfl, he⟩
    exact ⟨e.2, he, rfl⟩
  · rintro ⟨s, hs, ht⟩
    exact ⟨(a.name, s), by rw [Entry.attribute, ht], hs⟩

/-- An item that has a key bears the attributes of the key. -/
theorem Item.bears_of_ofItem {schema : KeySchema} {item : Item} {k : PrimaryKey}
    (h : PrimaryKey.ofItem schema item = .ok k) : item.Bears schema.attributes := by
  obtain ⟨hf, hhas⟩ := PrimaryKey.ofItem_eq_ok_iff.1 h
  intro a ha
  rw [← hf] at ha
  obtain ⟨e, he, rfl⟩ := List.mem_map.1 ha
  exact ⟨e.2, hhas e he, rfl⟩

namespace Cursor

/-- Whether a cursor consists of a key and further attributes of an item. -/
structure Names (schema : KeySchema) (attributes : List Attribute) (c : Cursor) (item : Item) :
    Prop where
  held : item.Has c.entries
  key : ∀ a ∈ schema.attributes, a ∈ c.entries.map Entry.attribute
  nodup : (c.entries.map Prod.fst).Nodup
  /-- There is nothing in the cursor that was not asked for. -/
  asked : ∀ e ∈ c.entries, e.1 ∈ attributes.map Attribute.name

namespace Names

variable {schema : KeySchema} {attributes : List Attribute} {c : Cursor} {x y : Item}

theorem not_isEmpty (h : c.Names schema attributes x) : c.isEmpty = false := by
  obtain ⟨e, he, -⟩ := List.mem_map.1 (h.key schema.hash (by simp [KeySchema.attributes]))
  rw [isEmpty, List.isEmpty_eq_false_iff]
  exact List.ne_nil_of_mem he

/-- Every entry of the item's key is in the cursor. -/
theorem entries_subset (h : c.Names schema attributes x) {k : PrimaryKey}
    (hk : PrimaryKey.ofItem schema x = .ok k) : k.entries ⊆ c.entries := by
  obtain ⟨hf, hx⟩ := PrimaryKey.ofItem_eq_ok_iff.1 hk
  intro e he
  have ha : e.attribute ∈ schema.attributes := by
    rw [← hf]
    exact List.mem_map_of_mem he
  obtain ⟨f, hm, hfe⟩ := List.mem_map.1 (h.key _ ha)
  have hname : f.1 = e.1 := congrArg Attribute.name hfe
  rwa [← Item.entry_eq_of_name_eq (h.held f hm) (hx e he) hname]

/-- An item that has all entries of the cursor has the key of the item that the cursor names. -/
theorem ofItem_eq (h : c.Names schema attributes x) {k : PrimaryKey}
    (hk : PrimaryKey.ofItem schema x = .ok k) (hy : y.Has c.entries) :
    PrimaryKey.ofItem schema y = .ok k :=
  PrimaryKey.ofItem_eq_ok_iff.2
    ⟨(PrimaryKey.ofItem_eq_ok_iff.1 hk).1, fun e he => hy e (h.entries_subset hk he)⟩

/-- Where nothing but the key was asked for, the cursor names every item with this key. -/
theorem of_ofItem_eq (h : c.Names schema schema.attributes x) {k : PrimaryKey}
    (hx : PrimaryKey.ofItem schema x = .ok k) (hy : PrimaryKey.ofItem schema y = .ok k) :
    c.Names schema schema.attributes y := by
  refine ⟨fun e he => ?_, h.key, h.nodup, h.asked⟩
  obtain ⟨hf, hhas⟩ := PrimaryKey.ofItem_eq_ok_iff.1 hy
  obtain ⟨a, ha, hname⟩ := List.mem_map.1 (h.asked e he)
  rw [← hf] at ha
  obtain ⟨f, hfk, rfl⟩ := List.mem_map.1 ha
  -- the entry of the key that has the name is the entry of the cursor that has it
  have hef : f = e := List.inj_on_of_nodup_map h.nodup (h.entries_subset hx hfk) he hname
  rw [← hef]
  exact hhas f hfk

/-- A cursor made of attributes that can be read back can be read back. -/
theorem isReadable (h : c.Names schema attributes x) (hx : x.Carries attributes) :
    ∀ e ∈ c.entries, e.2.isReadable = true := by
  intro e he
  obtain ⟨a, ha, hname⟩ := List.mem_map.1 (h.asked e he)
  obtain ⟨s, hs, -, hr⟩ := hx a ha
  rw [hname, h.held e he] at hs
  injection hs with hs
  injection hs with hs
  rwa [hs]

end Names

/-! ### From an item -/

variable {schema : KeySchema} {attributes : List Attribute} {c : Cursor} {item : Item}

theorem ofItem_eq_ok_iff :
    ofItem item attributes = .ok c ↔
      c.entries.map Entry.attribute = attributes ∧ item.Has c.entries := by
  rw [ofItem, Except.map_eq_ok_iff, ← mapM_entryOf_eq_ok_iff]
  constructor
  · rintro ⟨es, hes, rfl⟩
    exact hes
  · exact fun h => ⟨c.entries, h, rfl⟩

theorem names_of_ofItem (h : ofItem item attributes = .ok c) (hn : attributes.Nodup)
    (hs : schema.attributes ⊆ attributes) : c.Names schema attributes item := by
  obtain ⟨rfl, hhas⟩ := ofItem_eq_ok_iff.1 h
  refine ⟨hhas, fun a ha => hs ha, ?_, fun e he => ?_⟩
  · exact (List.Nodup.of_map _ hn).map_on fun e he f hf =>
      Item.entry_eq_of_name_eq (hhas e he) (hhas f hf)
  · exact List.mem_map_of_mem (f := Attribute.name) (List.mem_map_of_mem he)

theorem exists_ofItem (h : item.Bears attributes) : ∃ c, ofItem item attributes = .ok c := by
  obtain ⟨es, hes⟩ : ∃ es, attributes.mapM (Attribute.entryOf item) = .ok es :=
    Except.exists_mapM_eq_ok fun a ha => Attribute.exists_entryOf_iff.2 (h a ha)
  exact ⟨⟨es⟩, Except.map_eq_ok_iff.2 ⟨es, hes, rfl⟩⟩

theorem names_eq_of_ofItem (h : ofItem item attributes = .ok c) :
    c.entries.map Prod.fst = attributes.map Attribute.name := by
  rw [← (ofItem_eq_ok_iff.1 h).1, List.map_map]
  rfl

/-- The map of the cursor of an item is the part of the item that was asked for. -/
theorem toItem_of_ofItem (h : ofItem item attributes = .ok c) :
    c.toItem = item.restrict (attributes.map Attribute.name) := by
  obtain ⟨rfl, hhas⟩ := ofItem_eq_ok_iff.1 h
  refine NameMap.eq_of_mem_iff fun e => ?_
  rw [NameMap.mem_toList_restrict, toItem, Item.ofEntries, NameMap.mem_toList_ofList]
  · simp only [List.mem_map, exists_exists_and_eq_and]
    constructor
    · rintro ⟨f, hf, rfl⟩
      exact ⟨⟨f, hf, rfl⟩, hhas f hf⟩
    · rintro ⟨⟨f, hf, hname⟩, hget⟩
      have hvalue := hhas f hf
      rw [show f.1 = e.1 from hname, hget] at hvalue
      exact ⟨f, hf, Prod.ext hname (Option.some.inj hvalue).symm⟩
  · simp only [List.forall_mem_map]
    intro e he f hf hname
    rw [Item.entry_eq_of_name_eq (hhas e he) (hhas f hf) hname]

/-- What is told is the first attribute that the item does not have as it is declared. -/
theorem ofItem_eq_error_iff {fault : InputError} :
    ofItem item attributes = .error fault ↔ item.FirstFault attributes fault := by
  rw [ofItem, Except.map_eq_error_iff, Except.mapM_eq_error_iff]
  simp only [Item.FirstFault, Attribute.exists_entryOf_iff, Attribute.entryOf_eq_error_iff]
  rfl

/-! ### From a map -/

theorem scalarEntry_eq_ok_iff {e : String × Value} {f : Entry} :
    scalarEntry e = .ok f ↔ e = (f.1, .scalar f.2) := by
  obtain ⟨name, v⟩ := e
  obtain ⟨n, s⟩ := f
  cases v <;> simp [scalarEntry, Value.scalar?]

theorem scalarEntry_eq_error_iff {e : String × Value} {fault : InputError} :
    scalarEntry e = .error fault ↔
      e.2.scalar? = none ∧ .invalidCursor (.notAScalar e.1) = fault := by
  rw [scalarEntry]
  cases e.2.scalar? <;> simp

/-- The cursor of the entries of a map has these entries, in whatever order they come. -/
theorem perm_of_ofEntries {es : List (String × Value)} (h : ofEntries es = .ok c) :
    (c.entries.map fun e => (e.1, Value.scalar e.2)).Perm es := by
  obtain ⟨fs, hfs, rfl⟩ := Except.map_eq_ok_iff.1 h
  have hmap : es = fs.map fun e => (e.1, Value.scalar e.2) := by
    have hall := Except.mapM_eq_ok_iff.1 hfs
    rw [← List.forall₂_eq_eq_eq, List.forall₂_map_right_iff]
    exact hall.imp fun a b hab => scalarEntry_eq_ok_iff.1 hab
  rw [hmap]
  exact (List.mergeSort_perm _ _).map _

/-- The cursor of a map has the entries of the map. -/
theorem perm_of_ofMap {m : Item} (h : ofMap m = .ok c) :
    (c.entries.map fun e => (e.1, Value.scalar e.2)).Perm m.toList :=
  perm_of_ofEntries h

/-- The map of the cursor of a map is the map. -/
theorem toItem_of_ofMap {m : Item} (h : ofMap m = .ok c) : c.toItem = m :=
  NameMap.ofList_eq_of_perm (perm_of_ofMap h)

theorem isEmpty_toItem (c : Cursor) : c.toItem.isEmpty = c.isEmpty := by
  rw [toItem, Item.ofEntries, NameMap.isEmpty_ofList, List.isEmpty_map, isEmpty]

theorem mem_entries_of_ofMap {m : Item} (h : ofMap m = .ok c) {e : Entry} :
    e ∈ c.entries ↔ (e.1, Value.scalar e.2) ∈ m.toList := by
  rw [← (perm_of_ofMap h).mem_iff, List.mem_map]
  constructor
  · exact fun he => ⟨e, he, rfl⟩
  · rintro ⟨f, hf, hfe⟩
    simp only [Prod.mk.injEq, Value.scalar.injEq] at hfe
    rwa [← Prod.ext hfe.1 hfe.2]

theorem nodup_of_ofMap {m : Item} (h : ofMap m = .ok c) : (c.entries.map Prod.fst).Nodup := by
  have hperm := (perm_of_ofMap h).map Prod.fst
  rw [List.map_map] at hperm
  exact hperm.nodup_iff.2 m.nodup_names

theorem scalar?_of_ofMap {m : Item} (h : ofMap m = .ok c) :
    ∀ e ∈ m.toList, e.2.scalar? ≠ none := by
  intro e he
  obtain ⟨f, -, rfl⟩ := List.mem_map.1 ((perm_of_ofMap h).mem_iff.2 he)
  exact nofun

/-- Entries with anything else than scalars have no cursor. -/
theorem ofEntries_eq_error_cases {es : List (String × Value)} {fault : InputError}
    (h : ofEntries es = .error fault) :
    ∃ e ∈ es, e.2.scalar? = none ∧ .invalidCursor (.notAScalar e.1) = fault := by
  obtain ⟨before, e, after, hsplit, -, he⟩ :=
    Except.mapM_eq_error_iff.1 (Except.map_eq_error_iff.1 h)
  exact ⟨e, by rw [hsplit]; simp, scalarEntry_eq_error_iff.1 he⟩

theorem ofMap_eq_error_cases {m : Item} {fault : InputError} (h : ofMap m = .error fault) :
    ∃ e ∈ m.toList, e.2.scalar? = none ∧ .invalidCursor (.notAScalar e.1) = fault :=
  ofEntries_eq_error_cases h

theorem exists_ofEntries {es : List (String × Value)} (h : ∀ e ∈ es, ∃ s, e.2 = .scalar s) :
    ∃ c, ofEntries es = .ok c := by
  obtain ⟨fs, hfs⟩ : ∃ fs, es.mapM scalarEntry = .ok fs :=
    Except.exists_mapM_eq_ok fun e he => by
      obtain ⟨s, hs⟩ := h e he
      exact ⟨(e.1, s), scalarEntry_eq_ok_iff.2 (Prod.ext rfl hs)⟩
  exact ⟨_, Except.map_eq_ok_iff.2 ⟨fs, hfs, rfl⟩⟩

theorem exists_ofMap {m : Item} (h : ∀ e ∈ m.toList, ∃ s, e.2 = .scalar s) :
    ∃ c, ofMap m = .ok c :=
  exists_ofEntries h

/-! ### From the attributes that an item has -/

/-- The attributes that an item has, with their values. -/
def held (item : Item) (attributes : List Attribute) : List (String × Value) :=
  attributes.filterMap fun a => (item.get? a.name).map (a.name, ·)

theorem mem_held {e : String × Value} :
    e ∈ held item attributes ↔
      e.1 ∈ attributes.map Attribute.name ∧ item.get? e.1 = some e.2 := by
  obtain ⟨name, v⟩ := e
  simp only [held, List.mem_filterMap, Option.map_eq_some_iff, Prod.mk.injEq, List.mem_map]
  constructor
  · rintro ⟨a, ha, w, hw, rfl, rfl⟩
    exact ⟨⟨a, ha, rfl⟩, hw⟩
  · rintro ⟨⟨a, ha, rfl⟩, hv⟩
    exact ⟨a, ha, v, hv, rfl, rfl⟩

theorem mem_toList_ofList_held {e : String × Value} :
    e ∈ (NameMap.ofList (held item attributes)).toList ↔
      e.1 ∈ attributes.map Attribute.name ∧ item.get? e.1 = some e.2 := by
  rw [NameMap.mem_toList_ofList, mem_held]
  intro e he f hf hef
  have hvalue : some e.2 = some f.2 := by
    rw [← (mem_held.1 he).2, ← (mem_held.1 hf).2, hef]
  exact Prod.ext hef (Option.some.inj hvalue)

theorem names_of_held (h : ofMap (.ofList (held item attributes)) = .ok c)
    (hs : schema.attributes ⊆ attributes) {k : PrimaryKey}
    (hk : PrimaryKey.ofItem schema item = .ok k) : c.Names schema attributes item := by
  have hmem : ∀ e, e ∈ c.entries ↔
      e.1 ∈ attributes.map Attribute.name ∧ item.get? e.1 = some (.scalar e.2) := by
    intro e
    rw [mem_entries_of_ofMap h, mem_toList_ofList_held]
  refine ⟨fun e he => ((hmem e).1 he).2, fun a ha => ?_, nodup_of_ofMap h,
    fun e he => ((hmem e).1 he).1⟩
  obtain ⟨hf, hhas⟩ := PrimaryKey.ofItem_eq_ok_iff.1 hk
  have hattributes := hs ha
  rw [← hf] at ha
  obtain ⟨e, he, rfl⟩ := List.mem_map.1 ha
  exact List.mem_map_of_mem ((hmem e).2 ⟨List.mem_map_of_mem hattributes, hhas e he⟩)

theorem exists_ofMap_held (h : item.Bears attributes) :
    ∃ c, ofMap (.ofList (held item attributes)) = .ok c := by
  apply exists_ofMap
  intro e he
  obtain ⟨ha, hv⟩ := mem_toList_ofList_held.1 he
  obtain ⟨a, ha, hname⟩ := List.mem_map.1 ha
  obtain ⟨s, hs, -⟩ := h a ha
  rw [← hname, hs] at hv
  exact ⟨s, (Option.some.inj hv).symm⟩

end Cursor

end Tablescope
