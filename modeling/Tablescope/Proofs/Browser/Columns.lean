import Tablescope.Proofs.Browser.Alignment
import Tablescope.Proofs.NameMap
import Tablescope.Proofs.Text.Order

/-!
# The columns of a page

A page is shown with one column for each attribute that some item has, behind those of the key of the
table, which are there in any case. The names are collected in a map, so the other columns ascend and
no order in which items and their attributes are gone through matters.
-/

namespace Tablescope

namespace BrowsePage

variable {key : KeySchema} {items : List Item} {names : List String}

/-- The columns of items that have these names, gone through in this order. -/
def columnsOfNames (key : KeySchema) (names : List String) : List String :=
  let keyNames := key.attributes.map Attribute.name
  keyNames ++ (NameMap.ofList (names.map (·, ()))).names.filter (· ∉ keyNames)

theorem columnsOf_eq (key : KeySchema) (items : List Item) :
    columnsOf key items = columnsOfNames key (items.flatMap NameMap.names) := by
  rw [columnsOf, attributeNames, columnsOfNames, List.map_flatMap]

/-! ### Names -/

theorem mem_toList_ofList_names {e : String × Unit} :
    e ∈ (NameMap.ofList (names.map (·, ()))).toList ↔ e.1 ∈ names := by
  rw [NameMap.mem_toList_ofList fun _ _ _ _ h => Prod.ext h rfl, List.mem_map]
  constructor
  · rintro ⟨name, hname, rfl⟩
    exact hname
  · exact fun h => ⟨e.1, h, rfl⟩

theorem mem_names_ofList {name : String} :
    name ∈ (NameMap.ofList (names.map (·, ()))).names ↔ name ∈ names := by
  rw [NameMap.names, List.mem_map]
  constructor
  · rintro ⟨e, he, rfl⟩
    exact mem_toList_ofList_names.1 he
  · exact fun h => ⟨(name, ()), mem_toList_ofList_names.2 h, rfl⟩

/-- In which order the names are gone through does not matter, nor how often one comes. -/
theorem columnsOfNames_congr {others : List String} (h : ∀ name, name ∈ names ↔ name ∈ others) :
    columnsOfNames key names = columnsOfNames key others := by
  have hmaps : NameMap.ofList (names.map (·, ())) = NameMap.ofList (others.map (·, ())) :=
    NameMap.eq_of_mem_iff fun e => by
      rw [mem_toList_ofList_names, mem_toList_ofList_names, h]
  rw [columnsOfNames, columnsOfNames, hmaps]

theorem perm_flatten {rows : List (List String)}
    (h : List.Forall₂ (fun row item => row.Perm (NameMap.names item)) rows items) :
    rows.flatten.Perm (items.flatMap NameMap.names) := by
  induction h with
  | nil => exact .nil
  | cons hrow _ ih => exact hrow.append ih

/-! ### Columns -/

/-- Whether these are the columns of items: the names of the key, then the other names that some
item has, in the order of their bytes. -/
structure AreColumns (key : KeySchema) (items : List Item) (columns : List String) : Prop where
  exists_others : ∃ others, columns = key.attributes.map Attribute.name ++ others ∧
    (∀ name, name ∈ others ↔ name ∉ key.attributes.map Attribute.name ∧
      ∃ item ∈ items, name ∈ item.names) ∧
    (others.map Text.Utf8.encode).Pairwise (· < ·)
  nodup : columns.Nodup
  /-- Each name of an item is there exactly once. -/
  count : ∀ item ∈ items, ∀ name ∈ item.names, columns.count name = 1

theorem areColumns_columnsOf (hd : key.NamesDiffer) (items : List Item) :
    AreColumns key items (columnsOf key items) := by
  have hmem : ∀ name, name ∈ (NameMap.ofList ((items.flatMap NameMap.names).map (·, ()))).names ↔
      ∃ item ∈ items, name ∈ item.names := fun name => by
    rw [mem_names_ofList, List.mem_flatMap]
  have hascending := (NameMap.ofList ((items.flatMap NameMap.names).map (·, ()))).ascending
  have hnodup : (columnsOf key items).Nodup := by
    rw [columnsOf_eq, columnsOfNames, List.nodup_append]
    refine ⟨hd, (NameMap.nodup_names _).filter _, ?_⟩
    rintro name hname _ hother rfl
    exact of_decide_eq_true (List.mem_filter.1 hother).2 hname
  refine ⟨⟨_, columnsOf_eq key items, fun name => ?_, ?_⟩, hnodup, fun item hi name hname => ?_⟩
  · rw [List.mem_filter, hmem, decide_eq_true_iff, and_comm]
  · rw [List.pairwise_map]
    exact (hascending.imp Text.Utf8.encode_lt_encode_iff.2).filter _
  · refine List.count_eq_one_of_mem hnodup ?_
    rw [columnsOf_eq, columnsOfNames, List.mem_append, List.mem_filter, hmem]
    by_cases hkey : name ∈ key.attributes.map Attribute.name
    · exact .inl hkey
    · exact .inr ⟨⟨item, hi, hname⟩, decide_eq_true hkey⟩

end BrowsePage

namespace Browser

variable {σ : Type} {b : Browser σ} {r : BrowseRequest} {s t u : σ} {schema : TableSchema}
variable {page : BrowsePage}

/-- The columns of a page are those of its own items. -/
theorem columns_of_browse (hschema : b.store.describe r.table s = (.ok schema, u))
    (h : b.browse r s = (.ok page, t)) :
    page.columns = BrowsePage.columnsOf schema.key (page.items.map BrowseItem.item) := by
  obtain ⟨schema', u', q, -, hschema', hq, -⟩ := browse_eq_ok_cases h
  rw [hschema] at hschema'
  cases hschema'
  have hpage := browse_eq hschema hq
  rw [h] at hpage
  obtain ⟨logical, -, hpage⟩ := Except.bind_eq_ok_iff.1 hpage.symm
  obtain ⟨hitems, -, hcolumns, -⟩ := BrowsePage.ofPage_eq_ok_iff.1 (Except.mapError_eq_ok_iff.1 hpage)
  rw [hitems, hcolumns]

/-- The columns of a page begin with the key of the table, whatever was read; behind it are exactly
the other attributes of the items that are returned, in the order of their bytes. No column is there
twice, each attribute of an item is one of them, and they are the same in whatever order the items
and the attributes of each item are gone through. -/
theorem columns_keys_first (hschema : b.store.describe r.table s = (.ok schema, u))
    (hd : schema.key.NamesDiffer) (h : b.browse r s = (.ok page, t)) :
    BrowsePage.AreColumns schema.key (page.items.map BrowseItem.item) page.columns ∧
      ∀ items', items'.Perm (page.items.map BrowseItem.item) →
        BrowsePage.columnsOf schema.key items' = page.columns ∧
          ∀ rows, List.Forall₂ (fun row item => row.Perm (NameMap.names item)) rows items' →
            BrowsePage.columnsOfNames schema.key rows.flatten = page.columns := by
  have hcolumns := columns_of_browse hschema h
  rw [hcolumns]
  refine ⟨BrowsePage.areColumns_columnsOf hd _, fun items' hitems => ?_⟩
  have hperm := hitems.flatMap_right NameMap.names
  rw [BrowsePage.columnsOf_eq, BrowsePage.columnsOf_eq]
  refine ⟨BrowsePage.columnsOfNames_congr fun name => hperm.mem_iff, fun rows hrows => ?_⟩
  exact BrowsePage.columnsOfNames_congr fun name =>
    ((BrowsePage.perm_flatten hrows).trans hperm).mem_iff

/-- Notes with further attributes, of which the last is cut off where two are wanted. -/
def labelledNotes : List Item :=
  [MemoryStore.note "c" "1" [("é", .null true), ("text", .scalar (.text "first"))],
    MemoryStore.note "a,b" "2" [("Text", .null true), ("é", .null true)],
    MemoryStore.note "d" "3" [("late", .null true)]]

theorem columns_keys_first_of_labelledNotes :
    let key := MemoryStore.notes.schema.key
    let outcome := (MemoryStore.notes.browser {}).browse (notesByNo 2) ⟨labelledNotes, 0⟩
    key.NamesDiffer ∧ ∃ page t, outcome = (.ok page, t) ∧
      page.columns = ["user", "no", "Text", "text", "é"] ∧
      BrowsePage.AreColumns key (labelledNotes.take 2) page.columns ∧
      BrowsePage.columnsOf key (labelledNotes.take 2).reverse = page.columns := by
  intro key outcome
  have hd : key.NamesDiffer := by decide
  have houtcome : outcome =
      (.ok ⟨["user", "no", "Text", "text", "é"],
        [⟨"c,1", labelledNotes[0]⟩, ⟨"a%2Cb,2", labelledNotes[1]⟩],
        some ⟨[("user", .text "a,b"), ("no", .number "2")]⟩⟩, ⟨labelledNotes, 1⟩) := by
    decide +kernel
  obtain ⟨hcolumns, hperm⟩ := columns_keys_first rfl hd houtcome
  exact ⟨hd, _, _, houtcome, rfl, hcolumns, (hperm _ (List.reverse_perm _)).1⟩

end Browser

end Tablescope
