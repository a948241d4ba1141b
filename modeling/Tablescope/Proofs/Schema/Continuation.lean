import Tablescope.Proofs.Cursor.Names
import Tablescope.Proofs.Schema.Description
import Tablescope.Proofs.Schema.Table

/-!
# Continuations of the tables that can be built

The attributes of a continuation are compared with name and type when the key of an index is added
to the key of the table. In a consistent table this is as good as comparing names, and a table is
consistent in whatever way it was built. So a continuation names no attribute twice, unless the key
of the table does, and its map is the part of an item that the two keys ask for.
-/

namespace Tablescope.TableSchema

variable {definitions : List Attribute} {table table' : TableSchema} {key : KeySchema}
  {selection : Selection}

/-! ### Tables that can be built -/

/-- The tables that can be built: from a key, by adding an index to one that was built, or by
resolving a description. -/
inductive IsBuilt : TableSchema → Prop where
  | ofKey {name : String} {definitions : List Attribute} {key : KeySchema} {table : TableSchema}
      (h : TableSchema.ofKey name definitions key = .ok table) : IsBuilt table
  | addIndex {table table' : TableSchema} {index : IndexSchema} (ht : IsBuilt table)
      (h : table.addIndex index = .ok table') : IsBuilt table'
  | resolve {d : TableDescription} {table : TableSchema} (h : d.resolve = .ok table) :
      IsBuilt table

theorem IsBuilt.isConsistent (h : IsBuilt table) : table.IsConsistent := by
  induction h with
  | ofKey h => exact isConsistent_of_ofKey h
  | addIndex _ h ih => exact ih.addIndex h
  | resolve h => exact (TableDescription.resolve_eq_ok_iff.1 h).isConsistent

/-! ### What an index adds -/

/-- Whether these are the attributes of a selected key with names that the table's own key does not
have, in their order and each once. -/
structure Adds (own selected more : List Attribute) : Prop where
  order : more.Sublist selected
  mem_iff : ∀ a, a ∈ more ↔ a ∈ selected ∧ ∀ b ∈ own, b.name ≠ a.name
  nodup : (more.map Attribute.name).Nodup

/-- Where one name has one type, comparing attributes is comparing names. -/
theorem exists_adds {own selected : List Attribute}
    (hnames : ∀ a ∈ own ++ selected, ∀ b ∈ own ++ selected, a.name = b.name → a = b) :
    ∃ more, extend own selected = own ++ more ∧ Adds own selected more := by
  obtain ⟨more, heq, hsub, hnodup, hnew⟩ := exists_extend_eq_append own selected
  have hselected : ∀ {a}, a ∈ selected → a ∈ own ++ selected := List.mem_append_right own
  refine ⟨more, heq, hsub, fun a => ⟨fun ha => ⟨hsub.subset ha, fun b hb hname => ?_⟩, ?_⟩, ?_⟩
  · have hab : b = a :=
      hnames b (List.mem_append_left _ hb) a (hselected (hsub.subset ha)) hname
    exact hnew a ha (hab ▸ hb)
  · rintro ⟨ha, hown⟩
    have hmem : a ∈ own ++ more := heq ▸ mem_extend.2 (.inr ha)
    exact (List.mem_append.1 hmem).resolve_left fun hmem => hown a hmem rfl
  · exact hnodup.map_on fun a ha b hb =>
      hnames a (hselected (hsub.subset ha)) b (hselected (hsub.subset hb))

theorem Adds.nodup_append {own selected more : List Attribute} (h : Adds own selected more)
    (hown : (own.map Attribute.name).Nodup) : ((own ++ more).map Attribute.name).Nodup := by
  rw [List.map_append]
  refine hown.append h.nodup fun name hname hmore => ?_
  obtain ⟨b, hb, rfl⟩ := List.mem_map.1 hname
  obtain ⟨a, ha, hab⟩ := List.mem_map.1 hmore
  exact ((h.mem_iff a).1 ha).2 b hb hab.symm

theorem IsConsistent.exists_cursorAttributes (ht : table.IsConsistent)
    (h : table.keyOf selection = .ok key) :
    ∃ more, table.cursorAttributes selection = .ok (table.key.attributes ++ more) ∧
      Adds table.key.attributes key.attributes more := by
  have hkeys : ∀ {a}, a ∈ table.key.attributes ++ key.attributes →
      ∃ k ∈ table.keys, a ∈ k.attributes := by
    intro a ha
    rcases List.mem_append.1 ha with ha | ha
    · exact ⟨table.key, List.mem_cons_self, ha⟩
    · exact ⟨key, mem_keys_of_keyOf h, ha⟩
  obtain ⟨more, heq, hadds⟩ := exists_adds fun a ha b hb hname => by
    obtain ⟨k, hk, ha⟩ := hkeys ha
    obtain ⟨l, hl, hb⟩ := hkeys hb
    exact ht.eq_of_name_eq hk hl ha hb hname
  exact ⟨more, cursorAttributes_eq_ok_iff.2 ⟨key, h, heq⟩, hadds⟩

/-! ### Using the attributes of a continuation -/

/-- However a table is built, every attribute of its keys is the first definition with its name, so
no name has two types. The attributes of a continuation are those of the table's key and behind them
those that the selected key adds. They have different names if the table's key does, and every item
that bears them has a cursor, whose map is the part of the item with these names. A key that breaks
the rule for declarations is refused, with what is wrong with its first attribute that does. -/
theorem continues_consistently :
    (∀ table, IsBuilt table →
      table.IsConsistent ∧
        (∀ k ∈ table.keys, ∀ l ∈ table.keys, ∀ a ∈ k.attributes, ∀ b ∈ l.attributes,
          a.name = b.name → a = b) ∧
        ∀ selection key, table.keyOf selection = .ok key →
          ∃ more, table.cursorAttributes selection = .ok (table.key.attributes ++ more) ∧
            Adds table.key.attributes key.attributes more ∧
            (table.key.NamesDiffer →
              ((table.key.attributes ++ more).map Attribute.name).Nodup) ∧
            ∀ item : Item, item.Bears (table.key.attributes ++ more) →
              ∃ c, Cursor.ofItem item (table.key.attributes ++ more) = .ok c ∧
                (table.key.NamesDiffer → (c.entries.map Prod.fst).Nodup) ∧
                c.toItem =
                  item.restrict ((table.key.attributes ++ more).map Attribute.name)) ∧
      (∀ name definitions key,
        ((∃ table, ofKey name definitions key = .ok table) ↔ key.IsDeclared definitions) ∧
          ∀ e, ofKey name definitions key = .error e ↔
            key.DeclarationFault definitions (.table name) e) ∧
      ∀ (table : TableSchema) (index : IndexSchema),
        ((∃ table', table.addIndex index = .ok table') ↔
          index.key.IsDeclared table.definitions) ∧
        ∀ e, table.addIndex index = .error e ↔
          index.key.DeclarationFault table.definitions (.index index.name) e := by
  refine ⟨fun table ht => ?_, fun name definitions key => ⟨?_, fun _ => ofKey_eq_error_iff⟩,
    fun table index => ⟨?_, fun _ => addIndex_eq_error_iff⟩⟩
  · have hconsistent := ht.isConsistent
    refine ⟨hconsistent, fun k hk l hl a ha b hb => hconsistent.eq_of_name_eq hk hl ha hb,
      fun selection key hkey => ?_⟩
    obtain ⟨more, hattributes, hadds⟩ := hconsistent.exists_cursorAttributes hkey
    refine ⟨more, hattributes, hadds, hadds.nodup_append, fun item hitem => ?_⟩
    obtain ⟨c, hc⟩ := Cursor.exists_ofItem hitem
    refine ⟨c, hc, fun hdiffer => ?_, Cursor.toItem_of_ofItem hc⟩
    rw [Cursor.names_eq_of_ofItem hc]
    exact hadds.nodup_append hdiffer
  · simp only [ofKey_eq_ok_iff, exists_and_left, exists_eq, and_true]
  · simp only [addIndex_eq_ok_iff, exists_and_left, exists_eq, and_true]

theorem continues_consistently_of_recordings :
    let table := TableDescription.recordingsTable
    let attributes : List Attribute := [⟨"place", .text⟩, ⟨"at", .number⟩, ⟨"kind", .binary⟩]
    let item : Item := .ofList [("title", .bool true), ("place", .scalar (.text "pier")),
      ("at", .scalar (.number "7")), ("kind", .scalar (.binary [2]))]
    IsBuilt table ∧ table.key.NamesDiffer ∧
      (∀ k ∈ table.keys, ∀ a ∈ k.attributes, a.name = "at" → a = ⟨"at", .number⟩) ∧
      table.keyOf (.index "by-kind") = .ok ⟨⟨"kind", .binary⟩, none⟩ ∧
      table.cursorAttributes (.index "by-kind") = .ok attributes ∧ item.Bears attributes ∧
      (∃ c, Cursor.ofItem item attributes = .ok c ∧ (c.entries.map Prod.fst).Nodup ∧
        c.toItem = item.restrict ["place", "at", "kind"]) ∧
      table.addIndex ⟨"by-text", .globalIndex, ⟨⟨"at", .text⟩, some ⟨"place", .text⟩⟩⟩ =
        .error (.conflictingAttributeType "at" .number .text (.index "by-text")) := by
  intro table attributes item
  have hbuilt : IsBuilt table :=
    .resolve (show TableDescription.recordings.resolve = .ok table by decide +kernel)
  have hdiffer : table.key.NamesDiffer := by decide
  have hkey : table.keyOf (.index "by-kind") = .ok ⟨⟨"kind", .binary⟩, none⟩ := by decide +kernel
  have hbears : item.Bears attributes :=
    (show item.Carries attributes by decide +kernel).bears
  have hattributes : table.cursorAttributes (.index "by-kind") = .ok attributes := by
    decide +kernel
  obtain ⟨-, hnames, hcontinues⟩ := continues_consistently.1 table hbuilt
  have htime : ∀ k ∈ table.keys, ∀ a ∈ k.attributes, a.name = "at" → a = ⟨"at", .number⟩ :=
    fun k hk a ha => hnames k hk table.key (by decide) a ha ⟨"at", .number⟩ (by decide)
  obtain ⟨more, hmore, -, -, hitem⟩ := hcontinues (.index "by-kind") _ hkey
  obtain rfl : more = [⟨"kind", .binary⟩] :=
    List.append_cancel_left (Except.ok.inj (hmore.symm.trans hattributes))
  obtain ⟨c, hc, hnodup, hmap⟩ := hitem item hbears
  have hconflict := ((continues_consistently.2.2 table
    ⟨"by-text", .globalIndex, ⟨⟨"at", .text⟩, some ⟨"place", .text⟩⟩⟩).2 _).2
    ⟨[], _, _, rfl, by simp,
      .conflicting ⟨[⟨"place", .text⟩], _, rfl, rfl, by decide⟩ (by decide)⟩
  exact ⟨hbuilt, hdiffer, htime, hkey, hattributes, hbears, ⟨c, hc, hnodup hdiffer, hmap⟩,
    hconflict⟩

end Tablescope.TableSchema
