import Tablescope.Proofs.Schema.Elements

/-!
# What a table description stands for

A description and the table it stands for are related without regard to how the one is made of the
other: the table has the defined attributes in order, the key that the elements describe, and the
named indexes in order, the global ones first. A description is resolved to a table exactly if it
stands for it. The keys of this table are declared, so the check that every key attribute is used
with its declared type never fails here, and what is told of a description that stands for no table
is the first thing wrong with it.
-/

namespace Tablescope.TableDescription

variable {definitions : List Attribute} {context : SchemaContext} {elements : List KeyElement}
  {e : SchemaError} {table table' : TableSchema} {is : List (IndexKind × IndexDescription)}
  {d : TableDescription}

/-! ### Indexes -/

/-- The indexes with their kinds, the global ones first. -/
def indexes (d : TableDescription) : List (IndexKind × IndexDescription) :=
  d.globalIndexes.map (.globalIndex, ·) ++ d.localIndexes.map (.localIndex, ·)

/-- Which indexes are described; whatever is said of an index without a name, it is none. -/
inductive Lists (definitions : List Attribute) :
    List (IndexKind × IndexDescription) → List IndexSchema → Prop where
  | nil : Lists definitions [] []
  | unnamed {kind : IndexKind} {i : IndexDescription} {is : List (IndexKind × IndexDescription)}
      {indexes : List IndexSchema} (hi : i.name = none) (h : Lists definitions is indexes) :
      Lists definitions ((kind, i) :: is) indexes
  | named {kind : IndexKind} {i : IndexDescription} {is : List (IndexKind × IndexDescription)}
      {indexes : List IndexSchema} {name : String} {key : KeySchema} (hi : i.name = some name)
      (hkey : key.IsDescribed definitions i.key) (h : Lists definitions is indexes) :
      Lists definitions ((kind, i) :: is) (⟨name, kind, key⟩ :: indexes)

/-- What is wrong with the first named index that has no key. -/
inductive IndexFault (definitions : List Attribute) :
    List (IndexKind × IndexDescription) → SchemaError → Prop where
  | here {kind : IndexKind} {i : IndexDescription} {is : List (IndexKind × IndexDescription)}
      {name : String} {e : SchemaError} (hi : i.name = some name)
      (h : KeySchema.DescriptionFault definitions (.index name) i.key e) :
      IndexFault definitions ((kind, i) :: is) e
  | unnamed {kind : IndexKind} {i : IndexDescription} {is : List (IndexKind × IndexDescription)}
      {e : SchemaError} (hi : i.name = none) (h : IndexFault definitions is e) :
      IndexFault definitions ((kind, i) :: is) e
  | named {kind : IndexKind} {i : IndexDescription} {is : List (IndexKind × IndexDescription)}
      {name : String} {key : KeySchema} {e : SchemaError} (hi : i.name = some name)
      (hkey : key.IsDescribed definitions i.key) (h : IndexFault definitions is e) :
      IndexFault definitions ((kind, i) :: is) e

section Cons

variable {kind : IndexKind} {i : IndexDescription} {indexes : List IndexSchema} {name : String}

theorem lists_unnamed_iff (hi : i.name = none) :
    Lists definitions ((kind, i) :: is) indexes ↔ Lists definitions is indexes := by
  refine ⟨fun h => ?_, .unnamed hi⟩
  cases h with
  | unnamed _ h => exact h
  | named hname => rw [hi] at hname; cases hname

theorem lists_named_iff (hi : i.name = some name) :
    Lists definitions ((kind, i) :: is) indexes ↔
      ∃ key rest, key.IsDescribed definitions i.key ∧ Lists definitions is rest ∧
        indexes = ⟨name, kind, key⟩ :: rest := by
  constructor
  · intro h
    cases h with
    | unnamed hname => rw [hi] at hname; cases hname
    | named hname hkey h =>
      cases hi.symm.trans hname
      exact ⟨_, _, hkey, h, rfl⟩
  · rintro ⟨key, rest, hkey, h, rfl⟩
    exact .named hi hkey h

theorem indexFault_unnamed_iff (hi : i.name = none) :
    IndexFault definitions ((kind, i) :: is) e ↔ IndexFault definitions is e := by
  refine ⟨fun h => ?_, .unnamed hi⟩
  cases h with
  | here hname => rw [hi] at hname; cases hname
  | unnamed _ h => exact h
  | named hname => rw [hi] at hname; cases hname

theorem indexFault_named_iff (hi : i.name = some name) :
    IndexFault definitions ((kind, i) :: is) e ↔
      KeySchema.DescriptionFault definitions (.index name) i.key e ∨
        (∃ key : KeySchema, key.IsDescribed definitions i.key) ∧ IndexFault definitions is e := by
  constructor
  · intro h
    cases h with
    | here hname h =>
      cases hi.symm.trans hname
      exact .inl h
    | unnamed hname => rw [hi] at hname; cases hname
    | named _ hkey h => exact .inr ⟨⟨_, hkey⟩, h⟩
  · rintro (h | ⟨⟨key, hkey⟩, h⟩)
    · exact .here hi h
    · exact .named hi hkey h

end Cons

/-! ### Adding indexes -/

/-- The index as it is added, if it has a name. -/
def named? (i : IndexKind × IndexDescription) : Option (String × IndexKind × List KeyElement) :=
  i.2.name.map (·, i.1, i.2.key)

theorem namedIndexes_eq (d : TableDescription) :
    d.namedIndexes = d.indexes.filterMap named? := by
  simp only [namedIndexes, indexes, List.filterMap_append, List.filterMap_map]
  rfl

theorem addIndex_eq_ok_iff {name : String} {kind : IndexKind} :
    addIndex table (name, kind, elements) = .ok table' ↔
      ∃ key : KeySchema, key.IsDescribed table.definitions elements ∧
        table' = table.withIndexes [⟨name, kind, key⟩] := by
  simp only [addIndex, Except.bind_eq_ok_iff, KeySchema.ofElements_eq_ok_iff,
    TableSchema.addIndex_eq_ok_iff]
  exact exists_congr fun key =>
    ⟨fun ⟨hkey, _, h⟩ => ⟨hkey, h⟩, fun ⟨hkey, h⟩ => ⟨hkey, hkey.isDeclared, h⟩⟩

/-- A key that is described is declared, so the description is all that can be wrong. -/
theorem addIndex_eq_error_iff {name : String} {kind : IndexKind} :
    addIndex table (name, kind, elements) = .error e ↔
      KeySchema.DescriptionFault table.definitions (.index name) elements e := by
  simp only [addIndex, Except.bind_eq_error_iff, KeySchema.ofElements_eq_error_iff,
    KeySchema.ofElements_eq_ok_iff]
  refine or_iff_left ?_
  rintro ⟨key, hkey, h⟩
  have hok : table.addIndex ⟨name, kind, key⟩ = .ok _ :=
    TableSchema.addIndex_eq_ok_iff.2 ⟨hkey.isDeclared, rfl⟩
  rw [hok] at h
  cases h

theorem foldlM_addIndex_eq_ok_iff :
    (is.filterMap named?).foldlM addIndex table = .ok table' ↔
      ∃ indexes, Lists table.definitions is indexes ∧ table' = table.withIndexes indexes := by
  induction is generalizing table with
  | nil =>
    rw [List.filterMap_nil, List.foldlM_nil]
    constructor
    · intro h
      cases h
      exact ⟨[], .nil, (TableSchema.withIndexes_nil _).symm⟩
    · rintro ⟨_, ⟨⟩, rfl⟩
      rw [TableSchema.withIndexes_nil]
      rfl
  | cons i is ih =>
    obtain ⟨kind, i⟩ := i
    rcases hi : i.name with _ | name
    · rw [List.filterMap_cons_none (by simp [named?, hi]), ih]
      simp only [lists_unnamed_iff hi]
    · rw [List.filterMap_cons_some (by simp [named?, hi]; rfl), List.foldlM_cons,
        Except.bind_eq_ok_iff]
      simp only [addIndex_eq_ok_iff, ih, lists_named_iff hi]
      -- an index leaves the definitions alone, so the others are judged by the same ones
      constructor
      · rintro ⟨_, ⟨key, hkey, rfl⟩, rest, h, rfl⟩
        exact ⟨_, ⟨key, rest, hkey, h, rfl⟩, TableSchema.withIndexes_cons ..⟩
      · rintro ⟨_, ⟨key, rest, hkey, h, rfl⟩, rfl⟩
        exact ⟨_, ⟨key, hkey, rfl⟩, rest, h, (TableSchema.withIndexes_cons ..).symm⟩

theorem foldlM_addIndex_eq_error_iff :
    (is.filterMap named?).foldlM addIndex table = .error e ↔
      IndexFault table.definitions is e := by
  induction is generalizing table with
  | nil =>
    rw [List.filterMap_nil, List.foldlM_nil]
    constructor <;> rintro ⟨⟩
  | cons i is ih =>
    obtain ⟨kind, i⟩ := i
    rcases hi : i.name with _ | name
    · rw [List.filterMap_cons_none (by simp [named?, hi]), ih, indexFault_unnamed_iff hi]
    · rw [List.filterMap_cons_some (by simp [named?, hi]; rfl), List.foldlM_cons,
        Except.bind_eq_error_iff, indexFault_named_iff hi]
      simp only [addIndex_eq_ok_iff, addIndex_eq_error_iff, ih]
      refine or_congr_right ?_
      constructor
      · rintro ⟨_, ⟨key, hkey, rfl⟩, h⟩
        exact ⟨⟨key, hkey⟩, h⟩
      · rintro ⟨⟨key, hkey⟩, h⟩
        exact ⟨_, ⟨key, hkey, rfl⟩, h⟩

/-- All named indexes have a key exactly if their elements make one. -/
theorem exists_lists_iff :
    (∃ indexes, Lists definitions is indexes) ↔
      ∀ i ∈ is, i.2.name ≠ none →
        KeySchema.HasElements (definitions.map Attribute.name) i.2.key := by
  induction is with
  | nil => exact ⟨fun _ => by simp, fun _ => ⟨[], .nil⟩⟩
  | cons i is ih =>
    obtain ⟨kind, i⟩ := i
    rw [List.forall_mem_cons, ← ih, ← KeySchema.exists_isDescribed_iff]
    rcases hi : i.name with _ | name
    · simp [lists_unnamed_iff hi]
    · simp only [lists_named_iff hi, ne_eq, reduceCtorEq, not_false_eq_true, forall_const]
      constructor
      · rintro ⟨_, key, rest, hkey, h, -⟩
        exact ⟨⟨key, hkey⟩, rest, h⟩
      · rintro ⟨⟨key, hkey⟩, rest, h⟩
        exact ⟨_, key, rest, hkey, h, rfl⟩

/-- The keys of listed indexes are declared. -/
theorem Lists.isDeclared {indexes : List IndexSchema} (h : Lists definitions is indexes) :
    ∀ index ∈ indexes, index.key.IsDeclared definitions := by
  induction h with
  | nil => simp
  | unnamed _ _ ih => exact ih
  | named _ hkey _ ih => exact List.forall_mem_cons.2 ⟨hkey.isDeclared, ih⟩

/-! ### Tables -/

/-- Whether a description stands for a table. -/
structure Describes (d : TableDescription) (table : TableSchema) : Prop where
  name : d.name = some table.name
  definitions : List.Forall₂ AttributeDefinition.Declares d.definitions table.definitions
  key : table.key.IsDescribed table.definitions d.key
  indexes : Lists table.definitions d.indexes table.indexes

/-- Whether a description stands for some table. -/
structure IsResolvable (d : TableDescription) : Prop where
  name : d.name ≠ none
  definitions : ∀ a ∈ d.definitions, a.IsScalar
  key : KeySchema.HasElements (d.definitions.map AttributeDefinition.name) d.key
  indexes : ∀ i ∈ d.indexes, i.2.name ≠ none →
    KeySchema.HasElements (d.definitions.map AttributeDefinition.name) i.2.key

/-- The first thing wrong with a description that stands for no table. -/
inductive Fault (d : TableDescription) : SchemaError → Prop where
  | noName (h : d.name = none) : Fault d .missingTableName
  | definition {name : String} {before after : List AttributeDefinition}
      {a : AttributeDefinition} (hname : d.name = some name)
      (hd : d.definitions = before ++ a :: after) (hbefore : ∀ b ∈ before, b.IsScalar)
      (ha : ¬a.IsScalar) : Fault d (.unsupportedAttributeType a.name a.type)
  | key {name : String} {definitions : List Attribute} {e : SchemaError}
      (hname : d.name = some name)
      (hd : List.Forall₂ AttributeDefinition.Declares d.definitions definitions)
      (h : KeySchema.DescriptionFault definitions (.table name) d.key e) : Fault d e
  | index {name : String} {definitions : List Attribute} {key : KeySchema} {e : SchemaError}
      (hname : d.name = some name)
      (hd : List.Forall₂ AttributeDefinition.Declares d.definitions definitions)
      (hkey : key.IsDescribed definitions d.key) (h : IndexFault definitions d.indexes e) :
      Fault d e

theorem Describes.isConsistent (h : d.Describes table) : table.IsConsistent :=
  TableSchema.isConsistent_iff.2 ⟨h.key.isDeclared, h.indexes.isDeclared⟩

theorem resolve_eq_ok_iff : d.resolve = .ok table ↔ d.Describes table := by
  rw [resolve]
  constructor
  · intro h
    split at h
    · cases h
    · next name hname =>
      obtain ⟨definitions, hd, h⟩ := Except.bind_eq_ok_iff.1 h
      obtain ⟨key, hkey, h⟩ := Except.bind_eq_ok_iff.1 h
      obtain ⟨start, hstart, h⟩ := Except.bind_eq_ok_iff.1 h
      obtain ⟨-, rfl⟩ := TableSchema.ofKey_eq_ok_iff.1 hstart
      rw [namedIndexes_eq, foldlM_addIndex_eq_ok_iff] at h
      obtain ⟨indexes, hindexes, rfl⟩ := h
      exact ⟨hname, AttributeDefinition.mapM_resolve_eq_ok_iff.1 hd,
        KeySchema.ofElements_eq_ok_iff.1 hkey, hindexes⟩
  · rintro ⟨hname, hd, hkey, hindexes⟩
    rw [hname, namedIndexes_eq]
    refine Except.bind_eq_ok_iff.2 ⟨_, AttributeDefinition.mapM_resolve_eq_ok_iff.2 hd, ?_⟩
    refine Except.bind_eq_ok_iff.2 ⟨_, KeySchema.ofElements_eq_ok_iff.2 hkey, ?_⟩
    refine Except.bind_eq_ok_iff.2 ⟨_, TableSchema.ofKey_eq_ok_iff.2 ⟨hkey.isDeclared, rfl⟩, ?_⟩
    exact foldlM_addIndex_eq_ok_iff.2 ⟨_, hindexes, rfl⟩

theorem resolve_eq_error_iff : d.resolve = .error e ↔ d.Fault e := by
  rw [resolve]
  constructor
  · intro h
    split at h
    · next hname =>
      cases h
      exact .noName hname
    · next name hname =>
      rcases Except.bind_eq_error_iff.1 h with h | ⟨definitions, hd, h⟩
      · obtain ⟨before, a, after, hds, hbefore, ha, rfl⟩ := AttributeDefinition.mapM_resolve_eq_error_iff.1 h
        exact .definition hname hds hbefore ha
      rw [AttributeDefinition.mapM_resolve_eq_ok_iff] at hd
      rcases Except.bind_eq_error_iff.1 h with h | ⟨key, hkey, h⟩
      · exact .key hname hd (KeySchema.ofElements_eq_error_iff.1 h)
      rw [KeySchema.ofElements_eq_ok_iff] at hkey
      rcases Except.bind_eq_error_iff.1 h with h | ⟨start, hstart, h⟩
      · have hok : TableSchema.ofKey name definitions key = .ok _ :=
          TableSchema.ofKey_eq_ok_iff.2 ⟨hkey.isDeclared, rfl⟩
        rw [hok] at h
        cases h
      obtain ⟨-, rfl⟩ := TableSchema.ofKey_eq_ok_iff.1 hstart
      rw [namedIndexes_eq, foldlM_addIndex_eq_error_iff] at h
      exact .index hname hd hkey h
  · rintro (hname | ⟨hname, hds, hbefore, ha⟩ | ⟨hname, hd, h⟩ | ⟨hname, hd, hkey, h⟩) <;>
      rw [hname]
    · rfl
    · exact Except.bind_eq_error_iff.2
        (.inl (AttributeDefinition.mapM_resolve_eq_error_iff.2 ⟨_, _, _, hds, hbefore, ha, rfl⟩))
    · rw [← AttributeDefinition.mapM_resolve_eq_ok_iff] at hd
      exact Except.bind_eq_error_iff.2 (.inr ⟨_, hd,
        Except.bind_eq_error_iff.2 (.inl (KeySchema.ofElements_eq_error_iff.2 h))⟩)
    · rw [← AttributeDefinition.mapM_resolve_eq_ok_iff] at hd
      rw [namedIndexes_eq]
      refine Except.bind_eq_error_iff.2 (.inr ⟨_, hd, ?_⟩)
      refine Except.bind_eq_error_iff.2 (.inr ⟨_, KeySchema.ofElements_eq_ok_iff.2 hkey, ?_⟩)
      refine Except.bind_eq_error_iff.2
        (.inr ⟨_, TableSchema.ofKey_eq_ok_iff.2 ⟨hkey.isDeclared, rfl⟩, ?_⟩)
      exact foldlM_addIndex_eq_error_iff.2 h

theorem exists_describes_iff : (∃ table, d.Describes table) ↔ d.IsResolvable := by
  constructor
  · rintro ⟨table, hname, hd, hkey, hindexes⟩
    have hnames := AttributeDefinition.names_of_forall₂_declares hd
    refine ⟨by simp [hname], AttributeDefinition.exists_forall₂_declares_iff.1 ⟨_, hd⟩, ?_, ?_⟩
    · rw [← hnames]
      exact KeySchema.exists_isDescribed_iff.1 ⟨_, hkey⟩
    · rw [← hnames]
      exact exists_lists_iff.1 ⟨_, hindexes⟩
  · rintro ⟨hname, hds, hkey, hindexes⟩
    obtain ⟨name, hname⟩ := Option.ne_none_iff_exists'.1 hname
    obtain ⟨definitions, hd⟩ := AttributeDefinition.exists_forall₂_declares_iff.2 hds
    rw [← AttributeDefinition.names_of_forall₂_declares hd] at hkey hindexes
    obtain ⟨key, hkey⟩ := KeySchema.exists_isDescribed_iff.2 hkey
    obtain ⟨indexes, hindexes⟩ := exists_lists_iff.2 hindexes
    exact ⟨⟨name, definitions, key, indexes⟩, hname, hd, hkey, hindexes⟩

/-! ### What does not matter and what does not happen -/

/-- The description without the indexes that have no name. -/
def withoutUnnamed (d : TableDescription) : TableDescription :=
  { d with
    globalIndexes := d.globalIndexes.filter (·.name.isSome)
    localIndexes := d.localIndexes.filter (·.name.isSome) }

theorem namedIndexes_withoutUnnamed (d : TableDescription) :
    d.withoutUnnamed.namedIndexes = d.namedIndexes := by
  have hfilter : ∀ (kind : IndexKind) (is : List IndexDescription),
      (is.filter (·.name.isSome)).filterMap (fun i => i.name.map (·, kind, i.key)) =
        is.filterMap fun i => i.name.map (·, kind, i.key) := by
    intro kind is
    rw [List.filterMap_filter]
    refine congrArg (List.filterMap · is) (funext fun i => ?_)
    cases i.name <;> rfl
  rw [namedIndexes, namedIndexes]
  exact congrArg₂ (· ++ ·) (hfilter ..) (hfilter ..)

theorem resolve_withoutUnnamed (d : TableDescription) : d.withoutUnnamed.resolve = d.resolve := by
  rw [resolve, resolve, namedIndexes_withoutUnnamed]
  rfl

variable {name : String} {declared used : ScalarType} {other : SchemaContext}

theorem not_descriptionFault_conflicting :
    ¬KeySchema.DescriptionFault definitions context elements
      (.conflictingAttributeType name declared used other) := nofun

theorem not_indexFault_conflicting :
    ¬IndexFault definitions is (.conflictingAttributeType name declared used other) := by
  intro h
  generalize he : SchemaError.conflictingAttributeType name declared used other = e at h
  induction h with
  | here _ h => exact not_descriptionFault_conflicting (he ▸ h)
  | unnamed _ _ ih => exact ih he
  | named _ _ _ ih => exact ih he

/-- What a key takes from the definitions has the declared type. -/
theorem not_fault_conflicting :
    ¬d.Fault (.conflictingAttributeType name declared used other) := by
  intro h
  cases h with
  | key _ _ h => exact not_descriptionFault_conflicting h
  | index _ _ _ h => exact not_indexFault_conflicting h

/-- A description is resolved exactly if it has a name, scalar definitions and keys of defined
attributes, to the one table that it stands for. The table is built again from its own parts, and
indexes without a name do not matter. What is told otherwise is the first thing wrong with it, which
is never that an attribute is used with another type than it is declared with. -/
theorem resolves_exactly (d : TableDescription) :
    ((∃ table, d.resolve = .ok table) ↔ d.IsResolvable) ∧
      (∀ table, d.resolve = .ok table ↔ d.Describes table) ∧
      (∀ table, d.resolve = .ok table →
        TableSchema.ofParts table.name table.definitions table.key table.indexes = .ok table) ∧
      d.withoutUnnamed.resolve = d.resolve ∧
      (∀ e, d.resolve = .error e ↔ d.Fault e) ∧
      ∀ name declared used context,
        d.resolve ≠ .error (.conflictingAttributeType name declared used context) := by
  refine ⟨?_, fun _ => resolve_eq_ok_iff, fun table h => ?_, resolve_withoutUnnamed d,
    fun _ => resolve_eq_error_iff, ?_⟩
  · simp only [resolve_eq_ok_iff]
    exact exists_describes_iff
  · exact TableSchema.ofParts_self_iff.2 (resolve_eq_ok_iff.1 h).isConsistent
  · intro name declared used context h
    exact not_fault_conflicting (resolve_eq_error_iff.1 h)

/-- Recordings by place and time. The time is defined twice, the key names its elements in an odd
order and more than once, and of the indexes one has neither a name nor a key. -/
def recordings : TableDescription where
  name := some "recordings"
  definitions := [⟨"place", "S"⟩, ⟨"at", "N"⟩, ⟨"at", "S"⟩, ⟨"kind", "B"⟩]
  key := [⟨"spare", none⟩, ⟨"at", some .range⟩, ⟨"place", some .hash⟩, ⟨"lost", some .hash⟩]
  globalIndexes := [⟨none, [⟨"lost", some .range⟩]⟩, ⟨some "by-kind", [⟨"kind", some .hash⟩]⟩]
  localIndexes := [⟨some "by-time", [⟨"place", some .hash⟩, ⟨"at", some .range⟩]⟩]

/-- The table of the recordings. -/
def recordingsTable : TableSchema where
  name := "recordings"
  definitions := [⟨"place", .text⟩, ⟨"at", .number⟩, ⟨"at", .text⟩, ⟨"kind", .binary⟩]
  key := ⟨⟨"place", .text⟩, some ⟨"at", .number⟩⟩
  indexes := [⟨"by-kind", .globalIndex, ⟨⟨"kind", .binary⟩, none⟩⟩,
    ⟨"by-time", .localIndex, ⟨⟨"place", .text⟩, some ⟨"at", .number⟩⟩⟩]

theorem resolves_exactly_of_recordings :
    let named := { recordings with globalIndexes := [⟨some "", [⟨"lost", some .range⟩]⟩] }
    recordings.resolve = .ok recordingsTable ∧ recordings.Describes recordingsTable ∧
      TableSchema.ofParts "recordings" recordingsTable.definitions recordingsTable.key
        recordingsTable.indexes = .ok recordingsTable ∧
      named.resolve = .error (.missingHashKey (.index "")) ∧
      named.Fault (.missingHashKey (.index "")) := by
  intro named
  have hresolve : recordings.resolve = .ok recordingsTable := by decide +kernel
  have hfault : named.resolve = .error (.missingHashKey (.index "")) := by decide +kernel
  obtain ⟨-, hdescribes, hparts, -⟩ := resolves_exactly recordings
  obtain ⟨-, -, -, -, herror, -⟩ := resolves_exactly named
  exact ⟨hresolve, (hdescribes _).1 hresolve, hparts _ hresolve, hfault, (herror _).1 hfault⟩

end Tablescope.TableDescription
