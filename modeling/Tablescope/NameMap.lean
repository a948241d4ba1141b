/-!
# Maps from names

A map from names to values is the list of its entries in strictly ascending order of their names,
so two maps with the same entries are equal, and listing a map always gives the same order.
Names are ordered by code points, which is also the order of their UTF-8 bytes.

`insert` keeps the order, `get?` finds what was inserted last under a name.
-/

namespace Tablescope

/-- A finite map from names. -/
structure NameMap (α : Type) where
  /-- The entries, in ascending order of the names. -/
  toList : List (String × α)
  /-- No two entries have one name, and the names ascend. -/
  ascending : (toList.map Prod.fst).Pairwise (· < ·)

namespace NameMap

variable {α β : Type}

@[ext] theorem ext {m n : NameMap α} (h : m.toList = n.toList) : m = n := by
  cases m
  cases n
  cases h
  rfl

instance [DecidableEq α] : DecidableEq (NameMap α) := fun m n =>
  if h : m.toList = n.toList then isTrue (ext h) else isFalse fun e => h (e ▸ rfl)

/-- The map without entries. -/
def empty : NameMap α := ⟨[], List.Pairwise.nil⟩

instance : EmptyCollection (NameMap α) := ⟨empty⟩

instance : Inhabited (NameMap α) := ⟨empty⟩

/-- Whether there are no entries. -/
def isEmpty (m : NameMap α) : Bool := m.toList.isEmpty

/-- The names, ascending. -/
def names (m : NameMap α) : List String := m.toList.map Prod.fst

/-- The value under a name. -/
def get? (m : NameMap α) (name : String) : Option α :=
  (m.toList.find? (·.1 = name)).map Prod.snd

/-! ### Insertion -/

/-- Puts an entry in its place; an entry with the same name is replaced. -/
def insertEntry (name : String) (value : α) : List (String × α) → List (String × α)
  | [] => [(name, value)]
  | (n, v) :: rest =>
    if name < n then (name, value) :: (n, v) :: rest
    else if name = n then (name, value) :: rest
    else (n, v) :: insertEntry name value rest

theorem fst_mem_insertEntry {name x : String} {value : α} {es : List (String × α)}
    (h : x ∈ (insertEntry name value es).map Prod.fst) : x = name ∨ x ∈ es.map Prod.fst := by
  induction es with
  | nil => simpa [insertEntry] using h
  | cons e rest ih =>
    obtain ⟨n, v⟩ := e
    unfold insertEntry at h
    split at h
    · simpa using h
    · split at h
      · rename_i hn
        subst hn
        simp only [List.map_cons, List.mem_cons] at h ⊢
        exact .inr h
      · simp only [List.map_cons, List.mem_cons] at h ⊢
        rcases h with h | h
        · exact .inr (.inl h)
        · rcases ih h with h | h
          · exact .inl h
          · exact .inr (.inr h)

theorem ascending_insertEntry {name : String} {value : α} {es : List (String × α)}
    (h : (es.map Prod.fst).Pairwise (· < ·)) :
    ((insertEntry name value es).map Prod.fst).Pairwise (· < ·) := by
  induction es with
  | nil => simp [insertEntry]
  | cons e rest ih =>
    obtain ⟨n, v⟩ := e
    simp only [List.map_cons, List.pairwise_cons] at h
    unfold insertEntry
    split
    · rename_i hlt
      simp only [List.map_cons, List.pairwise_cons, List.mem_cons]
      refine ⟨?_, h⟩
      rintro x (rfl | hx)
      · exact hlt
      · exact String.lt_trans hlt (h.1 x hx)
    · rename_i hnlt
      split
      · rename_i hn
        subst hn
        simpa only [List.map_cons, List.pairwise_cons] using h
      · rename_i hn
        simp only [List.map_cons, List.pairwise_cons]
        refine ⟨fun x hx => ?_, ih h.2⟩
        rcases fst_mem_insertEntry hx with rfl | hx
        · rcases String.le_total x n with hle | hle
          · exact absurd (String.le_antisymm hle (String.not_lt.1 hnlt)) hn
          · exact String.not_le.1 fun hle' => hn (String.le_antisymm hle' hle)
        · exact h.1 x hx

/-- The map with a further entry, which replaces one of the same name. -/
def insert (m : NameMap α) (name : String) (value : α) : NameMap α :=
  ⟨insertEntry name value m.toList, ascending_insertEntry m.ascending⟩

/-- The map of a list of entries; of entries with one name the last stays. -/
def ofList (es : List (String × α)) : NameMap α :=
  es.foldl (fun m e => m.insert e.1 e.2) empty

/-- The map with every value replaced. -/
def map (f : α → β) (m : NameMap α) : NameMap β :=
  ⟨m.toList.map fun e => (e.1, f e.2), by
    have h := m.ascending
    rwa [List.map_map, show Prod.fst ∘ (fun e : String × α => (e.1, f e.2)) = Prod.fst from rfl]⟩

end NameMap

end Tablescope
