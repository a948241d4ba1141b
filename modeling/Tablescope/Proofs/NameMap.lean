import Mathlib.Data.List.Induction
import Mathlib.Data.List.Nodup
import Tablescope.NameMap

/-!
# Looking names up

A map is known by its lookups: an entry is there exactly if its name is looked up to its value.
Inserting changes the lookup of one name, and a list of entries with different names makes a map of
just these entries, in whatever order they come.
-/

namespace Tablescope.NameMap

variable {α β : Type}

/-! ### Entries -/

theorem nodup_names (m : NameMap α) : (m.toList.map Prod.fst).Nodup :=
  List.nodup_iff_pairwise_ne.2 (m.ascending.imp String.ne_of_lt)

/-- In a list of entries with different names a name finds its own entry. -/
theorem find?_eq_some_iff_of_nodup {es : List (String × α)} (h : (es.map Prod.fst).Nodup)
    {name : String} {value : α} :
    (es.find? (·.1 = name)).map Prod.snd = some value ↔ (name, value) ∈ es := by
  induction es with
  | nil => simp
  | cons e es ih =>
    obtain ⟨n, v⟩ := e
    simp only [List.map_cons, List.nodup_cons] at h
    by_cases hn : n = name
    · subst hn
      rw [List.find?_cons_of_pos (by simp), List.mem_cons]
      simp only [Option.map_some, Option.some.injEq, Prod.mk.injEq, true_and]
      constructor
      · rintro rfl
        exact .inl rfl
      · rintro (rfl | hm)
        · rfl
        · exact absurd (List.mem_map_of_mem (f := Prod.fst) hm) h.1
    · rw [List.find?_cons_of_neg (by simpa using hn), ih h.2, List.mem_cons]
      simp [Prod.mk.injEq, Ne.symm hn]

theorem get?_eq_some_iff {m : NameMap α} {name : String} {value : α} :
    m.get? name = some value ↔ (name, value) ∈ m.toList :=
  find?_eq_some_iff_of_nodup m.nodup_names

/-! ### Insertion -/

theorem mem_insertEntry {name : String} {value : α} {es : List (String × α)}
    (h : (es.map Prod.fst).Pairwise (· < ·)) {e : String × α} :
    e ∈ insertEntry name value es ↔ e = (name, value) ∨ e ∈ es ∧ e.1 ≠ name := by
  induction es with
  | nil => simp [insertEntry]
  | cons f es ih =>
    obtain ⟨n, v⟩ := f
    simp only [List.map_cons, List.pairwise_cons] at h
    -- every entry behind the first has a name that is greater than the first
    have hgt : ∀ f ∈ es, n < f.1 := fun f hf => h.1 f.1 (List.mem_map_of_mem hf)
    unfold insertEntry
    split
    · next hlt =>
      have hne : ∀ f ∈ (n, v) :: es, f.1 ≠ name := by
        rintro f hf rfl
        rcases List.mem_cons.1 hf with rfl | hf
        · exact String.lt_irrefl _ hlt
        · exact String.lt_irrefl _ (String.lt_trans hlt (hgt f hf))
      rw [List.mem_cons]
      exact or_congr_right ⟨fun hf => ⟨hf, hne e hf⟩, And.left⟩
    split
    · next hn =>
      subst hn
      have hne : ∀ f ∈ es, f.1 ≠ name := by
        rintro f hf rfl
        exact String.lt_irrefl _ (hgt f hf)
      rw [List.mem_cons, List.mem_cons]
      refine or_congr_right ⟨fun hf => ⟨.inr hf, hne e hf⟩, ?_⟩
      rintro ⟨rfl | hf, hen⟩
      · exact absurd rfl hen
      · exact hf
    · next hn =>
      rw [List.mem_cons, ih h.2, List.mem_cons]
      constructor
      · rintro (rfl | rfl | ⟨hf, hen⟩)
        · exact .inr ⟨.inl rfl, Ne.symm hn⟩
        · exact .inl rfl
        · exact .inr ⟨.inr hf, hen⟩
      · rintro (rfl | ⟨rfl | hf, hen⟩)
        · exact .inr (.inl rfl)
        · exact .inl rfl
        · exact .inr (.inr ⟨hf, hen⟩)

theorem mem_toList_insert {m : NameMap α} {name : String} {value : α} {e : String × α} :
    e ∈ (m.insert name value).toList ↔ e = (name, value) ∨ e ∈ m.toList ∧ e.1 ≠ name :=
  mem_insertEntry m.ascending

/-! ### Lists of entries -/

/-- Entries of which no name has two values are all added. -/
theorem mem_foldl_insert {es : List (String × α)} (m : NameMap α)
    (h : ∀ e ∈ es, ∀ f ∈ es, e.1 = f.1 → e = f)
    (hm : ∀ e ∈ m.toList, ∀ f ∈ es, e.1 = f.1 → e = f) {e : String × α} :
    e ∈ (es.foldl (fun m e => m.insert e.1 e.2) m).toList ↔ e ∈ m.toList ∨ e ∈ es := by
  induction es generalizing m with
  | nil => simp
  | cons f es ih =>
    have hinsert : ∀ e, e ∈ (m.insert f.1 f.2).toList ↔ e = f ∨ e ∈ m.toList := by
      intro e
      rw [mem_toList_insert]
      constructor
      · exact Or.imp_right And.left
      · rintro (rfl | he)
        · exact .inl rfl
        · by_cases hn : e.1 = f.1
          · exact .inl (hm e he f (by simp) hn)
          · exact .inr ⟨he, hn⟩
    rw [List.foldl_cons, ih, hinsert, List.mem_cons, or_comm (a := e = f), or_assoc]
    · exact fun a ha b hb => h a (.tail _ ha) b (.tail _ hb)
    · intro a ha b hb
      rcases (hinsert a).1 ha with rfl | ha
      · exact h a (by simp) b (.tail _ hb)
      · exact hm a ha b (.tail _ hb)

theorem mem_toList_ofList {es : List (String × α)} (h : ∀ e ∈ es, ∀ f ∈ es, e.1 = f.1 → e = f)
    {e : String × α} : e ∈ (ofList es).toList ↔ e ∈ es := by
  rw [ofList, mem_foldl_insert _ h]
  · simp [empty]
  · simp [empty]

theorem mem_toList_ofList_of_nodup {es : List (String × α)} (h : (es.map Prod.fst).Nodup)
    {e : String × α} : e ∈ (ofList es).toList ↔ e ∈ es :=
  mem_toList_ofList fun _ he _ hf => List.inj_on_of_nodup_map h he hf

/-- Entries with different names are the entries of their map. -/
theorem perm_ofList {es : List (String × α)} (h : (es.map Prod.fst).Nodup) :
    (ofList es).toList.Perm es :=
  (List.perm_ext_iff_of_nodup (nodup_names _).of_map h.of_map).2 fun _ =>
    mem_toList_ofList_of_nodup h

/-- A map is known by its entries, in whatever order they come. -/
theorem eq_of_perm {m n : NameMap α} (h : m.toList.Perm n.toList) : m = n := by
  refine ext (List.Perm.eq_of_pairwise (fun a b _ _ hab hba => ?_) (List.pairwise_map.1 m.ascending)
    (List.pairwise_map.1 n.ascending) h)
  exact absurd hab (String.lt_asymm hba)

theorem ofList_eq_of_perm {m : NameMap α} {es : List (String × α)} (h : es.Perm m.toList) :
    ofList es = m := by
  have hn : (es.map Prod.fst).Nodup := (h.map Prod.fst).nodup_iff.2 m.nodup_names
  exact eq_of_perm ((perm_ofList hn).trans h)

theorem isEmpty_insert (m : NameMap α) (name : String) (value : α) :
    (m.insert name value).isEmpty = false := by
  have hmem : (name, value) ∈ (m.insert name value).toList := mem_toList_insert.2 (.inl rfl)
  rw [isEmpty, List.isEmpty_eq_false_iff]
  exact List.ne_nil_of_mem hmem

/-- Only no entries make the map without entries. -/
theorem isEmpty_ofList (es : List (String × α)) : (ofList es).isEmpty = es.isEmpty := by
  induction es using List.reverseRecOn with
  | nil => rfl
  | append_singleton es e _ =>
    rw [ofList, List.foldl_append, List.foldl_cons, List.foldl_nil, isEmpty_insert]
    simp

theorem get?_ofList {es : List (String × α)} (h : ∀ e ∈ es, ∀ f ∈ es, e.1 = f.1 → e = f)
    {e : String × α} (he : e ∈ es) : (ofList es).get? e.1 = some e.2 := by
  rw [get?_eq_some_iff, mem_toList_ofList h]
  exact he

theorem mapM_get? {m : NameMap α} {es : List (String × α)}
    (h : ∀ e ∈ es, m.get? e.1 = some e.2) :
    (es.map Prod.fst).mapM m.get? = some (es.map Prod.snd) := by
  induction es with
  | nil => rfl
  | cons e es ih =>
    obtain ⟨he, hes⟩ := List.forall_mem_cons.1 h
    rw [List.map_cons, List.mapM_cons, he, ih hes]
    rfl

/-! ### Parts of a map -/

theorem eq_of_mem_iff {m n : NameMap α} (h : ∀ e, e ∈ m.toList ↔ e ∈ n.toList) : m = n :=
  eq_of_perm ((List.perm_ext_iff_of_nodup m.nodup_names.of_map n.nodup_names.of_map).2 h)

/-- The map of the entries with these names. -/
def restrict (m : NameMap α) (names : List String) : NameMap α :=
  ⟨m.toList.filter (·.1 ∈ names), m.ascending.sublist (List.filter_sublist.map Prod.fst)⟩

theorem mem_toList_restrict {m : NameMap α} {names : List String} {e : String × α} :
    e ∈ (m.restrict names).toList ↔ e.1 ∈ names ∧ m.get? e.1 = some e.2 := by
  rw [restrict, List.mem_filter, decide_eq_true_iff, get?_eq_some_iff, and_comm]

end Tablescope.NameMap
