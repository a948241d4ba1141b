import Mathlib.Data.List.Nodup
import Tablescope.Proofs.Except
import Tablescope.Schema.Table

/-!
# The attributes of a continuation

A continuation key lists the key attributes of the table and those of the index that is read, each
once.
-/

namespace Tablescope.TableSchema

/-- Extending adds what is not there yet. -/
theorem mem_extend {as bs : List Attribute} {a : Attribute} :
    a ∈ extend as bs ↔ a ∈ as ∨ a ∈ bs := by
  induction bs generalizing as with
  | nil => simp [extend]
  | cons b bs ih =>
    rw [extend, List.foldl_cons, ← extend, ih, List.mem_cons]
    split
    · next hb =>
      constructor
      · exact Or.imp_right .inr
      · rintro (h | rfl | h)
        · exact .inl h
        · exact .inl hb
        · exact .inr h
    · rw [List.mem_append, List.mem_singleton, or_assoc]

theorem nodup_extend {as : List Attribute} (h : as.Nodup) (bs : List Attribute) :
    (extend as bs).Nodup := by
  induction bs generalizing as with
  | nil => exact h
  | cons b bs ih =>
    rw [extend, List.foldl_cons, ← extend]
    split
    · exact ih h
    · next hb => exact ih (h.append (List.nodup_singleton b) (by simpa using hb))

/-- What is added stands behind what was there, in its order and each once. -/
theorem exists_extend_eq_append (as bs : List Attribute) :
    ∃ more, extend as bs = as ++ more ∧ more.Sublist bs ∧ more.Nodup ∧ ∀ a ∈ more, a ∉ as := by
  induction bs generalizing as with
  | nil => exact ⟨[], by simp [extend]⟩
  | cons b bs ih =>
    rw [extend, List.foldl_cons, ← extend]
    split
    · obtain ⟨more, heq, hsub, hnodup, hnew⟩ := ih as
      exact ⟨more, heq, hsub.cons b, hnodup, hnew⟩
    · next hb =>
      obtain ⟨more, heq, hsub, hnodup, hnew⟩ := ih (as ++ [b])
      simp only [List.mem_append, List.mem_singleton, not_or] at hnew
      refine ⟨b :: more, by rw [heq, List.append_assoc, List.singleton_append], hsub.cons_cons b, ?_, ?_⟩
      · exact List.nodup_cons.2 ⟨fun hmem => (hnew b hmem).2 rfl, hnodup⟩
      · exact List.forall_mem_cons.2 ⟨hb, fun a ha => (hnew a ha).1⟩

/-- Extending by what is there changes nothing. -/
theorem extend_eq_self {as bs : List Attribute} (h : bs ⊆ as) : extend as bs = as := by
  induction bs with
  | nil => rfl
  | cons b bs ih =>
    rw [List.cons_subset] at h
    rw [extend, List.foldl_cons, ← extend, if_pos h.1]
    exact ih h.2

variable {table : TableSchema} {selection : Selection} {attributes : List Attribute}

/-- Only an index can be missing. -/
theorem keyOf_eq_error_iff {e : SchemaError} :
    table.keyOf selection = .error e ↔
      ∃ name, selection = .index name ∧ (∀ index ∈ table.indexes, index.name ≠ name) ∧
        e = .unknownIndex table.name name := by
  cases selection with
  | table => simp [keyOf]
  | index name =>
    rcases hf : table.indexes.find? (·.name = name) with _ | index
    · have hnone : ∀ index ∈ table.indexes, index.name ≠ name := by
        simpa using List.find?_eq_none.1 hf
      simp only [keyOf, hf, Except.error.injEq, Selection.index.injEq]
      constructor
      · rintro rfl
        exact ⟨name, rfl, hnone, rfl⟩
      · rintro ⟨_, rfl, -, rfl⟩
        rfl
    · simp only [keyOf, hf, reduceCtorEq, Selection.index.injEq, false_iff]
      rintro ⟨_, rfl, hnone, -⟩
      exact hnone index (List.mem_of_find?_eq_some hf) (by simpa using List.find?_some hf)

theorem cursorAttributes_eq_ok_iff :
    table.cursorAttributes selection = .ok attributes ↔
      ∃ key, table.keyOf selection = .ok key ∧
        extend table.key.attributes key.attributes = attributes := by
  rw [cursorAttributes, Except.bind_eq_ok_iff]
  constructor
  · rintro ⟨key, hk, h⟩
    exact ⟨key, hk, Except.ok.inj h⟩
  · rintro ⟨key, hk, rfl⟩
    exact ⟨key, hk, rfl⟩

theorem key_subset_of_cursorAttributes (h : table.cursorAttributes selection = .ok attributes) :
    table.key.attributes ⊆ attributes := by
  obtain ⟨key, -, rfl⟩ := cursorAttributes_eq_ok_iff.1 h
  exact fun a ha => mem_extend.2 (.inl ha)

theorem nodup_of_cursorAttributes (h : table.cursorAttributes selection = .ok attributes)
    (hn : table.key.attributes.Nodup) : attributes.Nodup := by
  obtain ⟨key, -, rfl⟩ := cursorAttributes_eq_ok_iff.1 h
  exact nodup_extend hn _

/-- A continuation in the table itself is a key of the table. -/
theorem cursorAttributes_table : table.cursorAttributes .table = .ok table.key.attributes :=
  cursorAttributes_eq_ok_iff.2 ⟨table.key, rfl, extend_eq_self (List.Subset.refl _)⟩

end Tablescope.TableSchema
