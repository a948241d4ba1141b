import Tablescope.Proofs.Cursor.Format
import Tablescope.Proofs.Text.Percent

/-!
# Cursors are read back

What is written for a cursor is the document of its entries, each name once. A text is read as a
cursor exactly if it writes this document and the cursor's names are different and its values
readable. So such a cursor is the same after it was written and read.
-/

namespace Tablescope.Cursor

/-! ### Writing -/

theorem foldl_upsert {acc es : List Entry} (h : ((acc ++ es).map Prod.fst).Nodup) :
    es.foldl upsert acc = acc ++ es := by
  induction es generalizing acc with
  | nil => rw [List.foldl_nil, List.append_nil]
  | cons e es ih =>
    have hnew : acc.any (·.1 = e.1) = false := by
      rw [← Bool.not_eq_true, any_name_iff]
      intro hold
      rw [List.map_append, List.nodup_append] at h
      exact h.2.2 e.1 hold e.1 (by simp) rfl
    rw [List.foldl_cons, upsert, hnew, if_neg Bool.false_ne_true, ih]
    · rw [List.append_assoc, List.singleton_append]
    · rwa [List.append_assoc, List.singleton_append]

theorem members_eq {c : Cursor} (h : (c.entries.map Prod.fst).Nodup) : c.members = c.entries :=
  foldl_upsert h

/-- A cursor is written as the document of the members that its entries are written as. -/
theorem json_eq (c : Cursor) : c.json = document (c.members.map .ofEntry) := by
  rw [json, document, List.map_map]
  rfl

theorem isDelimited_of_mem_json (c : Cursor) : ∀ t ∈ c.json.tokens, t.isDelimited = true := by
  rw [json_eq]
  exact isDelimited_of_mem_document

theorem json_isWritten (c : Cursor) : c.json.IsWritten c.toJson :=
  Json.isWritten_compact fun t ht => Json.isWritten_spelling (c.isDelimited_of_mem_json t ht)

/-! ### Reading -/

/-- A text is read as a cursor exactly if the cursor's names are different, its values readable, and
the text writes its JSON. -/
theorem parse_iff_isWritten {text : String} {c : Cursor} :
    parse text = .ok c ↔ c.json.IsWritten text ∧ (c.entries.map Prod.fst).Nodup ∧
      ∀ e ∈ c.entries, e.2.isReadable = true := by
  rw [parse_eq_ok_iff, Writes]
  simp only [say_iff]
  constructor
  · rintro ⟨ms, hdoc, rfl, hn, hr⟩
    rw [json_eq, members_eq hn]
    exact ⟨hdoc, hn, hr⟩
  · rintro ⟨hdoc, hn, hr⟩
    rw [json_eq, members_eq hn] at hdoc
    exact ⟨_, hdoc, rfl, hn, hr⟩

theorem parse_toJson {c : Cursor} (hn : (c.entries.map Prod.fst).Nodup)
    (hr : ∀ e ∈ c.entries, e.2.isReadable = true) : parse c.toJson = .ok c :=
  parse_iff_isWritten.2 ⟨c.json_isWritten, hn, hr⟩

/-- A cursor is read back from its text for a URL. -/
theorem decode_encode {c : Cursor} (hn : (c.entries.map Prod.fst).Nodup)
    (hr : ∀ e ∈ c.entries, e.2.isReadable = true) : decode c.encode = .ok c := by
  rw [decode, encode, Text.Percent.decode_encode]
  exact parse_toJson hn hr

end Tablescope.Cursor
