import Tablescope.Proofs.Cursor.RoundTrip
import Tablescope.Proofs.Service.Request
import Tablescope.Proofs.Text.Order

/-!
# Cursors of reported maps

A store reports how far it got as a map, and a map has no order. The cursor of a map has the entries
of the map and ascends by name; only one list does, so in whatever order the entries are enumerated
the cursor is the same, and it leads back to the map. Only a value that is no scalar stands in the
way, and then such a value is named.
-/

namespace Tablescope

namespace Cursor

variable {es fs : List (String × Value)} {entries : List Entry} {c d : Cursor} {m : Item}

/-- Whether the names of a cursor ascend by their UTF-8 bytes. -/
def Ascends (c : Cursor) : Prop :=
  (c.entries.map fun e => Text.Utf8.encode e.1).Pairwise (· < ·)

instance (c : Cursor) : Decidable c.Ascends := inferInstanceAs (Decidable (List.Pairwise _ _))

theorem ascends_iff : c.Ascends ↔ c.entries.Pairwise fun a b => a.1 < b.1 := by
  rw [Ascends, List.pairwise_map]
  simp only [Text.Utf8.encode_lt_encode_iff]

/-! ### Sorting -/

/-- Entries with different names ascend once they are sorted. -/
theorem pairwise_mergeSort (hn : (entries.map Prod.fst).Nodup) :
    (entries.mergeSort fun a b => a.1 ≤ b.1).Pairwise fun a b => a.1 < b.1 := by
  have htrans : ∀ a b c : Entry, decide (a.1 ≤ b.1) = true → decide (b.1 ≤ c.1) = true →
      decide (a.1 ≤ c.1) = true := by
    simp only [decide_eq_true_eq]
    exact fun _ _ _ => String.le_trans
  have htotal : ∀ a b : Entry, (decide (a.1 ≤ b.1) || decide (b.1 ≤ a.1)) = true := by
    simp only [Bool.or_eq_true, decide_eq_true_eq]
    exact fun _ _ => String.le_total _ _
  have hle : (entries.mergeSort fun a b => a.1 ≤ b.1).Pairwise fun a b => a.1 ≤ b.1 := by
    simpa only [decide_eq_true_eq] using List.pairwise_mergeSort htrans htotal entries
  have hne : (entries.mergeSort fun a b => a.1 ≤ b.1).Pairwise fun a b => a.1 ≠ b.1 := by
    have hnodup := ((List.mergeSort_perm entries fun a b => a.1 ≤ b.1).map Prod.fst).nodup_iff.2 hn
    rwa [List.Nodup, List.pairwise_map] at hnodup
  exact (hle.and hne).imp fun h =>
    String.not_le.1 fun hge => h.2 (String.le_antisymm h.1 hge)

/-- Cursors that ascend and have the same entries are the same. -/
theorem eq_of_perm (hc : c.Ascends) (hd : d.Ascends)
    (h : (c.entries.map fun e => (e.1, Value.scalar e.2)).Perm
      (d.entries.map fun e => (e.1, Value.scalar e.2))) : c = d := by
  have hinj : Function.Injective fun e : Entry => (e.1, Value.scalar e.2) := by
    rintro ⟨_, _⟩ ⟨_, _⟩ heq
    cases heq
    rfl
  rw [ascends_iff] at hc hd
  have hentries : c.entries = d.entries :=
    ((List.map_perm_map_iff hinj).1 h).eq_of_pairwise
      (fun a b _ _ hab hba => absurd hab (String.lt_asymm hba)) hc hd
  obtain ⟨cs⟩ := c
  obtain ⟨ds⟩ := d
  exact congrArg mk hentries

/-! ### Entries in any order -/

theorem ascends_of_ofEntries (hn : (es.map Prod.fst).Nodup) (h : ofEntries es = .ok c) :
    c.Ascends := by
  have hperm := (perm_of_ofEntries h).map Prod.fst
  rw [List.map_map] at hperm
  have hnames : (c.entries.map Prod.fst).Nodup := hperm.nodup_iff.2 hn
  obtain ⟨entries, -, rfl⟩ := Except.map_eq_ok_iff.1 h
  have hsorted := (List.mergeSort_perm entries fun a b => a.1 ≤ b.1).map Prod.fst
  exact ascends_iff.2 (pairwise_mergeSort (hsorted.nodup_iff.1 hnames))

/-- In whatever order the entries of a map come, they have the same cursor. -/
theorem ofEntries_of_perm (hn : (es.map Prod.fst).Nodup) (hperm : fs.Perm es)
    (h : ofEntries es = .ok c) : ofEntries fs = .ok c := by
  have hscalars : ∀ e ∈ fs, ∃ s, e.2 = Value.scalar s := by
    intro e he
    obtain ⟨f, -, rfl⟩ := List.mem_map.1 ((hperm.trans (perm_of_ofEntries h).symm).mem_iff.1 he)
    exact ⟨f.2, rfl⟩
  obtain ⟨d, hd⟩ := exists_ofEntries hscalars
  rw [hd, eq_of_perm (ascends_of_ofEntries ((hperm.map Prod.fst).nodup_iff.2 hn) hd)
    (ascends_of_ofEntries hn h)
    ((perm_of_ofEntries hd).trans (hperm.trans (perm_of_ofEntries h).symm))]

/-! ### Maps -/

/-- The cursor of a map is read back if the numbers of the map are numbers. -/
theorem isReadable_of_ofMap (h : ofMap m = .ok c)
    (hnumbers : ∀ e ∈ m.toList, ∀ numeral, e.2 = .scalar (.number numeral) →
      isNumber numeral = true) : c.IsReadable where
  nodup := nodup_of_ofMap h
  numbers _ he numeral hnumeral :=
    hnumbers _ ((mem_entries_of_ofMap h).1 he) numeral (congrArg Value.scalar hnumeral)

/-- A reading that starts at the cursor of a map with attributes asks to start at this map. -/
theorem startKey?_of_toItem (hc : c.toItem = m) (hm : m.isEmpty = false) {r : FetchRequest}
    (hr : r.start = some c) : (Service.fetchRequest r).startKey? = some m.toJson := by
  rw [← hc, isEmpty_toItem] at hm
  rw [Service.startKey?_fetchRequest, hr, Service.startKeyJson?_some hm, hc]

/-- A map of scalars has one cursor, in whatever order its entries come. The cursor ascends by the
UTF-8 bytes of the names and leads back to the map, and if the numbers of the map are numbers, it
still does after it was written into a URL and read back, so that a reading that starts there asks
for the map that was reported. A map with anything else has no cursor: however its entries come, one
that is no scalar is named. -/
theorem adopts_in_any_order (m : Item) :
    ((∀ e ∈ m.toList, ∃ s, e.2 = .scalar s) →
      ∃ c : Cursor, (∀ es, es.Perm m.toList → ofEntries es = .ok c) ∧ c.Ascends ∧ c.toItem = m ∧
        ((∀ e ∈ m.toList, ∀ numeral, e.2 = .scalar (.number numeral) → isNumber numeral = true) →
          ∃ d, decode c.encode = .ok d ∧ d.toItem = m ∧
            (m.isEmpty = false → ∀ r : FetchRequest, r.start = some d →
              (Service.fetchRequest r).startKey? = some m.toJson))) ∧
      ((∃ e ∈ m.toList, ∀ s, e.2 ≠ .scalar s) →
        ∀ es, es.Perm m.toList → ∃ e ∈ m.toList, (∀ s, e.2 ≠ .scalar s) ∧
          ofEntries es = .error (.invalidCursor (.notAScalar e.1))) := by
  constructor
  · intro hscalars
    obtain ⟨c, hc⟩ := exists_ofMap hscalars
    have hitem := toItem_of_ofMap hc
    refine ⟨c, fun es hes => ofEntries_of_perm m.nodup_names hes hc,
      ascends_of_ofEntries m.nodup_names hc, hitem, fun hnumbers => ?_⟩
    exact ⟨c, decode_encode_iff.2 (isReadable_of_ofMap hc hnumbers), hitem,
      fun hm r => startKey?_of_toItem hitem hm⟩
  · rintro ⟨f, hf, hnot⟩ es hes
    rcases hfault : ofEntries es with fault | c
    · obtain ⟨e, he, hnone, rfl⟩ := ofEntries_eq_error_cases hfault
      refine ⟨e, hes.mem_iff.1 he, fun s hs => ?_, rfl⟩
      rw [hs] at hnone
      cases hnone
    · have hmem := ((perm_of_ofEntries hfault).trans hes).mem_iff.2 hf
      obtain ⟨e, -, rfl⟩ := List.mem_map.1 hmem
      exact absurd rfl (hnot e.2)

/-- A place with names that are beyond ASCII. -/
def reportedPlace : Item :=
  .ofList [("😀", .scalar (.binary [0, 255])), ("\ufffd", .scalar (.number "2013")),
    ("title", .scalar (.text "Rush"))]

theorem adopts_in_any_order_of_reportedPlace :
    let shuffled : List (String × Value) := [("\ufffd", .scalar (.number "2013")),
      ("😀", .scalar (.binary [0, 255])), ("title", .scalar (.text "Rush"))]
    let mixed : Item := .ofList [("tags", .textSet ["a"]), ("id", .scalar (.text "a"))]
    (∀ e ∈ reportedPlace.toList, ∃ s, e.2 = .scalar s) ∧ shuffled.Perm reportedPlace.toList ∧
      (∀ e ∈ reportedPlace.toList, ∀ numeral, e.2 = .scalar (.number numeral) →
        isNumber numeral = true) ∧
      (∃ c : Cursor, ofEntries shuffled = .ok c ∧
        c.entries.map Prod.fst = ["title", "\ufffd", "😀"] ∧ c.Ascends ∧
        c.toItem = reportedPlace ∧ ∃ d, decode c.encode = .ok d ∧ d.toItem = reportedPlace) ∧
      (∃ e ∈ mixed.toList, ∀ s, e.2 ≠ .scalar s) ∧
      ∃ e ∈ mixed.toList, (∀ s, e.2 ≠ .scalar s) ∧
        ofEntries mixed.toList.reverse = .error (.invalidCursor (.notAScalar e.1)) := by
  intro shuffled mixed
  have hentries : reportedPlace.toList = [("title", .scalar (.text "Rush")),
      ("\ufffd", .scalar (.number "2013")), ("😀", .scalar (.binary [0, 255]))] := by
    decide +kernel
  have hscalars : ∀ e ∈ reportedPlace.toList, ∃ s, e.2 = .scalar s := by
    rw [hentries]
    simp
  have hnumbers : ∀ e ∈ reportedPlace.toList, ∀ numeral, e.2 = .scalar (.number numeral) →
      isNumber numeral = true := by
    have hnumber : isNumber "2013" = true := by decide +kernel
    rw [hentries]
    simpa using hnumber
  have hperm : shuffled.Perm reportedPlace.toList := by decide +kernel
  have hmixed : ∃ e ∈ mixed.toList, ∀ s, e.2 ≠ .scalar s :=
    ⟨("tags", .textSet ["a"]), by decide +kernel, nofun⟩
  obtain ⟨hadopts, -⟩ := adopts_in_any_order reportedPlace
  obtain ⟨-, hrefuses⟩ := adopts_in_any_order mixed
  obtain ⟨c, hc, hascends, hitem, hback⟩ := hadopts hscalars
  obtain ⟨d, hd, hditem, -⟩ := hback hnumbers
  refine ⟨hscalars, hperm, hnumbers, ⟨c, hc _ hperm, ?_, hascends, hitem, d, hd, hditem⟩, hmixed,
    hrefuses hmixed _ (List.reverse_perm _)⟩
  let sorted : Cursor :=
    ⟨[("title", .text "Rush"), ("\ufffd", .number "2013"), ("😀", .binary [0, 255])]⟩
  have hsorted : sorted.Ascends := by decide +kernel
  have hshuffled : shuffled.Perm (sorted.entries.map fun e => (e.1, Value.scalar e.2)) := by
    decide +kernel
  rw [eq_of_perm hascends hsorted ((perm_of_ofEntries (hc _ hperm)).trans hshuffled)]
  rfl

end Cursor

end Tablescope
