import Tablescope.Proofs.Cursor.Names
import Tablescope.Service.Client

/-!
# What a request carries

The members of a request have different names. Each that is set is found under its name, and one
that is not set is not found. The start key of a reading is never a map without attributes.
-/

namespace Tablescope.Service

/-- The member of a request with this name, if it is set. -/
def Request.member? (r : Request) (name : String) : Option Json := Json.member? name r.members

/-- Where a request starts to read, if it does not start at the beginning. -/
def Request.startKey? (r : Request) : Option Json := r.member? "ExclusiveStartKey"

/-! ### Members that are set -/

section

variable {members : List (String × Option Json)} {name : String} {value : Json}

theorem mem_setMembers : (name, value) ∈ setMembers members ↔ (name, some value) ∈ members := by
  rw [setMembers, List.mem_filterMap]
  constructor
  · rintro ⟨⟨n, v⟩, hm, h⟩
    obtain ⟨w, rfl, h⟩ := Option.map_eq_some_iff.1 h
    cases h
    exact hm
  · exact fun h => ⟨_, h, rfl⟩

theorem names_setMembers_sublist (members : List (String × Option Json)) :
    ((setMembers members).map Prod.fst).Sublist (members.map Prod.fst) := by
  induction members with
  | nil => exact .slnil
  | cons m ms ih =>
    obtain ⟨name, _ | value⟩ := m
    · exact ih.cons _
    · exact ih.cons_cons _

theorem member?_eq_some_iff {ms : List (String × Json)} (hn : (ms.map Prod.fst).Nodup) :
    Json.member? name ms = some value ↔ (name, value) ∈ ms := by
  have hreverse : (ms.reverse.map Prod.fst).Nodup := by rwa [List.map_reverse, List.nodup_reverse]
  rw [Json.member?, ← List.mem_reverse, ← NameMap.find?_eq_some_iff_of_nodup hreverse]

/-- Under its name a member is found as it is listed, set or not. -/
theorem member?_setMembers (hn : (members.map Prod.fst).Nodup) {value? : Option Json}
    (h : (name, value?) ∈ members) : Json.member? name (setMembers members) = value? := by
  ext value
  rw [member?_eq_some_iff (hn.sublist (names_setMembers_sublist members)), mem_setMembers]
  constructor
  · intro hmem
    exact congrArg Prod.snd (List.inj_on_of_nodup_map hn h hmem rfl)
  · rintro rfl
    exact h

end

/-! ### Start keys -/

theorem entriesToJson_eq_nil_iff {es : List (String × Value)} :
    Value.entriesToJson es = [] ↔ es = [] := by
  cases es with
  | nil => exact iff_of_true rfl rfl
  | cons e es => simp only [Value.entriesToJson, reduceCtorEq]

theorem toJson_eq_empty_iff {item : Item} : item.toJson = .object [] ↔ item.isEmpty = true := by
  rw [Item.toJson, Json.object.injEq, entriesToJson_eq_nil_iff, NameMap.isEmpty,
    List.isEmpty_iff]

theorem startKeyJson?_some {c : Cursor} (h : c.isEmpty = false) :
    startKeyJson? (some c) = some c.toItem.toJson := by
  rw [startKeyJson?, Option.filter_some, h]
  rfl

/-- No start key is without attributes. -/
theorem startKeyJson?_ne_empty (start : Option Cursor) :
    startKeyJson? start ≠ some (.object []) := by
  intro h
  obtain ⟨c, hfilter, hempty⟩ := Option.map_eq_some_iff.1 h
  rw [toJson_eq_empty_iff, Cursor.isEmpty_toItem] at hempty
  have hnot := (Option.filter_eq_some_iff.1 hfilter).2
  rw [hempty] at hnot
  cases hnot

theorem startKey?_fetchRequest (r : FetchRequest) :
    (fetchRequest r).startKey? = startKeyJson? r.start :=
  member?_setMembers (by simp) (by simp)

end Tablescope.Service
