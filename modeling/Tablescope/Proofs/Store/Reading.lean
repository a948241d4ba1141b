import Tablescope.Proofs.Cursor.Names
import Tablescope.Proofs.Schema.Table
import Tablescope.Proofs.Store.Action
import Tablescope.Proofs.Store.Keyed

/-!
# Reading on from a place

A place in a store in memory parts the items into those before it, `seen`, and the `rest`. Reading
on from a place *advances*: it gives the matching ones of some next items and gets to the place
behind them, which is told by the cursor of the last of them, or by none if it is the end. A cursor
of that kind leads back to its place, so advances can be chained.
-/

namespace Tablescope

/-- Whether this is how the place between some items and the rest is told to whoever goes on from
it. -/
inductive Continues (schema : KeySchema) (attributes : List Attribute) :
    List Item → List Item → Option Cursor → Prop
  | done {seen : List Item} : Continues schema attributes seen [] none
  | behind {seen rest : List Item} {x : Item} {c : Cursor} (h : c.Names schema attributes x) :
    Continues schema attributes (seen ++ [x]) rest (some c)

namespace MemoryStore

/-- Whether some items and a place may come of reading on. -/
def Advances (m : MemoryStore) (attributes : List Attribute) (seen rest items : List Item)
    (last : Option Cursor) : Prop :=
  ∃ more after, rest = more ++ after ∧ items = more.filter m.isMatch ∧
    Continues m.schema.key attributes (seen ++ more) after last

variable {m : MemoryStore} {attributes : List Attribute} {seen rest : List Item}

/-! ### Places -/

/-- A cursor leads to the place behind the item that it names. -/
theorem startPosition_of_continues {schema : KeySchema} {c : Cursor}
    (hk : Keyed schema (seen ++ rest)) (h : Continues schema attributes seen rest (some c)) :
    startPosition (seen ++ rest) (some c) = seen.length := by
  cases h with
  | @behind before _ x _ h =>
    rw [List.append_assoc, List.singleton_append] at hk ⊢
    obtain ⟨-, ⟨k, hx⟩, hne⟩ := Keyed.append_cons.1 hk
    have hposition : position? (before ++ x :: rest) c.toItem = some before.length := by
      apply position?_append_cons ((covers_ofEntries h.nodup).2 h.held)
      intro y hy
      rw [Bool.eq_false_iff]
      intro hc
      have hy' := h.ofItem_eq hx ((covers_ofEntries h.nodup).1 hc)
      exact hne y (List.mem_append_left _ hy) (hy'.trans hx.symm)
    rw [startPosition, hposition, List.length_append]
    rfl

theorem startPosition_le (items : List Item) (start : Option Cursor) :
    startPosition items start ≤ items.length := by
  cases start with
  | none => exact Nat.zero_le _
  | some c =>
    rw [startPosition]
    cases hp : position? items c.toItem with
    | none => exact Nat.zero_le _
    | some i => exact (List.findIdx?_eq_some_iff_getElem.1 hp).1

/-- Wherever a reading begins, the items part there. -/
theorem exists_startPosition (items : List Item) (start : Option Cursor) :
    ∃ seen rest, items = seen ++ rest ∧ startPosition items start = seen.length := by
  refine ⟨items.take (startPosition items start), items.drop (startPosition items start),
    (List.take_append_drop _ _).symm, ?_⟩
  rw [List.length_take, Nat.min_eq_left (startPosition_le items start)]

/-! ### One reading -/

theorem names_of_lastKey {index : Option String} {item : Item} {c : Cursor}
    (ha : m.schema.cursorAttributes (index.elim .table .index) = .ok attributes)
    (hk : ∃ k, PrimaryKey.ofItem m.schema.key item = .ok k)
    (h : m.lastKey index item = .ok c) : c.Names m.schema.key attributes item := by
  obtain ⟨k, hk⟩ := hk
  obtain ⟨as, has, h⟩ := Except.bind_eq_ok_iff.1 h
  rw [ha] at has
  cases has
  exact Cursor.names_of_held (Except.mapError_eq_ok_iff.1 h)
    (TableSchema.key_subset_of_cursorAttributes ha) hk

theorem exists_lastKey {index : Option String} {item : Item}
    (ha : m.schema.cursorAttributes (index.elim .table .index) = .ok attributes)
    (hc : item.Bears attributes) : ∃ c, m.lastKey index item = .ok c := by
  obtain ⟨c, h⟩ := Cursor.exists_ofMap_held hc
  refine ⟨c, Except.bind_eq_ok_iff.2 ⟨attributes, ?_, ?_⟩⟩
  · rw [ha]
    rfl
  · exact Except.mapError_eq_ok_iff.2 h

/-- How far a reading got that evaluated some of the rest. -/
def reached (m : MemoryStore) (index : Option String) (rest evaluated : List Item) :
    Except Error (Option Cursor) :=
  match evaluated.getLast? with
  | some item => if evaluated.length < rest.length then some <$> m.lastKey index item else .ok none
  | none => .ok none

variable {request : FetchRequest}

theorem read_eq (hs : startPosition (seen ++ rest) request.start = seen.length) :
    m.read (seen ++ rest) request =
      (m.reached request.index rest (rest.take request.limit)).map
        (Portion.mk ((rest.take request.limit).filter m.isMatch)) := by
  rw [read, hs, List.drop_left, reached]
  cases (rest.take request.limit).getLast? with
  | none => rfl
  | some item =>
    by_cases h : (rest.take request.limit).length < rest.length
    · simp only [if_pos h]
      cases m.lastKey request.index item <;> rfl
    · simp only [if_neg h]
      rfl

theorem continues_of_reached {index : Option String} {limit : Nat} {last : Option Cursor}
    (ha : m.schema.cursorAttributes (index.elim .table .index) = .ok attributes)
    (hk : Keyed m.schema.key (seen ++ rest)) (hl : 1 ≤ limit)
    (h : m.reached index rest (rest.take limit) = .ok last) :
    Continues m.schema.key attributes (seen ++ rest.take limit) (rest.drop limit) last := by
  unfold reached at h
  split at h
  · next item hitem =>
    obtain ⟨init, hinit⟩ := List.getLast?_eq_some_iff.1 hitem
    split at h
    · next hlt =>
      obtain ⟨c, hc, rfl⟩ := Except.map_eq_ok_iff.1 h
      rw [hinit, ← List.append_assoc]
      refine .behind (names_of_lastKey ha (hk.typed item ?_) hc)
      have hmem : item ∈ rest.take limit := by simp [hinit]
      exact List.mem_append_right _ (List.mem_of_mem_take hmem)
    · next hge =>
      cases h
      rw [List.length_take] at hge
      rw [List.drop_eq_nil_of_le (by omega)]
      exact .done
  · next hnone =>
    cases h
    have hrest : rest = [] := by
      have hlen := congrArg List.length (List.getLast?_eq_none_iff.1 hnone)
      rw [List.length_take, List.length_nil] at hlen
      exact List.eq_nil_of_length_eq_zero (by omega)
    rw [hrest, List.drop_nil]
    exact .done

theorem advances_of_read {batch : Batch}
    (ha : m.schema.cursorAttributes (request.index.elim .table .index) = .ok attributes)
    (hk : Keyed m.schema.key (seen ++ rest)) (hl : 1 ≤ request.limit)
    (hs : startPosition (seen ++ rest) request.start = seen.length)
    (h : m.read (seen ++ rest) request = .ok batch) :
    m.Advances attributes seen rest batch.items batch.last := by
  rw [read_eq hs] at h
  obtain ⟨last, hlast, rfl⟩ := Except.map_eq_ok_iff.1 h
  exact ⟨_, _, (List.take_append_drop _ _).symm, rfl, continues_of_reached ha hk hl hlast⟩

/-- Where all items carry what a continuation needs, a reading gives a result. -/
theorem exists_read
    (ha : m.schema.cursorAttributes (request.index.elim .table .index) = .ok attributes)
    (hc : ∀ item ∈ rest, item.Bears attributes)
    (hs : startPosition (seen ++ rest) request.start = seen.length) :
    ∃ batch, m.read (seen ++ rest) request = .ok batch := by
  have hreached : ∃ last, m.reached request.index rest (rest.take request.limit) = .ok last := by
    unfold reached
    split
    · next item hitem =>
      have hmem : item ∈ rest := List.mem_of_mem_take (List.mem_of_getLast? hitem)
      obtain ⟨c, h⟩ := exists_lastKey ha (hc item hmem)
      split
      · exact ⟨some c, by rw [h]; rfl⟩
      · exact ⟨none, rfl⟩
    · exact ⟨none, rfl⟩
  obtain ⟨last, h⟩ := hreached
  exact ⟨_, by rw [read_eq hs, h]; rfl⟩

end MemoryStore

end Tablescope
