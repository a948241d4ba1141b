import Tablescope.Proofs.Except
import Tablescope.Proofs.Store.Action
import Tablescope.Store.Memory

/-!
# The operations of a store in memory

What each operation comes to, failures included. Only putting and deleting touch the items; a
reading is counted even when it fails.
-/

namespace Tablescope

/-- Whether a failure says nothing but that the store did not answer or was asked often enough. -/
def Error.IsTransient : Error → Prop
  | transport _ _ => True
  | roundTripLimit _ _ => True
  | _ => False

namespace MemoryStore

variable {m : MemoryStore} {table : String} {s t : MemoryState}

theorem onTable_apply {α : Type} (x : Action MemoryState α) :
    m.onTable table x s =
      if table = m.schema.name then x s else (.error (.schema (.tableNotFound table)), s) := by
  unfold onTable
  split <;> rfl

theorem describe_apply :
    m.store.describe table s =
      if table = m.schema.name then (.ok m.schema, s)
      else (.error (.schema (.tableNotFound table)), s) :=
  onTable_apply _

theorem describe_eq_ok_iff {schema : TableSchema} :
    m.store.describe table s = (.ok schema, t) ↔
      table = m.schema.name ∧ schema = m.schema ∧ s = t := by
  rw [describe_apply]
  split
  · next h => simp [h, eq_comm]
  · next h => simp [h]

/-- What starts by asking for the schema goes on with it or fails at once. -/
theorem describe_bind_apply {α : Type} (f : TableSchema → Action MemoryState α) :
    (m.store.describe table >>= f) s =
      if table = m.schema.name then f m.schema s
      else (.error (.schema (.tableNotFound table)), s) := by
  rw [Action.bind_apply, describe_apply]
  by_cases h : table = m.schema.name
  · simp only [if_pos h]
  · simp only [if_neg h]

/-! ### Reading -/

variable {request : FetchRequest}

theorem fetch_apply :
    m.store.fetch request s =
      if s.fetches + 1 ∈ m.failingFetches then
        (.error (.transport request.mode.operation "injected failure"),
          { s with fetches := s.fetches + 1 })
      else if request.table = m.schema.name then
        (m.read s.items request, { s with fetches := s.fetches + 1 })
      else
        (.error (.schema (.tableNotFound request.table)), { s with fetches := s.fetches + 1 }) := by
  by_cases h : s.fetches + 1 ∈ m.failingFetches
  · simp only [store, if_pos h]
  · simp only [store, if_neg h]
    exact onTable_apply _

theorem read_of_fetch {batch : Batch} (h : m.store.fetch request s = (.ok batch, t)) :
    m.read s.items request = .ok batch := by
  rw [fetch_apply] at h
  split at h
  · cases h
  · split at h
    · exact congrArg Prod.fst h
    · cases h

theorem fetch_eq_error_cases {e : Error} (htable : request.table = m.schema.name)
    (h : m.store.fetch request s = (.error e, t)) :
    e.IsTransient ∨ m.read s.items request = .error e := by
  rw [fetch_apply, if_pos htable] at h
  split at h
  · cases h
    exact .inl trivial
  · exact .inr (congrArg Prod.fst h)

/-! ### Single items -/

theorem get_apply {key : Item} :
    m.store.get table key s =
      if table = m.schema.name then (.ok (s.items.find? (covers · key)), s)
      else (.error (.schema (.tableNotFound table)), s) :=
  onTable_apply _

theorem put_apply {item : Item} :
    m.store.put table item s =
      if table = m.schema.name then
        match PrimaryKey.ofItem m.schema.key item with
        | .ok k => (.ok (), { s with items := putItem s.items k.toItem item })
        | .error e => (.error (.input e), s)
      else (.error (.schema (.tableNotFound table)), s) := by
  refine (onTable_apply _).trans ?_
  cases PrimaryKey.ofItem m.schema.key item <;> rfl

theorem delete_apply {key : Item} :
    m.store.delete table key s =
      if table = m.schema.name then (.ok (), { s with items := deleteItem s.items key })
      else (.error (.schema (.tableNotFound table)), s) :=
  onTable_apply _

/-! ### What is not written to -/

theorem keeps_describe : (m.store.describe table).Keeps MemoryState.items := by
  intro s
  rw [describe_apply]
  split <;> rfl

theorem keeps_fetch : (m.store.fetch request).Keeps MemoryState.items := by
  intro s
  rw [fetch_apply]
  split
  · rfl
  · split <;> rfl

theorem items_of_fetch {result : Except Error Batch}
    (h : m.store.fetch request s = (result, t)) : t.items = s.items := by
  have hkeeps : (m.store.fetch request).Keeps MemoryState.items := keeps_fetch
  rw [← hkeeps s, h]

theorem keeps_get {key : Item} : (m.store.get table key).Keeps MemoryState.items := by
  intro s
  rw [get_apply]
  split <;> rfl

end MemoryStore

end Tablescope
