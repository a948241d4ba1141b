import Tablescope.Store.Basic

/-!
# Logging what a store is asked

`Store.logged` answers as the store does and keeps a list of all calls, in order, those that fail
included.
-/

namespace Tablescope

/-- One call of a store. -/
inductive StoreCall where
  | describe (table : String)
  | fetch (request : FetchRequest)
  | get (table : String) (key : Item)
  | put (table : String) (item : Item)
  | delete (table : String) (key : Item)
  | listTableNames (start : Option String)

/-- The physical readings among the calls. -/
def StoreCall.fetches (calls : List StoreCall) : List FetchRequest :=
  calls.filterMap fun
    | .fetch request => some request
    | _ => none

/-- The pages of table names among the calls, each by where it starts. -/
def StoreCall.listings (calls : List StoreCall) : List (Option String) :=
  calls.filterMap fun
    | .listTableNames start => some start
    | _ => none

/-- An action that also notes a call. -/
def Action.noting {σ α : Type} (call : StoreCall) (x : Action σ α) :
    Action (σ × List StoreCall) α := fun s =>
  let (r, t) := x s.1
  (r, t, s.2 ++ [call])

/-- The store with a list of all calls beside its state. -/
def Store.logged {σ : Type} (store : Store σ) : Store (σ × List StoreCall) where
  describe table := (store.describe table).noting (.describe table)
  fetch request := (store.fetch request).noting (.fetch request)
  get table key := (store.get table key).noting (.get table key)
  put table item := (store.put table item).noting (.put table item)
  delete table key := (store.delete table key).noting (.delete table key)
  listTableNames start := (store.listTableNames start).noting (.listTableNames start)

end Tablescope
