import Tablescope.Store.Basic

/-!
# Scripted stores

A store that has its answers ready: the physical readings are answered from one list and the pages
of table names from another, in order and whatever is asked. When a list has run out, and for
everything else, the store fails.
-/

namespace Tablescope

/-- The answers that a scripted store has left. -/
structure Script where
  batches : List (Except Error Batch)
  listings : List (Except Error TablePage)

/-- The store that answers from a script. -/
def Store.scripted : Store Script where
  describe table := .fail (.schema (.tableNotFound table))
  fetch request := fun s =>
    match s.batches with
    | [] => (.error (.transport request.mode.operation "no more pages"), s)
    | answer :: rest => (answer, { s with batches := rest })
  get table _ := .fail (.schema (.tableNotFound table))
  put table _ := .fail (.schema (.tableNotFound table))
  delete table _ := .fail (.schema (.tableNotFound table))
  listTableNames _ := fun s =>
    match s.listings with
    | [] => (.error (.transport "ListTables" "no more pages"), s)
    | answer :: rest => (answer, { s with listings := rest })

end Tablescope
