import Tablescope.Paging.Settings
import Tablescope.Store.Basic

/-!
# Logical pages

A physical reading applies the filter after its limit, so it gives anything between no item and as
many as it evaluated. A logical page chains readings, each from where the one before got to, until
it has enough items or the store is exhausted. If the last reading gave more than the page can take,
the surplus is dropped, and the page ends behind the last item that was kept, since the place the
store reports lies behind the items that were dropped.

Any failure ends the page without items. When the allowed readings are used up and neither the page
is full nor the store exhausted, that is a failure too. A page of size zero takes no reading and
ends where it starts.
-/

namespace Tablescope

/-- What a logical page is read from. -/
structure PageQuery where
  table : String
  index : Option String
  mode : AccessMode
  expressions : ExpressionSet
  /-- The attributes that a continuation needs. -/
  cursorAttributes : List Attribute
  start : Option Cursor
  /-- The size of the page; none asks for the default size. -/
  pageSize : Option Nat

/-- One logical page. -/
structure Page where
  items : List Item
  /-- Where the next page starts; none if there are no more items. -/
  next : Option Cursor
  deriving DecidableEq

namespace PageQuery

/-- The physical reading from a place on. -/
def request (q : PageQuery) (limit : Nat) (start : Option Cursor) : FetchRequest where
  table := q.table
  index := q.index
  mode := q.mode
  expressions := q.expressions
  start := start
  limit := limit

variable {σ : Type}

/-- One physical reading for a page, from a place on. -/
def ask (q : PageQuery) (store : Store σ) (limit : Nat) (start : Option Cursor) : Action σ Batch :=
  store.fetch (q.request limit start)

/-- The page of the items that were gathered, the surplus dropped. -/
def cut (q : PageQuery) (size : Nat) (items : List Item) (last : Option Cursor) :
    Except InputError Page :=
  if items.length ≤ size then .ok ⟨items, last⟩
  else
    let kept := items.take size
    match kept.getLast? with
    | none => .ok ⟨kept, none⟩
    | some item => (Cursor.ofItem item q.cursorAttributes).map fun c => ⟨kept, some c⟩

/-- The size of the page. -/
def size (q : PageQuery) (settings : PagingSettings) : Nat :=
  q.pageSize.getD settings.defaultPageSize

/-- Where the first reading starts; a cursor without entries is as good as none. -/
def firstStart (q : PageQuery) : Option Cursor := q.start.filter (!·.isEmpty)

/-- One logical page. -/
def fetch (q : PageQuery) (store : Store σ) (settings : PagingSettings) : Action σ Page := do
  let size := q.size settings
  if size = 0 then return ⟨[], q.start⟩
  else
    let trips := settings.roundTrips
    let (items, last) ←
      Action.gather (q.ask store (settings.limit size)) (size ≤ ·) trips trips [] q.firstStart
    .ofInput (q.cut size items last)

end PageQuery

end Tablescope
