import Tablescope.Json.Record

/-!
# Paging settings

A logical page is put together from physical readings of a store. The settings say how many items a
page has if nobody asks for a number, how many items one physical reading evaluates, and how many
physical readings one page may take. The last two are used as at least one, whatever was set.
-/

namespace Tablescope

/-- How many items one physical reading evaluates. -/
inductive BatchSize where
  /-- As many as the page has, but no fewer than a hundred and no more than a thousand. -/
  | auto
  | explicit (limit : Int32)
  deriving DecidableEq

namespace BatchSize

/-- A count as an integer of 32 bits, if it is one. -/
def int32? (n : Nat) : Option Int32 :=
  if (n : Int) ≤ Int32.maxValue.toInt then some (Int32.ofNat n) else none

/-- The limit of a physical reading for a page of this size, in the 32 bits that a store takes. -/
def limit32 : BatchSize → Nat → Int32
  | auto, pageSize => min (max ((int32? pageSize).getD 1000) 100) 1000
  | explicit n, _ => max n 1

/-- The limit of a physical reading for a page of this size. -/
def limit (b : BatchSize) (pageSize : Nat) : Nat := (b.limit32 pageSize).toInt.toNat

/-- The same setting with an explicit limit of at least one. -/
def atLeastOne : BatchSize → BatchSize
  | auto => auto
  | explicit n => explicit (if n < 1 then 1 else n)

end BatchSize

/-- How logical pages are put together. -/
structure PagingSettings where
  /-- The size of a page that is asked for without a size. -/
  defaultPageSize : Nat := 25
  batchSize : BatchSize := .auto
  /-- The ceiling on physical readings as it was set; `roundTrips` is the one in force. -/
  maxRoundTrips : Nat := 100
  deriving DecidableEq

namespace PagingSettings

instance : Inhabited PagingSettings := ⟨{}⟩

/-- How many physical readings one page may take. -/
def roundTrips (s : PagingSettings) : Nat := max s.maxRoundTrips 1

/-- The limit of a physical reading for a page of this size. -/
def limit (s : PagingSettings) (pageSize : Nat) : Nat := s.batchSize.limit pageSize

/-! ### Setting one by one -/

/-- The settings with another default page size. -/
def withDefaultPageSize (s : PagingSettings) (n : Nat) : PagingSettings :=
  { s with defaultPageSize := n }

/-- The settings with another batch size; an explicit one is raised to one. -/
def withBatchSize (s : PagingSettings) (b : BatchSize) : PagingSettings :=
  { s with batchSize := b.atLeastOne }

/-- The settings with another ceiling, which is raised to one. -/
def withMaxRoundTrips (s : PagingSettings) (n : Nat) : PagingSettings :=
  { s with maxRoundTrips := max n 1 }

/-! ### Reading -/

/-- A count of 64 bits. -/
def count? (j : Json) : Option Nat := j.nat?.filter (· < UInt64.size)

/-- The batch size that is `auto`, or `explicit` with an integer of 32 bits. -/
def batchSize? (j : Json) : Option BatchSize :=
  match j with
  | .object [("explicit", n)] =>
    match n.int? with
    | some i =>
      if Int32.minValue.toInt ≤ i ∧ i ≤ Int32.maxValue.toInt then
        some (.explicit (Int32.ofInt i))
      else none
    | none => none
  | _ => if j.tag? = some "auto" then some .auto else none

/-- The settings of a record of `default_page_size`, `physical_batch_size` and `max_round_trips`;
those left out have their defaults, and the others are kept as they are. -/
def ofJson? (j : Json) : Option PagingSettings := do
  match ← j.record? ["default_page_size", "physical_batch_size", "max_round_trips"] with
  | [size, batch, trips] =>
    let defaults : PagingSettings := {}
    let defaultPageSize ← Json.optional? defaults.defaultPageSize count? size
    let batchSize ← Json.optional? defaults.batchSize batchSize? batch
    let maxRoundTrips ← Json.optional? defaults.maxRoundTrips count? trips
    some { defaultPageSize, batchSize, maxRoundTrips }
  | _ => none

/-- The settings that a text writes. -/
def parse? (text : String) : Option PagingSettings := (Json.parse? text).bind ofJson?

end PagingSettings

end Tablescope
