import Tablescope.Paging.Page
import Tablescope.Proofs.Cursor.Names
import Tablescope.Proofs.Store.Chain
import Tablescope.Proofs.Store.Keyed
import Tablescope.Store.Scripted

/-!
# What a page comes to

Against any store, what a logical page comes to is told by the answers to a chain of readings, each
from where the one before got to. The page ends with the first answer that is a failure, has no
continuation or brings as many items as the page has, provided that it is among the readings that
are allowed. Then the page fails as the answer does, or has all items and the place that the answer
names, or is cut behind the last item that it can take.
-/

namespace Tablescope

namespace PageQuery

variable {σ : Type} {q : PageQuery} {store : Store σ} {s : σ}
variable {roundTrips size k : ℕ} {items : List Item}

/-! ### Cutting -/

variable {item : Item} {last : Option Cursor}

theorem cut_of_le (h : items.length ≤ size) : q.cut size items last = .ok ⟨items, last⟩ :=
  if_pos h

theorem cut_of_lt (hpos : 1 ≤ size) (h : size < items.length)
    (hitem : items[size - 1]? = some item) :
    q.cut size items last =
      (Cursor.ofItem item q.cursorAttributes).map fun c => ⟨items.take size, some c⟩ := by
  have hkept : (items.take size).getLast? = some item := by
    rw [List.getLast?_take, if_neg (by omega), hitem]
    rfl
  rw [cut, if_neg (by omega)]
  simp only [hkept]

/-! ### Pages -/

/-- What a page of this size comes to against these answers. -/
inductive Outcome (q : PageQuery) (size roundTrips : ℕ) (answers : Answers Item Cursor) :
    Except Error Page → Prop where
  /-- No answer that is allowed ends the page. -/
  | limit (h : ∀ k < roundTrips, ¬answers.Ends (size ≤ ·) k) :
      Outcome q size roundTrips answers
        (.error (.roundTripLimit roundTrips (answers.items roundTrips).length))
  /-- The answer that ends the page is a failure. -/
  | failed {k : ℕ} {e : Error} (hk : k < roundTrips) (h : answers.EndsFirst (size ≤ ·) k)
      (he : answers k = .error e) : Outcome q size roundTrips answers (.error e)
  /-- The page takes all items, and goes on where the answer says. -/
  | whole {k : ℕ} {batch : Batch} (hk : k < roundTrips) (h : answers.EndsFirst (size ≤ ·) k)
      (hb : answers k = .ok batch) (hle : (answers.items (k + 1)).length ≤ size) :
      Outcome q size roundTrips answers (.ok ⟨answers.items (k + 1), batch.last⟩)
  /-- The page takes the first items, and goes on behind the last of them. -/
  | cut {k : ℕ} {batch : Batch} {item : Item} {c : Cursor} (hk : k < roundTrips)
      (h : answers.EndsFirst (size ≤ ·) k) (hb : answers k = .ok batch)
      (hlt : size < (answers.items (k + 1)).length)
      (hitem : (answers.items (k + 1))[size - 1]? = some item)
      (hc : c.entries.map Entry.attribute = q.cursorAttributes) (hhas : item.Has c.entries) :
      Outcome q size roundTrips answers (.ok ⟨(answers.items (k + 1)).take size, some c⟩)
  /-- The last of the first items does not have the attributes of a continuation. -/
  | fault {k : ℕ} {batch : Batch} {item : Item} {fault : InputError} (hk : k < roundTrips)
      (h : answers.EndsFirst (size ≤ ·) k) (hb : answers k = .ok batch)
      (hlt : size < (answers.items (k + 1)).length)
      (hitem : (answers.items (k + 1))[size - 1]? = some item)
      (hfault : item.FirstFault q.cursorAttributes fault) :
      Outcome q size roundTrips answers (.error (.input fault))

/-- Something is what the page comes to. -/
theorem exists_outcome (hpos : 1 ≤ size) (answers : Answers Item Cursor) :
    ∃ result, q.Outcome size roundTrips answers result := by
  by_cases hlimit : ∃ k < roundTrips, answers.Ends (size ≤ ·) k
  · obtain ⟨k, hk, h⟩ := Answers.exists_endsFirst hlimit
    rcases ha : answers k with e | batch
    · exact ⟨_, .failed hk h ha⟩
    · rcases Nat.lt_or_ge size (answers.items (k + 1)).length with hlt | hle
      · obtain ⟨item, hitem⟩ : ∃ item, (answers.items (k + 1))[size - 1]? = some item :=
          ⟨_, List.getElem?_eq_getElem (by omega)⟩
        rcases hc : Cursor.ofItem item q.cursorAttributes with fault | c
        · exact ⟨_, .fault hk h ha hlt hitem (Cursor.ofItem_eq_error_iff.1 hc)⟩
        · obtain ⟨hattributes, hhas⟩ := Cursor.ofItem_eq_ok_iff.1 hc
          exact ⟨_, .cut hk h ha hlt hitem hattributes hhas⟩
      · exact ⟨_, .whole hk h ha hle⟩
  · simp only [not_exists, not_and] at hlimit
    exact ⟨_, .limit hlimit⟩

/-- What a store answers to the readings of a page. -/
def pageAnswers (q : PageQuery) (store : Store σ) (settings : PagingSettings) (s : σ) :
    Answers Item Cursor :=
  Action.answers (q.ask store (settings.limit (q.size settings))) q.firstStart s

variable {settings : PagingSettings}

/-- A page gathers items and cuts them. -/
theorem fetch_eq (hpos : 1 ≤ q.size settings) :
    q.fetch store settings =
      Action.gather (q.ask store (settings.limit (q.size settings))) (q.size settings ≤ ·)
        settings.roundTrips settings.roundTrips [] q.firstStart >>= fun gathered =>
          .ofInput (q.cut (q.size settings) gathered.1 gathered.2) := by
  unfold fetch
  simp only [if_neg (show ¬q.size settings = 0 by omega)]

theorem fetch_of_not_ends (hpos : 1 ≤ q.size settings)
    (h : ∀ k < settings.roundTrips,
      ¬(q.pageAnswers store settings s).Ends (q.size settings ≤ ·) k) :
    (q.fetch store settings s).1 =
      .error (.roundTripLimit settings.roundTrips
        ((q.pageAnswers store settings s).items settings.roundTrips).length) := by
  have hgather : (Action.gather (q.ask store (settings.limit (q.size settings)))
      (q.size settings ≤ ·) settings.roundTrips settings.roundTrips [] q.firstStart s).1 = _ :=
    Action.gather_of_not_ends h
  rw [fetch_eq hpos, Action.bind_apply]
  split
  · next hok =>
    rw [hok] at hgather
    cases hgather
  · next herror =>
    rw [herror] at hgather
    cases hgather
    rfl

theorem fetch_of_endsFirst (hpos : 1 ≤ q.size settings) (hk : k < settings.roundTrips)
    (h : (q.pageAnswers store settings s).EndsFirst (q.size settings ≤ ·) k) :
    (q.fetch store settings s).1 =
      q.pageAnswers store settings s k >>= fun batch =>
        (q.cut (q.size settings) ((q.pageAnswers store settings s).items (k + 1))
          batch.last).mapError .input := by
  have hgather : Action.gather (q.ask store (settings.limit (q.size settings)))
      (q.size settings ≤ ·) settings.roundTrips settings.roundTrips [] q.firstStart s = _ :=
    Action.gather_of_endsFirst hk h
  rw [fetch_eq hpos, Action.bind_apply, hgather, ← pageAnswers]
  rcases q.pageAnswers store settings s k with e | batch
  · rfl
  · rfl

/-- A page comes to what the answers of the store tell. -/
theorem fetch_of_outcome (hpos : 1 ≤ q.size settings) {result : Except Error Page}
    (h : q.Outcome (q.size settings) settings.roundTrips (q.pageAnswers store settings s) result) :
    (q.fetch store settings s).1 = result := by
  cases h with
  | limit h => exact fetch_of_not_ends hpos h
  | failed hk h he =>
    rw [fetch_of_endsFirst hpos hk h, he]
    rfl
  | whole hk h hb hle =>
    rw [fetch_of_endsFirst hpos hk h, hb]
    change Except.mapError _ _ = _
    rw [cut_of_le hle]
    rfl
  | cut hk h hb hlt hitem hc hhas =>
    rw [fetch_of_endsFirst hpos hk h, hb]
    change Except.mapError _ _ = _
    rw [cut_of_lt hpos hlt hitem, Cursor.ofItem_eq_ok_iff.2 ⟨hc, hhas⟩]
    rfl
  | fault hk h hb hlt hitem hfault =>
    rw [fetch_of_endsFirst hpos hk h, hb]
    change Except.mapError _ _ = _
    rw [cut_of_lt hpos hlt hitem, Cursor.ofItem_eq_error_iff.2 hfault]
    rfl

/-- A page comes to exactly what the answers of the store tell: to the failure of too many readings
if none of the allowed answers ends the page, and otherwise to what the first that does says. -/
theorem fetch_eq_iff (q : PageQuery) (store : Store σ) (settings : PagingSettings) (s : σ)
    (hpos : 1 ≤ q.size settings) (result : Except Error Page) :
    (q.fetch store settings s).1 = result ↔
      q.Outcome (q.size settings) settings.roundTrips (q.pageAnswers store settings s) result := by
  constructor
  · rintro rfl
    obtain ⟨result, h⟩ := exists_outcome hpos (q.pageAnswers store settings s)
    rwa [fetch_of_outcome hpos h]
  · exact fetch_of_outcome hpos

/-! ### A scripted page -/

/-- Pages of two notes. -/
def twoNotes : PageQuery where
  table := "notes"
  index := none
  mode := .scan
  expressions := ⟨[]⟩
  cursorAttributes := MemoryStore.notes.schema.key.attributes
  start := none
  pageSize := some 2

/-- Three answers, the first without items, the second with too few and the third with too many. -/
def overfull : Script where
  batches :=
    let place : Cursor := ⟨[("user", .text "z"), ("no", .number "9")]⟩
    [.ok ⟨[], some place⟩, .ok ⟨[MemoryStore.note "a,b" "1" []], some place⟩,
      .ok ⟨[MemoryStore.note "a,b" "2" [], MemoryStore.note "c" "1" []], some place⟩]
  listings := []

theorem fetch_eq_iff_of_overfull :
    1 ≤ twoNotes.size {} ∧
      (twoNotes.fetch Store.scripted {} overfull).1 =
        .ok ⟨[MemoryStore.note "a,b" "1" [], MemoryStore.note "a,b" "2" []],
          some ⟨[("user", .text "a,b"), ("no", .number "2")]⟩⟩ := by
  have hpos : 1 ≤ twoNotes.size {} := by decide
  have hends : (twoNotes.pageAnswers Store.scripted {} overfull).EndsFirst (2 ≤ ·) 2 := by
    decide +kernel
  have hitems : (twoNotes.pageAnswers Store.scripted {} overfull).items 3 =
      [MemoryStore.note "a,b" "1" [], MemoryStore.note "a,b" "2" [], MemoryStore.note "c" "1" []] :=
    rfl
  have houtcome : twoNotes.Outcome 2 100 (twoNotes.pageAnswers Store.scripted {} overfull)
      (.ok ⟨((twoNotes.pageAnswers Store.scripted {} overfull).items 3).take 2,
        some ⟨[("user", .text "a,b"), ("no", .number "2")]⟩⟩) :=
    .cut (by decide) hends rfl (by rw [hitems]; decide) (by rw [hitems]; rfl) rfl (by decide)
  rw [hitems] at houtcome
  exact ⟨hpos, (fetch_eq_iff twoNotes Store.scripted {} overfull hpos _).2 houtcome⟩

end PageQuery

end Tablescope
