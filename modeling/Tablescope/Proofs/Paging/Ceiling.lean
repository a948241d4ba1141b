import Mathlib.Order.Bounds.Basic
import Tablescope.Proofs.Paging.Page
import Tablescope.Proofs.Paging.Readings

/-!
# How far a page of a store in memory reaches

Readings of a store in memory that does not fail go through the items behind the start of a page in
stretches of one length. So how many readings a page takes is the least number of stretches that
hold as many matching items as the page has, or reach the end. If more are needed than are allowed,
the page fails; otherwise its items are the first matching ones, however long the stretches are and
however many are allowed.
-/

namespace Tablescope

namespace MemoryStore

variable {m : MemoryStore} {items rest : List Item} {limit size : ℕ}

/-- How many of the first items match. -/
def found (m : MemoryStore) (rest : List Item) (n : ℕ) : ℕ :=
  ((rest.take n).filter m.isMatch).length

/-- More items hold no fewer that match. -/
theorem found_mono (m : MemoryStore) (rest : List Item) {n k : ℕ} (h : n ≤ k) :
    m.found rest n ≤ m.found rest k :=
  ((List.take_sublist_take_left h).filter m.isMatch).length_le

/-- What the items behind the start of a reading are: all items if there is no start, and otherwise
those behind the first item that has all attributes of the start. -/
inductive Leaves (items : List Item) : Option Cursor → List Item → Prop
  | all {start : Option Cursor} (h : ∀ c ∈ start, c.isEmpty = true) : Leaves items start items
  | behind {before rest : List Item} {x : Item} {c : Cursor} (hc : c.isEmpty = false)
    (hitems : items = before ++ x :: rest) (hx : covers x c.toItem = true)
    (hfirst : ∀ y ∈ before, covers y c.toItem = false) : Leaves items (some c) rest

/-- Behind a start that names an item are the items behind this one. -/
theorem leaves_of_names {attributes : List Attribute} {before : List Item} {x : Item} {c : Cursor}
    (hk : Keyed m.schema.key (before ++ x :: rest)) (h : c.Names m.schema.key attributes x) :
    Leaves (before ++ x :: rest) (some c) rest := by
  obtain ⟨-, ⟨k, hx⟩, hne⟩ := Keyed.append_cons.1 hk
  refine .behind h.not_isEmpty rfl ((covers_ofEntries h.nodup).2 h.held) fun y hy => ?_
  rw [Bool.eq_false_iff]
  intro hcovers
  have hykey := h.ofItem_eq hx ((covers_ofEntries h.nodup).1 hcovers)
  exact hne y (List.mem_append_left _ hy) (hykey.trans hx.symm)

theorem Leaves.exists_startPosition {start : Option Cursor} (h : Leaves items start rest) :
    ∃ seen, items = seen ++ rest ∧
      startPosition items (start.filter (!·.isEmpty)) = seen.length := by
  cases h with
  | all h =>
    refine ⟨[], rfl, ?_⟩
    rw [Option.filter_eq_none_iff.2 fun c hc => by simp [h c hc]]
    rfl
  | @behind before _ x c hc hitems hx hfirst =>
    refine ⟨before ++ [x], by rw [hitems, List.append_assoc]; rfl, ?_⟩
    rw [Option.filter_some, hc, hitems]
    simp only [Bool.not_false, if_true]
    rw [startPosition, position?_append_cons hx hfirst, List.length_append]
    rfl

/-- A reading gets to the end exactly if it may evaluate all that is left. -/
theorem reached_eq_none_iff {index : Option String} {last : Option Cursor} (hl : 1 ≤ limit)
    (h : m.reached index rest (rest.take limit) = .ok last) :
    last = none ↔ rest.length ≤ limit := by
  unfold reached at h
  split at h
  · split at h
    · next hlt =>
      obtain ⟨c, -, rfl⟩ := Except.map_eq_ok_iff.1 h
      rw [List.length_take] at hlt
      simp only [reduceCtorEq, false_iff]
      omega
    · next hge =>
      cases h
      rw [List.length_take] at hge
      simp only [true_iff]
      omega
  · next hnone =>
    cases h
    have hlength := congrArg List.length (List.getLast?_eq_none_iff.1 hnone)
    rw [List.length_take, List.length_nil] at hlength
    simp only [true_iff]
    omega

/-! ### Stretches -/

/-- Whether this many stretches hold enough items for a page or reach the end. -/
def Suffices (m : MemoryStore) (rest : List Item) (limit size n : ℕ) : Prop :=
  size ≤ m.found rest (n * limit) ∨ rest.length ≤ n * limit

instance (m : MemoryStore) (rest : List Item) (limit size n : ℕ) :
    Decidable (m.Suffices rest limit size n) :=
  inferInstanceAs (Decidable (_ ∨ _))

theorem Suffices.mono {n k : ℕ} (h : m.Suffices rest limit size n) (hk : n ≤ k) :
    m.Suffices rest limit size k := by
  have hle : n * limit ≤ k * limit := Nat.mul_le_mul_right limit hk
  rcases h with h | h
  · exact .inl (h.trans (m.found_mono rest hle))
  · exact .inr (h.trans hle)

/-- Some least number of stretches, one at least, suffices. -/
theorem exists_isLeast_suffices (m : MemoryStore) (rest : List Item) (hl : 1 ≤ limit) (size : ℕ) :
    ∃ k, IsLeast {n | 1 ≤ n ∧ m.Suffices rest limit size n} (k + 1) := by
  have hex : ∃ k, m.Suffices rest limit size (k + 1) :=
    ⟨rest.length, .inr ((Nat.le_succ _).trans (Nat.le_mul_of_pos_right _ hl))⟩
  refine ⟨Nat.find hex, ⟨Nat.succ_pos _, Nat.find_spec hex⟩, ?_⟩
  rintro n ⟨hn, hsuffices⟩
  obtain ⟨j, rfl⟩ := Nat.exists_eq_add_of_le' hn
  exact Nat.succ_le_succ (Nat.find_min' hex hsuffices)

/-- Where no fewer stretches suffice, items are left in front of the last one. -/
theorem lt_length_of_isLeast {k : ℕ} (h : IsLeast {n | 1 ≤ n ∧ m.Suffices rest limit size n} (k + 1))
    {j : ℕ} (hj : j ≤ k) : j = 0 ∨ j * limit < rest.length := by
  rcases j with _ | j
  · exact .inl rfl
  · refine .inr (Nat.lt_of_not_le fun hle => ?_)
    exact absurd (h.2 ⟨Nat.succ_pos j, .inr hle⟩) (by omega)

/-- The first matching items of a page are among those that sufficient stretches hold. -/
theorem Suffices.take_filter {n : ℕ} (h : m.Suffices rest limit size n) :
    ((rest.take (n * limit)).filter m.isMatch).take size = (rest.filter m.isMatch).take size := by
  rcases h with h | h
  · conv_rhs => rw [← List.take_append_drop (n * limit) rest, List.filter_append]
    exact (List.take_append_of_le_length h).symm
  · rw [List.take_of_length_le h]

/-- What some stretches hold is what the first one holds and what the others hold. -/
theorem filter_take_succ_mul (m : MemoryStore) (rest : List Item) (limit k : ℕ) :
    (rest.take ((k + 1) * limit)).filter m.isMatch =
      (rest.take limit).filter m.isMatch ++
        ((rest.drop limit).take (k * limit)).filter m.isMatch := by
  rw [Nat.succ_mul, Nat.add_comm, List.take_add, List.filter_append]

end MemoryStore

namespace PageQuery

open MemoryStore

variable {m : MemoryStore} {q : PageQuery} {s : MemoryState} {start : Option Cursor}
variable {seen rest : List Item} {limit size k : ℕ} {settings : PagingSettings}

/-- Whether a query may read on between these items of a store that does not fail. -/
structure Poised (q : PageQuery) (m : MemoryStore) (s : MemoryState) (start : Option Cursor)
    (seen rest : List Item) : Prop where
  reads : q.Reads m
  reliable : m.failingFetches = []
  keyed : Keyed m.schema.key (seen ++ rest)
  bears : ∀ item ∈ rest, item.Bears q.cursorAttributes
  items : s.items = seen ++ rest
  start : startPosition (seen ++ rest) start = seen.length

namespace Poised

/-- A reading evaluates one stretch and leaves the others for the next. -/
theorem exists_fetch (h : q.Poised m s start seen rest) (hl : 1 ≤ limit) :
    ∃ batch t, q.ask m.store limit start s = (.ok batch, t) ∧
      batch.items = (rest.take limit).filter m.isMatch ∧
      (batch.last = none ↔ rest.length ≤ limit) ∧
      (batch.last ≠ none → q.Poised m t batch.last (seen ++ rest.take limit) (rest.drop limit)) := by
  have hattributes := h.reads.attributes_request limit start
  obtain ⟨batch, hbatch⟩ := exists_read hattributes h.bears h.start
  rw [read_eq h.start] at hbatch
  obtain ⟨last, hlast, rfl⟩ := Except.map_eq_ok_iff.1 hbatch
  have hlast : m.reached q.index rest (rest.take limit) = .ok last := hlast
  refine ⟨⟨(rest.take limit).filter m.isMatch, last⟩, { s with fetches := s.fetches + 1 }, ?_, rfl,
    reached_eq_none_iff hl hlast, fun hne => ?_⟩
  · have htable : (q.request limit start).table = m.schema.name := h.reads.table
    rw [ask, fetch_apply, h.reliable, if_neg List.not_mem_nil, if_pos htable, h.items,
      read_eq h.start]
    exact congrArg (·, _) hbatch
  · obtain ⟨c, rfl⟩ := Option.ne_none_iff_exists'.1 hne
    have hcontinues := continues_of_reached hattributes h.keyed hl hlast
    have hsplit : seen ++ rest = seen ++ rest.take limit ++ rest.drop limit := by
      rw [List.append_assoc, List.take_append_drop]
    have hkeyed : Keyed m.schema.key (seen ++ rest.take limit ++ rest.drop limit) :=
      hsplit ▸ h.keyed
    exact {
      reads := h.reads
      reliable := h.reliable
      keyed := hkeyed
      bears := fun item hi => h.bears item (List.mem_of_mem_drop hi)
      items := h.items.trans hsplit
      start := startPosition_of_continues hkeyed hcontinues }

/-- As long as items are left, a chain of readings goes through them stretch by stretch. -/
theorem exists_answer (h : q.Poised m s start seen rest) (hl : 1 ≤ limit)
    (hk : k = 0 ∨ k * limit < rest.length) :
    ∃ batch, Action.answers (q.ask m.store limit) start s k = .ok batch ∧
      (batch.last = none ↔ rest.length ≤ (k + 1) * limit) ∧
      (Action.answers (q.ask m.store limit) start s).items (k + 1) =
        (rest.take ((k + 1) * limit)).filter m.isMatch := by
  induction k generalizing seen rest start s with
  | zero =>
    obtain ⟨batch, t, hfetch, hitems, hlast, -⟩ := h.exists_fetch hl
    have hanswer := Action.answers_zero hfetch
    refine ⟨batch, hanswer, ?_, ?_⟩
    · rwa [Nat.zero_add, Nat.one_mul]
    · rw [Answers.items_one hanswer, hitems, Nat.zero_add, Nat.one_mul]
  | succ k ih =>
    have hlt : (k + 1) * limit < rest.length := hk.resolve_left (Nat.succ_ne_zero k)
    rw [Nat.succ_mul] at hlt
    obtain ⟨batch, t, hfetch, hitems, hlast, hnext⟩ := h.exists_fetch hl
    have hdrop : (rest.drop limit).length = rest.length - limit := List.length_drop
    have hgoes : batch.last ≠ none := mt hlast.1 (by omega)
    obtain ⟨batch', hanswer, hlast', hitems'⟩ := ih (hnext hgoes) (.inr (by omega))
    refine ⟨batch', ?_, ?_, ?_⟩
    · rw [Action.answers_succ hfetch, hanswer]
    · rw [hlast', hdrop, Nat.succ_mul (k + 1)]
      omega
    · rw [Action.items_answers_succ hfetch, hitems', hitems,
        filter_take_succ_mul m rest limit (k + 1)]

/-- An answer ends a page exactly if so many stretches suffice. -/
theorem ends_iff (h : q.Poised m s start seen rest) (hl : 1 ≤ limit)
    (hk : k = 0 ∨ k * limit < rest.length) :
    (Action.answers (q.ask m.store limit) start s).Ends (size ≤ ·) k ↔
      m.Suffices rest limit size (k + 1) := by
  obtain ⟨batch, hanswer, hlast, hitems⟩ := h.exists_answer hl hk
  rw [Answers.ends_iff_of_ok hanswer, hlast, hitems, or_comm]
  rfl

/-- The first answer that ends a page is that of the least number of stretches that suffices. -/
theorem endsFirst (h : q.Poised m s start seen rest) (hl : 1 ≤ limit)
    (hk : IsLeast {n | 1 ≤ n ∧ m.Suffices rest limit size n} (k + 1)) :
    (Action.answers (q.ask m.store limit) start s).EndsFirst (size ≤ ·) k := by
  refine ⟨(h.ends_iff hl (lt_length_of_isLeast hk le_rfl)).2 hk.1.2, fun j hj => ?_⟩
  rw [h.ends_iff hl (lt_length_of_isLeast hk hj.le)]
  exact fun hsuffices => absurd (hk.2 ⟨Nat.succ_pos j, hsuffices⟩) (by omega)

end Poised

/-- Where a page starts it may be read on. -/
theorem exists_poised (hq : q.Reads m) (hfail : m.failingFetches = [])
    (hk : Keyed m.schema.key s.items) (hbears : ∀ item ∈ s.items, item.Bears q.cursorAttributes)
    (hleaves : Leaves s.items q.start rest) : ∃ seen, q.Poised m s q.firstStart seen rest := by
  obtain ⟨seen, hitems, hstart⟩ := hleaves.exists_startPosition
  refine ⟨seen, hq, hfail, hitems ▸ hk, fun item hi => hbears item ?_, hitems, hitems ▸ hstart⟩
  rw [hitems]
  exact List.mem_append_right _ hi

/-- A page takes the first items. -/
theorem items_of_cut {items : List Item} {last : Option Cursor} {page : Page}
    (h : q.cut size items last = .ok page) : page.items = items.take size := by
  unfold cut at h
  split at h
  · next hle =>
    cases h
    exact (List.take_of_length_le hle).symm
  · simp only at h
    split at h
    · cases h
      rfl
    · obtain ⟨c, -, rfl⟩ := Except.map_eq_ok_iff.1 h
      rfl

section

variable (hpos : 1 ≤ q.size settings)
variable (hk : IsLeast
  {n | 1 ≤ n ∧ m.Suffices rest (settings.limit (q.size settings)) (q.size settings) n} (k + 1))

include hpos hk

/-- If the stretches that it takes are allowed, a page has the first matching items. -/
theorem Poised.fetch_of_le (h : q.Poised m s q.firstStart seen rest)
    (hle : k + 1 ≤ settings.roundTrips) :
    ∃ page, (q.fetch m.store settings s).1 = .ok page ∧
      page.items = (rest.filter m.isMatch).take (q.size settings) := by
  have hl := settings.limit_pos (q.size settings)
  obtain ⟨batch, hanswer, -, hitems⟩ := h.exists_answer hl (lt_length_of_isLeast hk le_rfl)
  obtain ⟨page, hpage⟩ : ∃ page, q.cut (q.size settings)
      ((rest.take ((k + 1) * settings.limit (q.size settings))).filter m.isMatch) batch.last =
        .ok page :=
    exists_cut fun item hi => h.bears item (List.mem_of_mem_take (List.mem_of_mem_filter hi))
  refine ⟨page, ?_, ?_⟩
  · rw [fetch_of_endsFirst hpos hle (h.endsFirst hl hk), pageAnswers, hanswer, hitems]
    exact Except.mapError_eq_ok_iff.2 hpage
  · rw [items_of_cut hpage, hk.1.2.take_filter]

/-- If they are not, it fails. -/
theorem Poised.fetch_of_lt (h : q.Poised m s q.firstStart seen rest)
    (hlt : settings.roundTrips < k + 1) :
    (q.fetch m.store settings s).1 = .error (.roundTripLimit settings.roundTrips
      (m.found rest (settings.roundTrips * settings.limit (q.size settings)))) := by
  have hl := settings.limit_pos (q.size settings)
  obtain ⟨j, hj⟩ : ∃ j, settings.roundTrips = j + 1 :=
    Nat.exists_eq_add_of_le' settings.one_le_roundTrips
  obtain ⟨batch, -, -, hitems⟩ := h.exists_answer hl (lt_length_of_isLeast hk (j := j) (by omega))
  rw [fetch_of_not_ends hpos fun i hi => (h.endsFirst hl hk).2 i (by omega), pageAnswers, hj,
    hitems]
  rfl

omit hpos in
/-- The stretches that a page takes are more than allowed exactly if those that are allowed neither
reach the end nor hold enough items. -/
theorem roundTrips_lt_iff :
    settings.roundTrips < k + 1 ↔
      settings.roundTrips * settings.limit (q.size settings) < rest.length ∧
        m.found rest (settings.roundTrips * settings.limit (q.size settings)) < q.size settings := by
  have hsuffices : m.Suffices rest (settings.limit (q.size settings)) (q.size settings)
      settings.roundTrips ↔ k + 1 ≤ settings.roundTrips :=
    ⟨fun h => hk.2 ⟨settings.one_le_roundTrips, h⟩, hk.1.2.mono⟩
  rw [← Nat.not_le, ← hsuffices, Suffices, not_or, Nat.not_le, Nat.not_le, and_comm]

end

/-- A page of a store in memory fails for too many readings exactly if the items that the allowed
readings evaluate are not all there are and too few of them match. Otherwise it has the first
matching items, after the least number of readings that evaluate enough of them or all there are. -/
theorem reaches_exactly (settings : PagingSettings) (hq : q.Reads m) (hfail : m.failingFetches = [])
    (hkeyed : Keyed m.schema.key s.items)
    (hbears : ∀ item ∈ s.items, item.Bears q.cursorAttributes)
    (hleaves : Leaves s.items q.start rest) (hpos : 1 ≤ q.size settings) :
    let size := q.size settings
    let limit := settings.batchSize.limit size
    let trips := settings.roundTrips
    let outcome := q.fetch m.store.recorded settings (s, [])
    let exceeds := trips * limit < rest.length ∧ m.found rest (trips * limit) < size
    ((∃ made accumulated, outcome.1 = .error (.roundTripLimit made accumulated)) ↔ exceeds) ∧
      (exceeds → outcome.1 = .error (.roundTripLimit trips (m.found rest (trips * limit)))) ∧
      (¬exceeds → ∃ page, outcome.1 = .ok page ∧
        page.items = (rest.filter m.isMatch).take size ∧
        IsLeast {n | 1 ≤ n ∧ (size ≤ m.found rest (n * limit) ∨ rest.length ≤ n * limit)}
          outcome.2.2.length) := by
  intro size limit trips outcome exceeds
  obtain ⟨seen, hpoised⟩ := exists_poised hq hfail hkeyed hbears hleaves
  obtain ⟨k, hk⟩ := m.exists_isLeast_suffices rest (settings.limit_pos size) size
  obtain ⟨n, hn⟩ := Answers.exists_takes (q.pageAnswers m.store settings s) (size ≤ ·) trips
  have houtcome : outcome = _ := fetch_eq_readings hpos hn
  have hexceeds : trips < k + 1 ↔ exceeds := roundTrips_lt_iff hk
  have herror : exceeds → outcome.1 = .error (.roundTripLimit trips (m.found rest (trips * limit))) :=
    fun h => houtcome ▸ hpoised.fetch_of_lt hpos hk (hexceeds.2 h)
  have hok : ¬exceeds → ∃ page, outcome.1 = .ok page ∧
      page.items = (rest.filter m.isMatch).take size := fun h =>
    houtcome ▸ hpoised.fetch_of_le hpos hk (Nat.le_of_not_lt (mt hexceeds.1 h))
  refine ⟨⟨?_, fun h => ⟨_, _, herror h⟩⟩, herror, fun h => ?_⟩
  · rintro ⟨made, accumulated, hmade⟩
    by_contra h
    obtain ⟨page, hpage, -⟩ := hok h
    rw [hpage] at hmade
    cases hmade
  · obtain ⟨page, hpage, hitems⟩ := hok h
    have hlength : outcome.2.2.length = k + 1 := by
      have hle : k + 1 ≤ trips := Nat.le_of_not_lt (mt hexceeds.1 h)
      have hends := hpoised.endsFirst (settings.limit_pos size) hk
      rw [houtcome, (chainsOn_readings hn).length_of_endsFirst k hends, Nat.min_eq_left hle]
    exact ⟨page, hpage, hitems, hlength ▸ hk⟩

/-- The store of notes, all of whose readings succeed. -/
def steadyNotes : MemoryStore := { notes with failingFetches := [] }

/-- One note behind the first of some notes. -/
def oneFurther : PageQuery :=
  { twoNotes with start := some ⟨[("user", .text "a,b"), ("no", .number "1")]⟩, pageSize := some 1 }

theorem reaches_exactly_of_notes :
    let s : MemoryState := ⟨someNotes, 0⟩
    let rest := someNotes.drop 1
    let once : PagingSettings := { batchSize := .explicit 1, maxRoundTrips := 1 }
    let twice : PagingSettings := { batchSize := .explicit 1, maxRoundTrips := 2 }
    let outcome := oneFurther.fetch steadyNotes.store.recorded twice (s, [])
    oneFurther.Reads steadyNotes ∧ steadyNotes.failingFetches = [] ∧
      Keyed steadyNotes.schema.key s.items ∧
      (∀ item ∈ s.items, item.Bears oneFurther.cursorAttributes) ∧
      Leaves s.items oneFurther.start rest ∧ 1 ≤ oneFurther.size once ∧
      (oneFurther.fetch steadyNotes.store.recorded once (s, [])).1 =
        .error (.roundTripLimit 1 0) ∧
      (∃ page, outcome.1 = .ok page ∧ page.items = [note "c" "1" []]) ∧ outcome.2.2.length = 2 := by
  intro s rest once twice outcome
  have hreads : oneFurther.Reads steadyNotes := ⟨rfl, rfl⟩
  have hkeyed : Keyed steadyNotes.schema.key s.items := by decide
  have hbears : ∀ item ∈ s.items, item.Bears oneFurther.cursorAttributes := fun item hi => by
    obtain ⟨k, hkey⟩ := hkeyed.typed item hi
    exact Item.bears_of_ofItem hkey
  have hnames : Cursor.Names steadyNotes.schema.key steadyNotes.schema.key.attributes
      ⟨[("user", .text "a,b"), ("no", .number "1")]⟩ (note "a,b" "1" []) :=
    Cursor.names_of_ofItem rfl (by decide) (List.Subset.refl _)
  have hleaves : Leaves s.items oneFurther.start rest := by
    have hkeyed : Keyed steadyNotes.schema.key ([] ++ note "a,b" "1" [] :: rest) := hkeyed
    exact leaves_of_names hkeyed hnames
  have hpos : 1 ≤ oneFurther.size once := by decide
  obtain ⟨-, herror, -⟩ := reaches_exactly once hreads rfl hkeyed hbears hleaves hpos
  obtain ⟨-, -, hok⟩ := reaches_exactly twice hreads rfl hkeyed hbears hleaves hpos
  obtain ⟨page, hpage, hitems, hleast⟩ := hok (by decide +kernel)
  refine ⟨hreads, rfl, hkeyed, hbears, hleaves, hpos, ?_, ⟨page, hpage, ?_⟩, ?_⟩
  · rw [herror (by decide +kernel)]
    decide +kernel
  · rw [hitems]
    decide +kernel
  · refine hleast.unique ⟨by decide +kernel, ?_⟩
    rintro n ⟨hn, hsuffices⟩
    by_contra hlt
    obtain rfl : n = 1 := by omega
    revert hsuffices
    decide +kernel

end PageQuery

end Tablescope
