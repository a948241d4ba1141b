import Mathlib.Data.List.Induction
import Tablescope.Proofs.Browser.Browse
import Tablescope.Proofs.Cursor.Wire

/-!
# Traversals lose nothing

A traversal asks for page after page, each from where the last one ended, until a page says that it
is the last. Every page may have its own size and its own settings, the place may be handed over as
it is or in a URL, and a call that fails is simply made again.

What carries the argument is that the items of the store always part into those behind the place,
whose matching ones are what was returned so far, and the rest. A page moves the place, a failure
does not.
-/

namespace Tablescope

/-- How one page is asked for; it has room for one item at least. -/
structure PageCall where
  settings : PagingSettings
  pageSize : Option Nat
  pos : 1 ≤ pageSize.getD settings.defaultPageSize

/-- A page of one item. -/
def PageCall.single : PageCall := ⟨{}, some 1, by decide⟩

/-- A page of the size that pages have if nobody asks for another. -/
def PageCall.plain : PageCall := ⟨{}, none, by decide⟩

/-- How many items the page may have. -/
def PageCall.size (call : PageCall) : Nat := call.pageSize.getD call.settings.defaultPageSize

/-- How the end of a page gets to the call for the next one. -/
inductive Handover where
  | direct
  /-- Written into a URL and read back. -/
  | url
  deriving DecidableEq

/-- The start of the next page, after it was handed over. -/
def Handover.carry : Handover → Option Cursor → Except InputError (Option Cursor)
  | _, none => .ok none
  | direct, some c => .ok (some c)
  | url, some c => (Cursor.decode c.encode).map some

/-- How far a traversal of a store in memory has come. -/
structure Traversal where
  state : MemoryState
  /-- The calls that succeeded, with their pages. -/
  pages : List (PageCall × BrowsePage)
  /-- Why the other calls failed. -/
  failures : List Error

namespace Traversal

/-- The traversal before its first call. -/
def begin (s : MemoryState) : Traversal := ⟨s, [], []⟩

/-- Where the next page starts; none if the last page has been returned. -/
def place (t : Traversal) : Option (Option Cursor) :=
  match t.pages.getLast? with
  | none => some none
  | some p => p.2.next.map some

/-- The items returned so far. -/
def returned (t : Traversal) : List Item :=
  t.pages.flatMap fun p => p.2.items.map BrowseItem.item

/-- One more call, unless the last page has been returned. -/
def turn (m : MemoryStore) (r : BrowseRequest) (t : Traversal) (call : Handover × PageCall) :
    Traversal :=
  match t.place with
  | none => t
  | some start =>
    match call.1.carry start with
    | .error e => { t with failures := t.failures ++ [.input e] }
    | .ok start =>
      match (m.browser call.2.settings).browse (r.continueAt start call.2.pageSize) t.state with
      | (.ok page, s) => { t with state := s, pages := t.pages ++ [(call.2, page)] }
      | (.error e, s) => { t with state := s, failures := t.failures ++ [e] }

/-! ### Places -/

/-- Whether this is where a traversal stands that has `seen` behind it and `rest` before it. -/
inductive Stands (schema : KeySchema) (attributes : List Attribute) :
    List Item → List Item → Option (Option Cursor) → Prop
  | begin {rest : List Item} : Stands schema attributes [] rest (some none)
  | behind {seen rest : List Item} {last : Option Cursor}
    (h : Continues schema attributes seen rest last) :
    Stands schema attributes seen rest (last.map some)

theorem place_append (s : MemoryState) (pages : List (PageCall × BrowsePage))
    (p : PageCall × BrowsePage) (failures : List Error) :
    place ⟨s, pages ++ [p], failures⟩ = p.2.next.map some := by
  rw [place, List.getLast?_concat]

theorem returned_append (s : MemoryState) (pages : List (PageCall × BrowsePage))
    (p : PageCall × BrowsePage) (failures : List Error) :
    returned ⟨s, pages ++ [p], failures⟩ =
      returned ⟨s, pages, failures⟩ ++ p.2.items.map BrowseItem.item := by
  rw [returned, returned, List.flatMap_append, List.flatMap_singleton]

variable {schema : KeySchema} {attributes : List Attribute} {seen rest : List Item}

/-- Where a traversal is finished there is nothing before it. -/
theorem Stands.rest_eq_nil (h : Stands schema attributes seen rest none) : rest = [] := by
  generalize hp : (none : Option (Option Cursor)) = place at h
  cases h with
  | begin => cases hp
  | behind h =>
    cases h with
    | done => rfl
    | behind h => cases hp

/-- A reading that starts where the traversal stands starts behind what was seen. -/
theorem Stands.startPosition {start : Option Cursor} (hk : Keyed schema (seen ++ rest))
    (h : Stands schema attributes seen rest (some start)) :
    MemoryStore.startPosition (seen ++ rest) (start.filter (!·.isEmpty)) = seen.length := by
  generalize hp : some start = place at h
  cases h with
  | begin =>
    cases hp
    rfl
  | behind h =>
    cases h with
    | done => cases hp
    | behind h =>
      cases hp
      rw [Option.filter_some_pos (by rw [h.not_isEmpty]; rfl)]
      exact MemoryStore.startPosition_of_continues hk (.behind h)

/-- The end of a page is the same after it was handed over. -/
theorem Stands.carry {start : Option Cursor} (hc : ∀ item ∈ seen, item.Carries attributes)
    (h : Stands schema attributes seen rest (some start)) (handover : Handover) :
    handover.carry start = .ok start := by
  generalize hp : some start = place at h
  cases h with
  | begin =>
    cases hp
    cases handover <;> rfl
  | behind h =>
    cases h with
    | done => cases hp
    | behind h =>
      cases hp
      cases handover with
      | direct => rfl
      | url =>
        rw [Handover.carry, Cursor.decode_encode h.nodup (h.isReadable (hc _ (by simp)))]
        rfl

/-! ### One more call -/

variable {m : MemoryStore} {r : BrowseRequest} {t : Traversal} {call : Handover × PageCall}

theorem turn_of_place_eq_none (h : t.place = none) : t.turn m r call = t := by
  rw [turn, h]

/-- A call that starts where it should either fails and is noted or returns a page. -/
theorem turn_cases (m : MemoryStore) (r : BrowseRequest) (call : Handover × PageCall)
    {start : Option Cursor} (hp : t.place = some start)
    (hcarry : call.1.carry start = .ok start) :
    (∃ e s, (m.browser call.2.settings).browse (r.continueAt start call.2.pageSize) t.state =
        (.error e, s) ∧ t.turn m r call = ⟨s, t.pages, t.failures ++ [e]⟩) ∨
      ∃ page s, (m.browser call.2.settings).browse (r.continueAt start call.2.pageSize) t.state =
        (.ok page, s) ∧ t.turn m r call = ⟨s, t.pages ++ [(call.2, page)], t.failures⟩ := by
  rw [turn, hp]
  simp only [hcarry]
  rcases hb : (m.browser call.2.settings).browse (r.continueAt start call.2.pageSize) t.state with
    ⟨e | page, s⟩
  · exact .inl ⟨e, s, rfl, rfl⟩
  · exact .inr ⟨page, s, rfl, rfl⟩

/-- What holds of a traversal of unchanging items at any time. -/
structure Sound (m : MemoryStore) (attributes : List Attribute) (items : List Item)
    (t : Traversal) : Prop where
  kept : t.state.items = items
  stands : ∃ seen rest, items = seen ++ rest ∧ t.returned = seen.filter m.isMatch ∧
    Stands m.schema.key attributes seen rest t.place
  sizes : ∀ p ∈ t.pages,
    p.2.items.length ≤ p.1.size ∧ (p.2.next ≠ none → p.2.items.length = p.1.size)
  goesOn : ∀ p ∈ t.pages.dropLast, p.2.next ≠ none
  failures : ∀ e ∈ t.failures, e.IsTransient

variable {items : List Item}

theorem sound_begin (fetches : Nat) : Sound m attributes items (begin ⟨items, fetches⟩) where
  kept := rfl
  stands := ⟨[], items, rfl, rfl, .begin⟩
  sizes := by simp [begin]
  goesOn := by simp [begin]
  failures := by simp [begin]

/-- Only the last page may say that it is the last. -/
theorem Sound.next_ne_none (h : Sound m attributes items t) (hp : t.place ≠ none) :
    ∀ p ∈ t.pages, p.2.next ≠ none := by
  intro p hmem
  rcases List.eq_nil_or_concat t.pages with hnil | ⟨init, last, hpages⟩
  · rw [hnil] at hmem
    cases hmem
  · rw [List.concat_eq_append] at hpages
    have hinit := h.goesOn
    rw [hpages, List.dropLast_concat] at hinit
    rw [hpages, List.mem_append, List.mem_singleton] at hmem
    rcases hmem with hmem | rfl
    · exact hinit p hmem
    · intro hnone
      rw [place, hpages, List.getLast?_concat] at hp
      exact hp (congrArg (Option.map some) hnone)

theorem Sound.turn (hd : m.schema.key.NamesDiffer) (hk : Keyed m.schema.key items)
    (ht : r.table = m.schema.name) {q : PageQuery} (hq : r.query m.schema = .ok q)
    (hc : ∀ item ∈ items, item.Carries q.cursorAttributes)
    (h : Sound m q.cursorAttributes items t) (call : Handover × PageCall) :
    Sound m q.cursorAttributes items (t.turn m r call) := by
  rcases hp : t.place with _ | start
  · rwa [turn_of_place_eq_none hp]
  obtain ⟨seen, rest, rfl, hreturned, hstands⟩ := h.stands
  rw [hp] at hstands
  have hcarry := hstands.carry (fun item hi => hc item (List.mem_append_left _ hi)) call.1
  have hquery := BrowseRequest.query_continueAt hq start call.2.pageSize
  rcases turn_cases m r call hp hcarry with ⟨e, s, hb, hturn⟩ | ⟨page, s, hb, hturn⟩
  · have he : e.IsTransient :=
      MemoryStore.transient_of_browse (r := r.continueAt start call.2.pageSize) ht hquery hd hk
        (fun item hi => (hc item (List.mem_append_right _ hi)).bears) call.2.pos h.kept
        (hstands.startPosition hk) hb
    rw [hturn]
    refine ⟨(MemoryStore.items_of_browse hb).trans h.kept, ⟨seen, rest, rfl, hreturned, ?_⟩,
      h.sizes, h.goesOn, ?_⟩
    · rw [← hp] at hstands
      exact hstands
    · intro e' he'
      rcases List.mem_append.1 he' with he' | he'
      · exact h.failures e' he'
      · rw [List.mem_singleton.1 he']
        exact he
  · obtain ⟨attributes, ha, ⟨more, after, rfl, hmore, hcont⟩, hsize⟩ :=
      MemoryStore.advances_of_browse hd hk call.2.pos h.kept (hstands.startPosition hk) hb
    have hattributes := (BrowseRequest.query_eq_ok_cases hquery).1
    rw [ha] at hattributes
    cases hattributes
    have hnext := h.next_ne_none (by rw [hp]; exact Option.some_ne_none start)
    rw [hturn]
    refine ⟨(MemoryStore.items_of_browse hb).trans h.kept,
      ⟨seen ++ more, after, ?_, ?_, ?_⟩, ?_, ?_, h.failures⟩
    · rw [List.append_assoc]
    · rw [returned_append, List.filter_append, ← hreturned, ← hmore]
      rfl
    · rw [place_append]
      exact .behind hcont
    · intro p hmem
      rcases List.mem_append.1 hmem with hmem | hmem
      · exact h.sizes p hmem
      · rw [List.mem_singleton.1 hmem]
        exact hsize
    · rw [List.dropLast_concat]
      exact hnext

/-! ### Whole traversals -/

/-- The traversal after these calls, the first of which starts at the beginning. -/
def run (m : MemoryStore) (r : BrowseRequest) (s : MemoryState)
    (calls : List (Handover × PageCall)) : Traversal :=
  calls.foldl (turn m r) (begin s)

theorem sound_run (hd : m.schema.key.NamesDiffer) (hk : Keyed m.schema.key items)
    (ht : r.table = m.schema.name) {q : PageQuery} (hq : r.query m.schema = .ok q)
    (hc : ∀ item ∈ items, item.Carries q.cursorAttributes) (fetches : Nat)
    (calls : List (Handover × PageCall)) :
    Sound m q.cursorAttributes items (run m r ⟨items, fetches⟩ calls) := by
  induction calls using List.reverseRecOn with
  | nil => exact sound_begin fetches
  | append_singleton calls call ih =>
    rw [run, List.foldl_append, ← run]
    exact ih.turn hd hk ht hq hc call

/-- Pages that go on are full. -/
theorem Sound.length_eq_of_mem_dropLast (h : Sound m attributes items t) :
    ∀ p ∈ t.pages.dropLast, p.2.items.length = p.1.size := fun p hmem =>
  (h.sizes p (List.dropLast_subset _ hmem)).2 (h.goesOn p hmem)

/-- There is an item for every page that is full. -/
theorem length_le_returned_of_full (s : MemoryState) {pages : List (PageCall × BrowsePage)}
    (failures : List Error) (h : ∀ p ∈ pages, p.2.items.length = p.1.size) :
    pages.length ≤ (returned ⟨s, pages, failures⟩).length := by
  induction pages using List.reverseRecOn with
  | nil => exact Nat.zero_le _
  | append_singleton pages p ih =>
    rw [List.forall_mem_append, List.forall_mem_singleton] at h
    have hle := ih h.1
    have hpos := p.1.pos
    rw [← PageCall.size, ← h.2] at hpos
    rw [returned_append, List.length_append, List.length_append, List.length_map,
      List.length_singleton]
    omega

/-- Before the last page there is an item for every page. -/
theorem Sound.length_pages_le_of_place (h : Sound m attributes items t) (hp : t.place ≠ none) :
    t.pages.length ≤ t.returned.length :=
  length_le_returned_of_full t.state t.failures fun p hmem =>
    (h.sizes p hmem).2 (h.next_ne_none hp p hmem)

/-- There is an item for every page but the last. -/
theorem Sound.length_pages_le (h : Sound m attributes items t) :
    t.pages.length ≤ t.returned.length + 1 := by
  rcases List.eq_nil_or_concat t.pages with hnil | ⟨init, last, hpages⟩
  · rw [hnil]
    exact Nat.zero_le _
  · rw [List.concat_eq_append] at hpages
    have hinit := h.length_eq_of_mem_dropLast
    rw [hpages, List.dropLast_concat] at hinit
    have hle := length_le_returned_of_full t.state t.failures hinit
    rw [hpages, List.length_append, List.length_singleton]
    have hreturned : t.returned = returned ⟨t.state, init ++ [last], t.failures⟩ := by
      rw [← hpages]
    rw [hreturned, returned_append, List.length_append]
    omega

/-- A traversal returns the matching items of the store in their order, each once: at any time the
first of them, and all of them when it is finished. No page is longer than was asked for and only
the last can be shorter, so it is finished after no more pages than matching items and one; and no
call fails for a reason that making it again cannot remove. -/
theorem returns_all_matches (hd : m.schema.key.NamesDiffer) (hk : Keyed m.schema.key items)
    (ht : r.table = m.schema.name) (hq : ∃ q, r.query m.schema = .ok q)
    (ha : m.schema.cursorAttributes r.selection = .ok attributes)
    (hc : ∀ item ∈ items, item.Carries attributes) (fetches : Nat)
    (calls : List (Handover × PageCall)) :
    let t := run m r ⟨items, fetches⟩ calls
    t.state.items = items ∧
      t.returned <+: items.filter m.isMatch ∧
      (t.place = none → t.returned = items.filter m.isMatch) ∧
      (∀ p ∈ t.pages, p.2.items.length ≤ p.1.size) ∧
      (∀ p ∈ t.pages.dropLast, p.2.items.length = p.1.size) ∧
      (t.place ≠ none → t.pages.length ≤ (items.filter m.isMatch).length) ∧
      t.pages.length ≤ (items.filter m.isMatch).length + 1 ∧
      ∀ e ∈ t.failures, e.IsTransient := by
  intro t
  obtain ⟨q, hq⟩ := hq
  have hattributes := (BrowseRequest.query_eq_ok_cases hq).1
  rw [ha] at hattributes
  cases hattributes
  have h : Sound m q.cursorAttributes items t := sound_run hd hk ht hq hc fetches calls
  have hprefix : t.returned <+: items.filter m.isMatch := by
    obtain ⟨seen, rest, rfl, hreturned, -⟩ := h.stands
    rw [List.filter_append, hreturned]
    exact List.prefix_append _ _
  refine ⟨h.kept, hprefix, fun hdone => ?_, fun p hmem => (h.sizes p hmem).1,
    h.length_eq_of_mem_dropLast, fun hp => ?_, ?_, h.failures⟩
  · obtain ⟨seen, rest, hitems, hreturned, hstands⟩ := h.stands
    rw [hdone] at hstands
    rw [hitems, hstands.rest_eq_nil, List.append_nil, hreturned]
  · exact Nat.le_trans (h.length_pages_le_of_place hp) hprefix.length_le
  · have hpages := h.length_pages_le
    have hlength := hprefix.length_le
    omega

/-- All notes of a user. -/
def notesOf (user : String) : BrowseRequest where
  table := "notes"
  selection := .table
  criteria := [⟨"user", .equal, user, .text⟩]
  mode := .query
  start := none
  pageSize := none

/-- Notes are read in pages of one, the second of them behind a cursor that went through a URL. The
second reading fails, so the call for it is made again, with other settings. -/
def callsForNotes : List (Handover × PageCall) :=
  [(.direct, .single), (.url, .single),
    (.url, ⟨{ batchSize := .explicit 2 }, some 1, by decide⟩), (.direct, .plain)]

theorem returns_all_matches_of_notes :
    let t := run MemoryStore.notes (notesOf "c") ⟨MemoryStore.someNotes, 0⟩ callsForNotes
    let matching := MemoryStore.someNotes.filter MemoryStore.notes.isMatch
    t.place = none ∧ t.failures.length = 1 ∧ t.pages.length = 2 ∧
      t.returned = [MemoryStore.note "a,b" "1" [], MemoryStore.note "c" "1" []] ∧
      t.state.items = MemoryStore.someNotes ∧ t.returned <+: matching ∧
      (t.place = none → t.returned = matching) ∧
      (∀ p ∈ t.pages, p.2.items.length ≤ p.1.size) ∧
      (∀ p ∈ t.pages.dropLast, p.2.items.length = p.1.size) ∧
      (t.place ≠ none → t.pages.length ≤ matching.length) ∧
      t.pages.length ≤ matching.length + 1 ∧ ∀ e ∈ t.failures, e.IsTransient := by
  intro t matching
  have hcarries : ∀ item ∈ MemoryStore.someNotes,
      item.Carries MemoryStore.notes.schema.key.attributes := by
    decide +kernel
  have h := returns_all_matches (m := MemoryStore.notes) (r := notesOf "c") (by decide) (by decide)
    rfl ⟨_, rfl⟩ rfl hcarries 0 callsForNotes
  have hrun : t.place = none ∧ t.failures.length = 1 ∧ t.pages.length = 2 := by decide +kernel
  obtain ⟨hdone, hfailures, hpages⟩ := hrun
  refine ⟨hdone, hfailures, hpages, ?_, h⟩
  rw [h.2.2.1 hdone]
  decide +kernel

end Traversal

end Tablescope
