import Tablescope.Paging.Page
import Tablescope.Proofs.Paging.Settings
import Tablescope.Proofs.Store.Chain
import Tablescope.Proofs.Store.Memory
import Tablescope.Proofs.Store.Reading

/-!
# A page advances

Chained readings advance as one reading does, and cutting the surplus off takes the place back to
the last item that was kept, so a page of a store in memory advances too. It has no more items than
were asked for and, unless it is the last one, no fewer. What was read is not written to, and where
every item bears what a continuation needs, a page fails for no other reason than the readings
themselves.
-/

namespace Tablescope

namespace PageQuery

variable {σ γ : Type}

/-! ### Views that readings keep -/

theorem keeps_fetch {view : σ → γ} {store : Store σ}
    (hv : ∀ request, (store.fetch request).Keeps view) (q : PageQuery)
    (settings : PagingSettings) : (q.fetch store settings).Keeps view := by
  unfold fetch
  simp only
  split
  · exact Action.keeps_pure _
  · exact Action.keeps_bind (Action.keeps_gather (fun _ => hv _) _ _ _ _) fun _ =>
      Action.keeps_ofInput _

/-! ### Advancing -/

variable {m : MemoryStore} {q : PageQuery} {seen rest : List Item} {s t : MemoryState}

/-- Whether a query reads a store in memory and knows what a continuation in it needs. -/
structure Reads (q : PageQuery) (m : MemoryStore) : Prop where
  table : q.table = m.schema.name
  attributes : m.schema.cursorAttributes (q.index.elim .table .index) = .ok q.cursorAttributes

/-- The readings of a page ask for no other continuation than the page. -/
theorem Reads.attributes_request (hq : q.Reads m) (limit : Nat) (start : Option Cursor) :
    m.schema.cursorAttributes ((q.request limit start).index.elim .table .index) =
      .ok q.cursorAttributes :=
  hq.attributes

/-- Where a chain of readings is that began between these items: behind some of the rest, with those
of them at hand that match. -/
structure Underway (m : MemoryStore) (seen rest items : List Item) (start : Option Cursor)
    (s : MemoryState) : Prop where
  untouched : s.items = seen ++ rest
  place : ∃ more after, rest = more ++ after ∧ items = more.filter m.isMatch ∧
    MemoryStore.startPosition (seen ++ rest) start = (seen ++ more).length

/-- Where a chain of readings has got to. -/
structure Arrived (q : PageQuery) (m : MemoryStore) (seen rest items : List Item)
    (last : Option Cursor) (s : MemoryState) : Prop where
  untouched : s.items = seen ++ rest
  advances : m.Advances q.cursorAttributes seen rest items last

theorem underway_nil {start : Option Cursor} (hs : s.items = seen ++ rest)
    (hstart : MemoryStore.startPosition (seen ++ rest) start = seen.length) :
    Underway m seen rest [] start s :=
  ⟨hs, [], rest, rfl, rfl, by rwa [List.append_nil]⟩

/-- Each reading of a page advances. -/
theorem arrived_of_fetch (hq : q.Reads m) (hk : Keyed m.schema.key (seen ++ rest)) {limit : Nat}
    (hl : 1 ≤ limit) {items : List Item} {start : Option Cursor} {batch : Batch}
    (hs : Underway m seen rest items start s) (h : q.ask m.store limit start s = (.ok batch, t)) :
    Arrived q m seen rest (items ++ batch.items) batch.last t := by
  obtain ⟨hitems, more, after, rfl, rfl, hstart⟩ := hs
  have hread := MemoryStore.read_of_fetch h
  -- the reading parts the items behind those that the chain has evaluated already
  rw [← List.append_assoc] at hitems hk hstart
  rw [hitems] at hread
  obtain ⟨evaluated, left, rfl, hbatch, hcontinues⟩ :=
    MemoryStore.advances_of_read (hq.attributes_request limit start) hk hl hstart hread
  refine ⟨?_, more ++ evaluated, left, ?_, ?_, ?_⟩
  · rw [MemoryStore.items_of_fetch h, hitems, List.append_assoc]
  · rw [List.append_assoc]
  · rw [hbatch, List.filter_append]
  · rwa [← List.append_assoc]

/-- The next one is from where it got to. -/
theorem Arrived.underway (hk : Keyed m.schema.key (seen ++ rest)) {items : List Item} {c : Cursor}
    (h : Arrived q m seen rest items (some c) s) : Underway m seen rest items (some c) s := by
  obtain ⟨hitems, more, after, rfl, rfl, hcontinues⟩ := h
  refine ⟨hitems, more, after, rfl, rfl, ?_⟩
  rw [← List.append_assoc] at hk ⊢
  exact MemoryStore.startPosition_of_continues hk hcontinues

theorem advances_of_gather (hq : q.Reads m) (hk : Keyed m.schema.key (seen ++ rest))
    {roundTrips limit size trips : Nat} (hl : 1 ≤ limit) {items : List Item}
    {start last : Option Cursor} (hs : s.items = seen ++ rest)
    (hstart : MemoryStore.startPosition (seen ++ rest) start = seen.length)
    (h : Action.gather (q.ask m.store limit) (size ≤ ·) roundTrips trips [] start s =
      (.ok (items, last), t)) :
    m.Advances q.cursorAttributes seen rest items last ∧ (last = none ∨ size ≤ items.length) := by
  rcases Action.gather_cases (I := Underway m seen rest) (J := Arrived q m seen rest)
    (fun _ _ _ _ _ => arrived_of_fetch hq hk hl) (fun _ _ _ => Arrived.underway hk)
    (underway_nil hs hstart) h with ⟨n, hn⟩ | ⟨_, _, _, e, -, -, he⟩ | ⟨_, _, hok, harrived, hends⟩
  · cases hn
  · cases he
  · cases hok
    exact ⟨harrived.advances, hends⟩

/-- Cutting takes the place back to behind the last item that is kept. -/
theorem advances_of_cut (hq : q.Reads m) (hn : m.schema.key.attributes.Nodup) {size : Nat}
    (hpos : 1 ≤ size) {items : List Item} {last : Option Cursor} {page : Page}
    (hadv : m.Advances q.cursorAttributes seen rest items last)
    (hlast : last = none ∨ size ≤ items.length) (h : q.cut size items last = .ok page) :
    m.Advances q.cursorAttributes seen rest page.items page.next ∧ page.items.length ≤ size ∧
      (page.next ≠ none → page.items.length = size) := by
  unfold cut at h
  split at h
  · next hle =>
    cases h
    exact ⟨hadv, hle, fun hne => Nat.le_antisymm hle (hlast.resolve_left hne)⟩
  · next hgt =>
    have hlen : (items.take size).length = size := by
      rw [List.length_take]
      omega
    simp only at h
    split at h
    · next hnone =>
      rw [List.getLast?_eq_none_iff.1 hnone, List.length_nil] at hlen
      omega
    · next item hitem =>
      obtain ⟨c, hc, rfl⟩ := Except.map_eq_ok_iff.1 h
      obtain ⟨more, after, rfl, rfl, -⟩ := hadv
      obtain ⟨init, hinit⟩ := List.getLast?_eq_some_iff.1 hitem
      -- the items that were evaluated part behind the last one that is kept
      have hsplit : more.filter m.isMatch =
          (init ++ [item]) ++ (more.filter m.isMatch).drop size := by
        rw [← hinit, List.take_append_drop]
      rw [List.append_assoc, List.singleton_append] at hsplit
      obtain ⟨a, b, rfl, ha, hb⟩ := List.filter_eq_append_iff.1 hsplit
      obtain ⟨b, d, rfl, hbnone, hitem', hd⟩ := List.filter_eq_cons_iff.1 hb
      refine ⟨⟨a ++ b ++ [item], d ++ after, ?_, ?_, ?_⟩, Nat.le_of_eq hlen, fun _ => hlen⟩
      · simp only [List.append_assoc, List.cons_append, List.nil_append]
      · rw [hinit, List.filter_append, List.filter_append, ha, List.filter_eq_nil_iff.2 hbnone,
          List.append_nil, List.filter_cons_of_pos hitem', List.filter_nil]
      · rw [← List.append_assoc]
        refine .behind (Cursor.names_of_ofItem hc ?_ ?_)
        · exact TableSchema.nodup_of_cursorAttributes hq.attributes hn
        · exact TableSchema.key_subset_of_cursorAttributes hq.attributes

theorem advances_of_fetch (hq : q.Reads m) (hn : m.schema.key.attributes.Nodup)
    (hk : Keyed m.schema.key (seen ++ rest)) {settings : PagingSettings}
    (hpos : 1 ≤ q.size settings) (hs : s.items = seen ++ rest)
    (hstart : MemoryStore.startPosition (seen ++ rest) q.firstStart = seen.length) {page : Page}
    (h : q.fetch m.store settings s = (.ok page, t)) :
    m.Advances q.cursorAttributes seen rest page.items page.next ∧
      page.items.length ≤ q.size settings ∧
      (page.next ≠ none → page.items.length = q.size settings) := by
  unfold fetch at h
  simp only [if_neg (show ¬q.size settings = 0 by omega)] at h
  obtain ⟨⟨items, last⟩, s', hgather, hcut⟩ := Action.bind_eq_ok_iff.1 h
  obtain ⟨hadv, hlast⟩ := advances_of_gather hq hk (settings.limit_pos _) hs hstart hgather
  exact advances_of_cut hq hn hpos hadv hlast (Action.ofInput_eq_ok_iff.1 hcut).1

/-! ### Failing -/

theorem transient_of_gather (hq : q.Reads m) (hk : Keyed m.schema.key (seen ++ rest))
    (hc : ∀ item ∈ rest, item.Bears q.cursorAttributes)
    {roundTrips limit size trips : Nat} (hl : 1 ≤ limit) {start : Option Cursor}
    (hs : s.items = seen ++ rest)
    (hstart : MemoryStore.startPosition (seen ++ rest) start = seen.length) {e : Error}
    (h : Action.gather (q.ask m.store limit) (size ≤ ·) roundTrips trips [] start s =
      (.error e, t)) : e.IsTransient := by
  rcases Action.gather_cases (I := Underway m seen rest) (J := Arrived q m seen rest)
    (fun _ _ _ _ _ => arrived_of_fetch hq hk hl) (fun _ _ _ => Arrived.underway hk)
    (underway_nil hs hstart) h with ⟨n, hn⟩ | ⟨_, start, u, _, hu, hfetch, he⟩ | ⟨_, _, hok, -, -⟩
  · cases hn
    exact trivial
  · cases he
    obtain ⟨hitems, more, after, rfl, -, hplace⟩ := hu
    -- the store fails by itself, since from any such place its items can be read
    refine (MemoryStore.fetch_eq_error_cases hq.table hfetch).resolve_right fun hread => ?_
    rw [← List.append_assoc] at hitems hplace
    obtain ⟨batch, hbatch⟩ := MemoryStore.exists_read (hq.attributes_request limit start)
      (fun item hi => hc item (List.mem_append_right _ hi)) hplace
    rw [hitems, hbatch] at hread
    cases hread
  · cases hok

theorem exists_cut {size : Nat} {items : List Item} {last : Option Cursor}
    (hc : ∀ item ∈ items, item.Bears q.cursorAttributes) :
    ∃ page, q.cut size items last = .ok page := by
  unfold cut
  split
  · exact ⟨_, rfl⟩
  · simp only
    split
    · exact ⟨_, rfl⟩
    · next item hitem =>
      obtain ⟨c, h⟩ := Cursor.exists_ofItem
        (hc item (List.mem_of_mem_take (List.mem_of_getLast? hitem)))
      exact ⟨_, Except.map_eq_ok_iff.2 ⟨c, h, rfl⟩⟩

theorem transient_of_fetch (hq : q.Reads m) (hk : Keyed m.schema.key (seen ++ rest))
    (hc : ∀ item ∈ rest, item.Bears q.cursorAttributes) {settings : PagingSettings}
    (hpos : 1 ≤ q.size settings) (hs : s.items = seen ++ rest)
    (hstart : MemoryStore.startPosition (seen ++ rest) q.firstStart = seen.length) {e : Error}
    (h : q.fetch m.store settings s = (.error e, t)) : e.IsTransient := by
  unfold fetch at h
  simp only [if_neg (show ¬q.size settings = 0 by omega)] at h
  rcases Action.bind_eq_error_iff.1 h with h | ⟨⟨items, last⟩, s', hgather, hcut⟩
  · exact transient_of_gather hq hk hc (settings.limit_pos _) hs hstart h
  · obtain ⟨⟨evaluated, after, rfl, rfl, -⟩, -⟩ :=
      advances_of_gather hq hk (settings.limit_pos _) hs hstart hgather
    obtain ⟨page, hpage⟩ : ∃ page,
        q.cut (q.size settings) (evaluated.filter m.isMatch) last = .ok page :=
      exists_cut fun item hi => hc item (List.mem_append_left _ (List.mem_of_mem_filter hi))
    obtain ⟨⟨fault, hfault, -⟩, -⟩ := Action.ofInput_eq_error_iff.1 hcut
    rw [hpage] at hfault
    cases hfault

end PageQuery

end Tablescope
