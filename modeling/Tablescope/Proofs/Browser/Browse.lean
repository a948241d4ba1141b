import Tablescope.Browser
import Tablescope.Proofs.Paging.Page

/-!
# Browsing a store in memory

A page of the browser is a logical page with tokens: the items are the same, each with the token of
its key. Over a store in memory it advances as the logical page does, and where every item bears
what a continuation needs it fails only as readings fail.
-/

namespace Tablescope

namespace BrowseRequest

variable {r : BrowseRequest} {schema : TableSchema} {q : PageQuery}

/-! ### Requests -/

/-- The same request for a page that starts elsewhere and has another size. -/
def continueAt (r : BrowseRequest) (start : Option Cursor) (pageSize : Option Nat) :
    BrowseRequest :=
  { r with start, pageSize }

/-- The key that the criteria of a request are about, if it is a query. -/
def active (r : BrowseRequest) (schema : TableSchema) : Except Error (Option KeySchema) :=
  match r.mode with
  | .scan => pure none
  | .query => some <$> (schema.keyOf r.selection).mapError .schema

/-- What the criteria of a request compile to. -/
def expressions (r : BrowseRequest) (active : Option KeySchema) : Except Error ExpressionSet := do
  let expressions ← (compile r.criteria active).mapError .input
  active.forM fun key => (requireHashCondition r.criteria key).mapError .input
  return expressions

theorem query_eq :
    r.query schema = do
      let cursorAttributes ← (schema.cursorAttributes r.selection).mapError .schema
      let active ← r.active schema
      let expressions ← r.expressions active
      return {
        table := r.table
        index := r.selection.index?
        mode := r.mode
        expressions
        cursorAttributes
        start := r.start
        pageSize := r.pageSize } := by
  unfold query active expressions
  congr 1
  funext attributes
  cases r.mode <;> simp only [bind_assoc, pure_bind]

/-- A query keeps what the request says and adds what the schema says. -/
theorem query_eq_ok_cases (h : r.query schema = .ok q) :
    schema.cursorAttributes r.selection = .ok q.cursorAttributes ∧ q.table = r.table ∧
      q.index = r.selection.index? ∧ q.start = r.start ∧ q.pageSize = r.pageSize := by
  rw [query_eq] at h
  obtain ⟨attributes, ha, h⟩ := Except.bind_eq_ok_iff.1 h
  obtain ⟨active, -, h⟩ := Except.bind_eq_ok_iff.1 h
  obtain ⟨expressions, -, h⟩ := Except.bind_eq_ok_iff.1 h
  cases h
  exact ⟨Except.mapError_eq_ok_iff.1 ha, rfl, rfl, rfl, rfl⟩

/-- Whether a request can be answered does not depend on where its page starts or on its size. -/
theorem query_continueAt (h : r.query schema = .ok q) (start : Option Cursor)
    (pageSize : Option Nat) :
    (r.continueAt start pageSize).query schema = .ok { q with start, pageSize } := by
  rw [query_eq] at h ⊢
  obtain ⟨attributes, ha, h⟩ := Except.bind_eq_ok_iff.1 h
  obtain ⟨active, hactive, h⟩ := Except.bind_eq_ok_iff.1 h
  obtain ⟨expressions, hexpressions, h⟩ := Except.bind_eq_ok_iff.1 h
  cases h
  refine Except.bind_eq_ok_iff.2 ⟨attributes, ha, ?_⟩
  refine Except.bind_eq_ok_iff.2 ⟨active, hactive, ?_⟩
  exact Except.bind_eq_ok_iff.2 ⟨expressions, hexpressions, rfl⟩

end BrowseRequest

/-! ### Tokens -/

namespace BrowsePage

theorem tokenize_eq_ok_iff {schema : KeySchema} {item : Item} {b : BrowseItem} :
    tokenize schema item = .ok b ↔
      b.item = item ∧ ∃ k, PrimaryKey.ofItem schema item = .ok k ∧ k.token = b.token := by
  obtain ⟨token, item'⟩ := b
  rw [tokenize, Except.map_eq_ok_iff]
  constructor
  · rintro ⟨k, hk, h⟩
    cases h
    exact ⟨rfl, k, hk, rfl⟩
  · rintro ⟨rfl, k, hk, rfl⟩
    exact ⟨k, hk, rfl⟩

/-- Giving tokens to items changes neither the items nor their order. -/
theorem items_of_mapM_tokenize {schema : KeySchema} {items : List Item} {bs : List BrowseItem}
    (h : items.mapM (tokenize schema) = .ok bs) : bs.map BrowseItem.item = items := by
  have hall := (Except.mapM_eq_ok_iff.1 h).flip
  rw [← List.forall₂_eq_eq_eq, List.forall₂_map_left_iff]
  exact hall.imp fun b item hb => (tokenize_eq_ok_iff.1 hb).1

/-- The token of an item is the token of its key. -/
theorem token_of_mapM_tokenize {schema : KeySchema} {items : List Item} {bs : List BrowseItem}
    (h : items.mapM (tokenize schema) = .ok bs) {b : BrowseItem} (hb : b ∈ bs) :
    ∃ k, PrimaryKey.ofItem schema b.item = .ok k ∧ k.token = b.token := by
  have hall := Except.mapM_eq_ok_iff.1 h
  clear h
  induction hall with
  | nil => cases hb
  | cons h _ ih =>
    rcases List.mem_cons.1 hb with rfl | hb
    · obtain ⟨rfl, k, hk, ht⟩ := tokenize_eq_ok_iff.1 h
      exact ⟨k, hk, ht⟩
    · exact ih hb

end BrowsePage

namespace Browser

variable {σ γ : Type} {b : Browser σ} {r : BrowseRequest} {s t : σ} {page : BrowsePage}

/-! ### Pages of any store -/

/-- A page is found by asking for the schema, making the query and reading a logical page. -/
theorem browse_eq_ok_cases (h : b.browse r s = (.ok page, t)) :
    ∃ schema u q logical,
      b.store.describe r.table s = (.ok schema, u) ∧ r.query schema = .ok q ∧
        q.fetch b.store b.settings u = (.ok logical, t) ∧
        logical.items.mapM (BrowsePage.tokenize schema.key) = .ok page.items ∧
        logical.next = page.next := by
  obtain ⟨schema, u, hschema, h⟩ := Action.bind_eq_ok_iff.1 h
  obtain ⟨q, u', hq, h⟩ := Action.bind_eq_ok_iff.1 h
  obtain ⟨hquery, rfl⟩ := Action.ofExcept_eq_ok_iff.1 hq
  obtain ⟨logical, u', hlogical, h⟩ := Action.bind_eq_ok_iff.1 h
  obtain ⟨items, u'', hitems, h⟩ := Action.bind_eq_ok_iff.1 h
  obtain ⟨htokens, rfl⟩ := Action.ofInput_eq_ok_iff.1 hitems
  cases h
  exact ⟨schema, u, q, logical, hschema, hquery, hlogical, htokens, rfl⟩

/-- Where the schema is known and the query is made, a page fails as the logical page fails or
because an item has no key. -/
theorem browse_eq_error_cases {e : Error} {schema : TableSchema} {q : PageQuery}
    (hschema : b.store.describe r.table s = (.ok schema, s)) (hq : r.query schema = .ok q)
    (h : b.browse r s = (.error e, t)) :
    q.fetch b.store b.settings s = (.error e, t) ∨
      ∃ logical fault, q.fetch b.store b.settings s = (.ok logical, t) ∧
        logical.items.mapM (BrowsePage.tokenize schema.key) = .error fault := by
  rcases Action.bind_eq_error_iff.1 h with h | ⟨schema', u, h', h⟩
  · rw [hschema] at h
    cases h
  · rw [hschema] at h'
    cases h'
    rcases Action.bind_eq_error_iff.1 h with h | ⟨q', u, h', h⟩
    · rw [hq] at h
      cases h
    · obtain ⟨h', rfl⟩ := Action.ofExcept_eq_ok_iff.1 h'
      rw [hq] at h'
      cases h'
      rcases Action.bind_eq_error_iff.1 h with h | ⟨logical, u, hlogical, h⟩
      · exact .inl h
      · rcases Action.bind_eq_error_iff.1 h with h | ⟨items, u', -, h⟩
        · obtain ⟨⟨fault, hfault, -⟩, rfl⟩ := Action.ofInput_eq_error_iff.1 h
          exact .inr ⟨logical, fault, hlogical, hfault⟩
        · cases h

theorem keeps_browse {view : σ → γ} (hd : ∀ table, (b.store.describe table).Keeps view)
    (hf : ∀ request, (b.store.fetch request).Keeps view) : (b.browse r).Keeps view := by
  refine Action.keeps_bind (hd _) fun schema => ?_
  refine Action.keeps_bind (Action.keeps_ofExcept _) fun q => ?_
  refine Action.keeps_bind (PageQuery.keeps_fetch hf _ _) fun logical => ?_
  exact Action.keeps_bind (Action.keeps_ofInput _) fun items => Action.keeps_pure _

end Browser

/-! ### Pages of a store in memory -/

namespace MemoryStore

/-- The browser of a store in memory. -/
def browser (m : MemoryStore) (settings : PagingSettings) : Browser MemoryState :=
  ⟨m.store, settings⟩

variable {m : MemoryStore} {settings : PagingSettings} {r : BrowseRequest}
variable {seen rest : List Item} {s t : MemoryState}

theorem keeps_browse : ((m.browser settings).browse r).Keeps MemoryState.items :=
  Browser.keeps_browse (fun _ => keeps_describe) fun _ => keeps_fetch

theorem items_of_browse {result : Except Error BrowsePage}
    (h : (m.browser settings).browse r s = (result, t)) : t.items = s.items := by
  have hkeeps : ((m.browser settings).browse r).Keeps MemoryState.items := keeps_browse
  rw [← hkeeps s, h]

theorem reads_of_query {q : PageQuery} (ht : r.table = m.schema.name)
    (hq : r.query m.schema = .ok q) : q.Reads m := by
  obtain ⟨ha, htable, hindex, -, -⟩ := BrowseRequest.query_eq_ok_cases hq
  refine ⟨htable.trans ht, ?_⟩
  rw [hindex]
  cases hs : r.selection <;> rw [hs] at ha <;> exact ha

theorem advances_of_browse (hd : m.schema.key.NamesDiffer)
    (hk : Keyed m.schema.key (seen ++ rest)) (hpos : 1 ≤ r.pageSize.getD settings.defaultPageSize)
    (hs : s.items = seen ++ rest)
    (hstart : startPosition (seen ++ rest) (r.start.filter (!·.isEmpty)) = seen.length)
    {page : BrowsePage} (h : (m.browser settings).browse r s = (.ok page, t)) :
    ∃ attributes, m.schema.cursorAttributes r.selection = .ok attributes ∧
      m.Advances attributes seen rest (page.items.map BrowseItem.item) page.next ∧
      page.items.length ≤ r.pageSize.getD settings.defaultPageSize ∧
      (page.next ≠ none → page.items.length = r.pageSize.getD settings.defaultPageSize) := by
  obtain ⟨schema, u, q, logical, hschema, hq, hlogical, hitems, hnext⟩ :=
    Browser.browse_eq_ok_cases h
  obtain ⟨htable, rfl, rfl⟩ := describe_eq_ok_iff.1 hschema
  obtain ⟨ha, -, -, hqstart, hsize⟩ := BrowseRequest.query_eq_ok_cases hq
  rw [← hsize] at hpos ⊢
  rw [← hqstart] at hstart
  have hadv := PageQuery.advances_of_fetch (reads_of_query htable hq) (.of_map _ hd) hk hpos hs
    hstart hlogical
  rw [← BrowsePage.items_of_mapM_tokenize hitems, hnext, List.length_map] at hadv
  exact ⟨_, ha, hadv⟩

/-- The items of a page, wherever it starts, are items of the store in their order. -/
theorem sublist_of_browse (hd : m.schema.key.NamesDiffer) (hk : Keyed m.schema.key s.items)
    {page : BrowsePage} (h : (m.browser settings).browse r s = (.ok page, t)) :
    (page.items.map BrowseItem.item).Sublist s.items := by
  by_cases hpos : 1 ≤ r.pageSize.getD settings.defaultPageSize
  · obtain ⟨seen, rest, hs, hstart⟩ :=
      exists_startPosition s.items (r.start.filter (!·.isEmpty))
    rw [hs] at hk hstart
    obtain ⟨-, -, ⟨more, after, rfl, hmore, -⟩, -⟩ := advances_of_browse hd hk hpos hs hstart h
    rw [hmore, hs, ← List.append_assoc]
    exact List.filter_sublist.trans
      ((List.sublist_append_right seen more).trans (List.sublist_append_left _ after))
  · obtain ⟨schema, u, q, logical, -, hq, hlogical, hitems, -⟩ := Browser.browse_eq_ok_cases h
    have hsize := (BrowseRequest.query_eq_ok_cases hq).2.2.2.2
    have hzero : q.size settings = 0 := by
      rw [PageQuery.size, hsize]
      omega
    have hempty : logical.items = [] := by
      change q.fetch m.store settings u = _ at hlogical
      unfold PageQuery.fetch at hlogical
      simp only [if_pos hzero] at hlogical
      cases hlogical
      rfl
    rw [BrowsePage.items_of_mapM_tokenize hitems, hempty]
    exact List.nil_sublist _

theorem token_of_browse {page : BrowsePage}
    (h : (m.browser settings).browse r s = (.ok page, t)) {b : BrowseItem} (hb : b ∈ page.items) :
    ∃ k, PrimaryKey.ofItem m.schema.key b.item = .ok k ∧ k.token = b.token := by
  obtain ⟨schema, u, q, logical, hschema, -, -, hitems, -⟩ := Browser.browse_eq_ok_cases h
  obtain ⟨-, rfl, -⟩ := describe_eq_ok_iff.1 hschema
  exact BrowsePage.token_of_mapM_tokenize hitems hb

theorem transient_of_browse (ht : r.table = m.schema.name) {q : PageQuery}
    (hq : r.query m.schema = .ok q) (hd : m.schema.key.NamesDiffer)
    (hk : Keyed m.schema.key (seen ++ rest))
    (hc : ∀ item ∈ rest, item.Bears q.cursorAttributes)
    (hpos : 1 ≤ r.pageSize.getD settings.defaultPageSize) (hs : s.items = seen ++ rest)
    (hstart : startPosition (seen ++ rest) (r.start.filter (!·.isEmpty)) = seen.length)
    {e : Error} (h : (m.browser settings).browse r s = (.error e, t)) : e.IsTransient := by
  obtain ⟨-, -, -, hqstart, hsize⟩ := BrowseRequest.query_eq_ok_cases hq
  rw [← hsize] at hpos
  rw [← hqstart] at hstart
  have hreads := reads_of_query ht hq
  have hschema : m.store.describe r.table s = (.ok m.schema, s) :=
    describe_eq_ok_iff.2 ⟨ht, rfl, rfl⟩
  rcases Browser.browse_eq_error_cases hschema hq h with h | ⟨logical, fault, hlogical, hfault⟩
  · exact PageQuery.transient_of_fetch hreads hk hc hpos hs hstart h
  · -- every item of the page is an item of the store, so it has a key
    obtain ⟨⟨more, after, rfl, hmore, -⟩, -⟩ :=
      PageQuery.advances_of_fetch hreads (.of_map _ hd) hk hpos hs hstart hlogical
    obtain ⟨bs, hbs⟩ : ∃ bs, logical.items.mapM (BrowsePage.tokenize m.schema.key) = .ok bs :=
      Except.exists_mapM_eq_ok fun item hi => by
        rw [hmore] at hi
        have hmem := List.mem_append_left after (List.mem_of_mem_filter hi)
        obtain ⟨k, hitem⟩ := hk.typed item (List.mem_append_right seen hmem)
        exact ⟨⟨k.token, item⟩, BrowsePage.tokenize_eq_ok_iff.2 ⟨rfl, k, hitem, rfl⟩⟩
    rw [hbs] at hfault
    cases hfault

end MemoryStore

end Tablescope
