import Tablescope.Proofs.Browser.Browse
import Tablescope.Proofs.Key.Conformance
import Tablescope.Proofs.Paging.Surplus

/-!
# Pages of all items or none

A page of the browser is made of a logical page by giving each item its token. This is done with the
key of the table, whatever was read, and it is done for all items or the page fails: with what is
wrong with the key of the first item that has none. So a page fails on two kinds of items only, those
that it would return and the one behind which it is cut. Items that are cut off may be anything.
-/

namespace Tablescope

/-- Whether this is what is wrong with the first of some items that does not bear the attributes of
a key. -/
def KeySchema.FirstUnkeyed (key : KeySchema) (items : List Item) (fault : InputError) : Prop :=
  ∃ before item after, items = before ++ item :: after ∧
    (∀ x ∈ before, x.Bears key.attributes) ∧ item.FirstFault key.attributes fault

namespace BrowsePage

variable {key : KeySchema} {items : List Item} {logical : Page} {page : BrowsePage}
variable {fault : InputError}

/-- A logical page with the tokens of its items. -/
def ofPage (key : KeySchema) (logical : Page) : Except InputError BrowsePage :=
  (logical.items.mapM (tokenize key)).map fun items =>
    { columns := columnsOf key logical.items, items, next := logical.next }

/-- Whether a page is a logical page with the tokens of its items. -/
structure Annotates (key : KeySchema) (logical : Page) (page : BrowsePage) : Prop where
  items : page.items.map BrowseItem.item = logical.items
  tokens : ∀ b ∈ page.items, ∃ k, PrimaryKey.ofItem key b.item = .ok k ∧ k.token = b.token
  columns : page.columns = columnsOf key logical.items
  next : page.next = logical.next

/-! ### Tokens of all items -/

theorem mapM_tokenize_eq_ok_iff {bs : List BrowseItem} :
    items.mapM (tokenize key) = .ok bs ↔
      bs.map BrowseItem.item = items ∧
        ∀ b ∈ bs, ∃ k, PrimaryKey.ofItem key b.item = .ok k ∧ k.token = b.token := by
  constructor
  · exact fun h => ⟨items_of_mapM_tokenize h, fun b hb => token_of_mapM_tokenize h hb⟩
  · rintro ⟨rfl, htokens⟩
    rw [Except.mapM_eq_ok_iff, List.forall₂_map_left_iff, List.forall₂_same]
    exact fun b hb => tokenize_eq_ok_iff.2 ⟨rfl, htokens b hb⟩

theorem exists_tokenize_iff {item : Item} :
    (∃ b, tokenize key item = .ok b) ↔ item.Bears key.attributes := by
  rw [← PrimaryKey.exists_ofItem_iff]
  constructor
  · rintro ⟨b, hb⟩
    obtain ⟨-, k, hk, -⟩ := tokenize_eq_ok_iff.1 hb
    exact ⟨k, hk⟩
  · rintro ⟨k, hk⟩
    exact ⟨⟨k.token, item⟩, tokenize_eq_ok_iff.2 ⟨rfl, k, hk, rfl⟩⟩

theorem mapM_tokenize_eq_error_iff :
    items.mapM (tokenize key) = .error fault ↔ key.FirstUnkeyed items fault := by
  simp only [Except.mapM_eq_error_iff, exists_tokenize_iff]
  refine exists₃_congr fun before item after => and_congr_right fun _ => and_congr_right fun _ => ?_
  rw [tokenize, Except.map_eq_error_iff, PrimaryKey.ofItem_eq_error_iff]

theorem ofPage_eq_ok_iff : ofPage key logical = .ok page ↔ page.Annotates key logical := by
  obtain ⟨columns, bs, next⟩ := page
  rw [ofPage, Except.map_eq_ok_iff]
  constructor
  · rintro ⟨bs, hbs, h⟩
    cases h
    obtain ⟨hitems, htokens⟩ := mapM_tokenize_eq_ok_iff.1 hbs
    exact ⟨hitems, htokens, rfl, rfl⟩
  · rintro ⟨hitems, htokens, rfl, rfl⟩
    exact ⟨bs, mapM_tokenize_eq_ok_iff.2 ⟨hitems, htokens⟩, rfl⟩

theorem exists_ofPage_iff :
    (∃ page, ofPage key logical = .ok page) ↔
      ∀ item ∈ logical.items, item.Bears key.attributes := by
  simp only [← exists_tokenize_iff, ← Except.exists_mapM_eq_ok_iff, ofPage, Except.map_eq_ok_iff]
  constructor
  · rintro ⟨page, bs, hbs, -⟩
    exact ⟨bs, hbs⟩
  · rintro ⟨bs, hbs⟩
    exact ⟨_, bs, hbs, rfl⟩

theorem ofPage_eq_error_iff :
    ofPage key logical = .error fault ↔ key.FirstUnkeyed logical.items fault := by
  rw [ofPage, Except.map_eq_error_iff, mapM_tokenize_eq_error_iff]

end BrowsePage

namespace Browser

variable {σ : Type} {b : Browser σ} {r : BrowseRequest} {s u : σ} {schema : TableSchema}
variable {q : PageQuery}

/-- A page is a logical page with tokens. -/
theorem browse_eq (hschema : b.store.describe r.table s = (.ok schema, u))
    (hq : r.query schema = .ok q) :
    (b.browse r s).1 = (q.fetch b.store b.settings u).1 >>= fun logical =>
      (BrowsePage.ofPage schema.key logical).mapError .input := by
  have hquery : Action.ofExcept (r.query schema) u = (.ok q, u) :=
    Action.ofExcept_eq_ok_iff.2 ⟨hq, rfl⟩
  unfold browse
  rw [Action.bind_of_ok hschema, Action.bind_of_ok hquery, Action.bind_apply]
  rcases q.fetch b.store b.settings u with ⟨e | logical, t⟩
  · rfl
  · change _ = (BrowsePage.ofPage schema.key logical).mapError Error.input
    simp only [Action.bind_apply, Action.ofInput, Action.ofExcept, BrowsePage.ofPage]
    cases logical.items.mapM (BrowsePage.tokenize schema.key) <;> rfl

/-- A page succeeds exactly if the logical page does and each of its items has a key of the table,
and then it is the logical page with the tokens of these keys. Otherwise it fails as the logical page
does, which may be for the item behind which it is cut, or else for the first item without a key.
What is in the items that are cut off does not matter. -/
theorem browses_all_or_nothing (hschema : b.store.describe r.table s = (.ok schema, u))
    (hq : r.query schema = .ok q) :
    let fetched := (q.fetch b.store b.settings u).1
    let outcome := (b.browse r s).1
    let answers := q.pageAnswers b.store b.settings u
    let size := q.size b.settings
    let allowed := b.settings.roundTrips
    ((∃ page, outcome = .ok page) ↔
        ∃ logical, fetched = .ok logical ∧
          ∀ item ∈ logical.items, item.Bears schema.key.attributes) ∧
      (∀ page, outcome = .ok page ↔
        ∃ logical, fetched = .ok logical ∧ page.Annotates schema.key logical) ∧
      (∀ e, outcome = .error e ↔
        fetched = .error e ∨ ∃ logical fault, fetched = .ok logical ∧
          schema.key.FirstUnkeyed logical.items fault ∧ .input fault = e) ∧
      (∀ fault, q.LosesPlace size allowed answers fault →
        fetched = .error (.input fault) ∧ outcome = .error (.input fault)) ∧
      ∀ (σ' : Type) (store' : Store σ') (s' u' : σ') (n : ℕ),
        store'.describe r.table s' = (.ok schema, u') → answers.Takes (size ≤ ·) allowed n →
          answers.Alike size n (q.pageAnswers store' b.settings u') →
            ((⟨store', b.settings⟩ : Browser σ').browse r s').1 = outcome := by
  intro fetched outcome answers size allowed
  have houtcome : outcome = fetched >>= fun logical =>
      (BrowsePage.ofPage schema.key logical).mapError .input := browse_eq hschema hq
  refine ⟨?_, fun page => ?_, fun e => ?_, fun fault hfault => ?_, ?_⟩
  · simp only [houtcome, Except.bind_eq_ok_iff, Except.mapError_eq_ok_iff,
      ← BrowsePage.exists_ofPage_iff]
    rw [exists_comm]
    simp only [exists_and_left]
  · simp only [houtcome, Except.bind_eq_ok_iff, Except.mapError_eq_ok_iff,
      BrowsePage.ofPage_eq_ok_iff]
  · simp only [houtcome, Except.bind_eq_error_iff, Except.mapError_eq_error_iff,
      BrowsePage.ofPage_eq_error_iff, exists_and_left]
  · have hfetched : fetched = .error (.input fault) := PageQuery.fetch_of_losesPlace hfault
    refine ⟨hfetched, ?_⟩
    rw [houtcome, hfetched]
    rfl
  · intro σ' store' s' u' n hschema' hn halike
    rw [browse_eq (b := ⟨store', b.settings⟩) hschema' hq, houtcome,
      PageQuery.fetch_eq_of_alike hn halike]

/-- The notes by number, so many on a page. -/
def notesByNo (pageSize : Nat) : BrowseRequest where
  table := "notes"
  selection := .index "byNo"
  criteria := []
  mode := .scan
  start := none
  pageSize := some pageSize

/-- A note and another item, which is cut off where only one item is wanted. -/
def besideNote (item : Item) : MemoryState := ⟨[MemoryStore.note "a,b" "1" [], item], 0⟩

/-- What such a page is read from. -/
def queryByNo (pageSize : Nat) : PageQuery where
  table := "notes"
  index := some "byNo"
  mode := .scan
  expressions := ⟨[]⟩
  cursorAttributes := MemoryStore.notes.schema.key.attributes
  start := none
  pageSize := some pageSize

theorem browses_all_or_nothing_of_notesByNo :
    let torn : Item := .ofList [("no", .scalar (.number "2"))]
    let whole := MemoryStore.note "c" "3" []
    let b := MemoryStore.notes.browser {}
    (b.browse (notesByNo 1) (besideNote torn)).1 =
        .ok ⟨["user", "no"], [⟨"a%2Cb,1", MemoryStore.note "a,b" "1" []⟩],
          some ⟨[("user", .text "a,b"), ("no", .number "1")]⟩⟩ ∧
      (b.browse (notesByNo 2) (besideNote torn)).1 = .error (.input (.missingKeyAttribute "user")) ∧
      (b.browse (notesByNo 1) (besideNote whole)).1 =
        (b.browse (notesByNo 1) (besideNote torn)).1 := by
  intro torn whole b
  have hquery : ∀ n, (notesByNo n).query MemoryStore.notes.schema = .ok (queryByNo n) :=
    fun _ => rfl
  obtain ⟨-, hone, -, -, hsurplus⟩ := browses_all_or_nothing (b := b) (r := notesByNo 1)
    (s := besideNote torn) rfl (hquery 1)
  obtain ⟨-, -, htwo, -, -⟩ := browses_all_or_nothing (b := b) (r := notesByNo 2)
    (s := besideNote torn) rfl (hquery 2)
  have hpage : BrowsePage.Annotates MemoryStore.notes.schema.key
      ⟨[MemoryStore.note "a,b" "1" []], some ⟨[("user", .text "a,b"), ("no", .number "1")]⟩⟩
      ⟨["user", "no"], [⟨"a%2Cb,1", MemoryStore.note "a,b" "1" []⟩],
        some ⟨[("user", .text "a,b"), ("no", .number "1")]⟩⟩ := by
    refine ⟨rfl, ?_, by decide +kernel, rfl⟩
    rw [List.forall_mem_singleton]
    exact ⟨⟨("user", .text "a,b"), some ("no", .number "1")⟩, by decide +kernel, by decide +kernel⟩
  have hunkeyed : MemoryStore.notes.schema.key.FirstUnkeyed [MemoryStore.note "a,b" "1" [], torn]
      (.missingKeyAttribute "user") := by
    refine ⟨[MemoryStore.note "a,b" "1" []], torn, [], rfl, ?_, ?_⟩
    · rw [List.forall_mem_singleton]
      exact Item.Carries.bears (by decide +kernel)
    · exact ⟨[], ⟨"user", .text⟩, _, rfl, by simp [Item.Bears], .missing (by decide)⟩
  have hextent : ∀ k < 1, ((queryByNo 1).pageAnswers b.store {} (besideNote torn) k).map
      Portion.extent = ((queryByNo 1).pageAnswers b.store {} (besideNote whole) k).map
        Portion.extent := by
    decide +kernel
  refine ⟨(hone _).2 ⟨_, by decide +kernel, hpage⟩,
    (htwo _).2 (.inr ⟨⟨_, none⟩, _, by decide +kernel, hunkeyed, rfl⟩),
    hsurplus _ b.store (besideNote whole) _ 1 rfl ?_ ⟨hextent, by decide +kernel⟩⟩
  exact ⟨by decide, nofun, fun _ => ⟨0, rfl, by decide +kernel⟩⟩

end Browser

end Tablescope
