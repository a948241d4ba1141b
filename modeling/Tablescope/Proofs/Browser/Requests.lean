import Tablescope.Proofs.Browser.Browse
import Tablescope.Proofs.Filter.KeyCondition
import Tablescope.Proofs.Paging.Outcome
import Tablescope.Proofs.Store.Logged

/-!
# What a store is asked to read

Whatever a store answers, the browser asks it for legal readings only: a scan has no key condition,
a query has one on the hash attribute of what is read and at most one more, on the range attribute,
and all other criteria are filters. A request that cannot be turned into such readings is refused
before anything is read: because there is no such index, or else because the criteria do not
compile, or else because none of them asks the hash attribute of a query for one value.
-/

namespace Tablescope

/-! ### Refused requests -/

/-- Whether some criterion asks the hash attribute of a key for one value. -/
def AsksHash (criteria : List Criterion) (key : KeySchema) : Prop :=
  ∃ c ∈ criteria, c.name = key.hash.name ∧ c.operator = .equal

instance (criteria : List Criterion) (key : KeySchema) : Decidable (AsksHash criteria key) :=
  inferInstanceAs (Decidable (∃ c ∈ criteria, c.name = key.hash.name ∧ c.operator = .equal))

theorem requireHashCondition_eq_ok_iff {criteria : List Criterion} {key : KeySchema} :
    requireHashCondition criteria key = .ok () ↔ AsksHash criteria key := by
  unfold requireHashCondition AsksHash
  split
  · next h => simpa using h
  · next h => simpa using h

theorem requireHashCondition_of_not {criteria : List Criterion} {key : KeySchema}
    (h : ¬AsksHash criteria key) :
    requireHashCondition criteria key = .error (.missingKeyCondition key.hash.name) := by
  rw [← requireHashCondition_eq_ok_iff] at h
  unfold requireHashCondition at h ⊢
  split
  · next hany => exact absurd (if_pos hany) h
  · rfl

namespace BrowseRequest

variable {r : BrowseRequest} {schema : TableSchema} {q : PageQuery} {key : KeySchema}
variable {active : Option KeySchema} {e : ExpressionSet}

/-- The key that the criteria of a request are compiled for if this is the key of what is read. -/
def keyFor (r : BrowseRequest) (key : KeySchema) : Option KeySchema :=
  match r.mode with
  | .scan => none
  | .query => some key

/-- The errors with which a request on a table is refused. Each ground counts only where those
before it do not. -/
inductive Refused (r : BrowseRequest) (schema : TableSchema) : Error → Prop where
  /-- There is no such index. -/
  | index {name : String} (hs : r.selection = .index name)
      (h : ∀ index ∈ schema.indexes, index.name ≠ name) :
      Refused r schema (.schema (.unknownIndex schema.name name))
  /-- The criteria do not compile. -/
  | criteria {key : KeySchema} {fault : InputError} (hk : schema.keyOf r.selection = .ok key)
      (h : compile r.criteria (r.keyFor key) = .error fault) : Refused r schema (.input fault)
  /-- No criterion of a query asks the hash attribute for one value. -/
  | condition {key : KeySchema} {e : ExpressionSet} (hk : schema.keyOf r.selection = .ok key)
      (hm : r.mode = .query) (hc : compile r.criteria (some key) = .ok e)
      (h : ¬AsksHash r.criteria key) :
      Refused r schema (.input (.missingKeyCondition key.hash.name))

theorem expressions_eq_ok_iff :
    r.expressions active = .ok e ↔
      compile r.criteria active = .ok e ∧ ∀ key ∈ active, AsksHash r.criteria key := by
  rw [expressions, Except.bind_eq_ok_iff]
  constructor
  · rintro ⟨e', hcompile, h⟩
    obtain ⟨_, hforM, h⟩ := Except.bind_eq_ok_iff.1 h
    cases h
    refine ⟨Except.mapError_eq_ok_iff.1 hcompile, ?_⟩
    rintro key ⟨⟩
    exact requireHashCondition_eq_ok_iff.1 (Except.mapError_eq_ok_iff.1 hforM)
  · rintro ⟨hcompile, hasks⟩
    refine ⟨e, Except.mapError_eq_ok_iff.2 hcompile, Except.bind_eq_ok_iff.2 ⟨(), ?_, rfl⟩⟩
    rcases active with _ | key
    · rfl
    · exact Except.mapError_eq_ok_iff.2 (requireHashCondition_eq_ok_iff.2 (hasks key rfl))

theorem expressions_of_compile_error {fault : InputError}
    (h : compile r.criteria active = .error fault) :
    r.expressions active = .error (.input fault) := by
  rw [expressions, h]
  rfl

theorem expressions_of_not_asksHash (hc : compile r.criteria (some key) = .ok e)
    (h : ¬AsksHash r.criteria key) :
    r.expressions (some key) = .error (.input (.missingKeyCondition key.hash.name)) := by
  rw [expressions, hc, Except.mapError_ok]
  change (requireHashCondition r.criteria key).mapError Error.input >>= _ = _
  rw [requireHashCondition_of_not h]
  rfl

theorem refused_of_expressions_error (hk : schema.keyOf r.selection = .ok key) {fault : Error}
    (h : r.expressions (r.keyFor key) = .error fault) : r.Refused schema fault := by
  rcases hc : compile r.criteria (r.keyFor key) with f | e
  · rw [expressions_of_compile_error hc] at h
    cases h
    exact .criteria hk hc
  · -- nothing but the hash condition is left to be missing, and only a query needs one
    have hnot : ¬∀ k ∈ r.keyFor key, AsksHash r.criteria k := by
      intro hasks
      rw [expressions_eq_ok_iff.2 ⟨hc, hasks⟩] at h
      cases h
    rcases hm : r.mode
    · rw [keyFor, hm] at hnot
      simp at hnot
    · rw [keyFor, hm] at hnot hc h
      have hnot : ¬AsksHash r.criteria key := by simpa using hnot
      simp only at h
      rw [expressions_of_not_asksHash hc hnot] at h
      cases h
      exact .condition hk hm hc hnot

theorem query_of_keyOf (hk : schema.keyOf r.selection = .ok key) :
    r.query schema = do
      let expressions ← r.expressions (r.keyFor key)
      return {
        table := r.table
        index := r.selection.index?
        mode := r.mode
        expressions
        cursorAttributes := TableSchema.extend schema.key.attributes key.attributes
        start := r.start
        pageSize := r.pageSize } := by
  have hactive : r.active schema = .ok (r.keyFor key) := by
    unfold active keyFor
    cases r.mode
    · rfl
    · rw [hk]
      rfl
  rw [query_eq, TableSchema.cursorAttributes_eq_ok_iff.2 ⟨key, hk, rfl⟩, hactive]
  rfl

/-- A request makes no query exactly if it is refused. -/
theorem query_eq_error_iff {fault : Error} :
    r.query schema = .error fault ↔ r.Refused schema fault := by
  constructor
  · intro h
    rcases hk : schema.keyOf r.selection with e | key
    · obtain ⟨name, hs, hnone, rfl⟩ := TableSchema.keyOf_eq_error_iff.1 hk
      rw [query_eq, TableSchema.cursorAttributes, hk] at h
      cases h
      exact .index hs hnone
    · rw [query_of_keyOf hk, Except.bind_eq_error_iff] at h
      obtain h | ⟨e, -, h⟩ := h
      · exact refused_of_expressions_error hk h
      · cases h
  · intro h
    cases h with
    | index hs h =>
      rw [query_eq, TableSchema.cursorAttributes,
        TableSchema.keyOf_eq_error_iff.2 ⟨_, hs, h, rfl⟩]
      rfl
    | criteria hk h =>
      rw [query_of_keyOf hk, expressions_of_compile_error h]
      rfl
    | condition hk hm hc h =>
      rw [query_of_keyOf hk, keyFor, hm]
      simp only
      rw [expressions_of_not_asksHash hc h]
      rfl

/-- The expressions of a query are the compiled criteria, and if it reads by a key, one of them asks
the hash attribute for one value. -/
theorem compile_of_query (h : r.query schema = .ok q) :
    ∃ key, schema.keyOf r.selection = .ok key ∧
      compile r.criteria (r.keyFor key) = .ok q.expressions ∧
      ∀ k ∈ r.keyFor key, AsksHash r.criteria k := by
  obtain ⟨key, hk, -⟩ := TableSchema.cursorAttributes_eq_ok_iff.1 (query_eq_ok_cases h).1
  rw [query_of_keyOf hk] at h
  obtain ⟨e, he, h⟩ := Except.bind_eq_ok_iff.1 h
  cases h
  exact ⟨key, hk, expressions_eq_ok_iff.1 he⟩

theorem mode_of_query (h : r.query schema = .ok q) : q.mode = r.mode := by
  obtain ⟨key, hk, -⟩ := compile_of_query h
  rw [query_of_keyOf hk] at h
  obtain ⟨e, -, h⟩ := Except.bind_eq_ok_iff.1 h
  cases h
  rfl

end BrowseRequest

/-! ### Legal readings -/

/-- Whether a request may lead to a reading of a table with this schema. -/
structure FetchRequest.IsLegal (request : FetchRequest) (r : BrowseRequest)
    (schema : TableSchema) : Prop where
  table : request.table = r.table
  index : request.index = r.selection.index?
  mode : request.mode = r.mode
  /-- Each clause says what its criterion says. -/
  speaks : request.expressions.Speaks r.criteria
  /-- Each criterion has one clause, as a key condition or as a filter. -/
  clauses : (request.expressions.keyConditions ++ request.expressions.filters).Perm
    (Criterion.clauses r.criteria)
  scan : r.mode = .scan → request.expressions.keyConditions = [] ∧
    request.expressions.filters = Criterion.clauses r.criteria
  query : r.mode = .query → ∃ key, schema.keyOf r.selection = .ok key ∧
    request.expressions.SelectsBy key

theorem BrowseRequest.isLegal_request {r : BrowseRequest} {schema : TableSchema} {q : PageQuery}
    (h : r.query schema = .ok q) (limit : Nat) (start : Option Cursor) :
    (q.request limit start).IsLegal r schema := by
  obtain ⟨key, hk, hcompile, hasks⟩ := compile_of_query h
  obtain ⟨-, htable, hindex, -, -⟩ := query_eq_ok_cases h
  refine ⟨htable, hindex, mode_of_query h, ExpressionSet.speaks_of_compile hcompile,
    ExpressionSet.perm_clauses_of_compile hcompile, fun hscan => ?_, fun hquery => ?_⟩
  · rw [keyFor, hscan] at hcompile
    exact ⟨ExpressionSet.keyConditions_of_compile_none hcompile,
      ExpressionSet.filters_of_compile_none hcompile⟩
  · rw [keyFor, hquery] at hcompile hasks
    obtain ⟨c, hc, hname, hequal⟩ := hasks key rfl
    exact ⟨key, hk, ExpressionSet.selectsBy_of_compile hcompile hc hname hequal⟩

/-! ### Calls of a page -/

/-- Whether a call is a reading of a query, from wherever and however long. -/
def PageQuery.Asks (q : PageQuery) (call : StoreCall) : Prop :=
  ∃ limit start, call = .fetch (q.request limit start)

namespace PageQuery

section

variable {σ κ : Type} {P : κ → Prop} {store : Store (σ × List κ)} {q : PageQuery}

theorem makes_fetch (h : ∀ limit start s, (store.fetch (q.request limit start)).Makes P s)
    (settings : PagingSettings) (s : σ × List κ) : (q.fetch store settings).Makes P s := by
  unfold fetch
  simp only
  split
  · exact Action.makes_pure _
  · exact Action.makes_bind (Action.makes_gather (h _) _ _ _ _ _) fun _ _ _ => Action.makes_ofInput _

end

variable {σ : Type} {store : Store σ} {q : PageQuery}

theorem makes_fetch_logged (q : PageQuery) (store : Store σ) (limit : ℕ) (start : Option Cursor)
    (s : σ × List StoreCall) : (store.logged.fetch (q.request limit start)).Makes q.Asks s :=
  Action.makes_noting _ ⟨limit, start, rfl⟩

/-- As at least one reading is allowed, the first is from the start. -/
theorem exists_mem_log_fetch (store : Store σ) {settings : PagingSettings}
    (hpos : 1 ≤ q.size settings) (s : σ × List StoreCall) :
    ∃ limit, .fetch (q.request limit q.firstStart) ∈ (q.fetch store.logged settings s).2.2 := by
  obtain ⟨trips, htrips⟩ := Nat.exists_eq_add_of_le' settings.one_le_roundTrips
  refine ⟨settings.limit (q.size settings), ?_⟩
  rw [fetch_eq hpos, htrips]
  refine Action.mem_log_bind (P := q.Asks) ?_ fun _ _ => Action.makes_ofInput _
  exact Action.mem_log_gather (makes_fetch_logged q store _)
    (List.mem_append_right _ (List.mem_singleton_self _))

end PageQuery

namespace Browser

variable {σ : Type} {store : Store σ} {settings : PagingSettings} {r : BrowseRequest}

/-- A page logs what is logged for the schema and for the readings of the query that the schema
makes of the request. -/
theorem makes_browse_of {κ : Type} {P : κ → Prop} {store : Store (σ × List κ)} {s : σ × List κ}
    (hdescribe : (store.describe r.table).Makes P s)
    (hfetch : ∀ schema t q, store.describe r.table s = (.ok schema, t) → r.query schema = .ok q →
      ∀ limit start u, (store.fetch (q.request limit start)).Makes P u)
    (settings : PagingSettings) : ((⟨store, settings⟩ : Browser _).browse r).Makes P s := by
  refine Action.makes_bind hdescribe fun schema t hschema => ?_
  refine Action.makes_bind (Action.makes_ofExcept _) fun q u hq => ?_
  refine Action.makes_bind ?_ fun _ _ _ =>
    Action.makes_bind (Action.makes_ofInput _) fun _ _ _ => Action.makes_pure _
  exact PageQuery.makes_fetch (hfetch schema t q hschema (Action.ofExcept_eq_ok_iff.1 hq).1) _ _

/-- The calls of a page are one for the schema, and readings of the query that the schema makes of
the request. -/
theorem makes_browse (store : Store σ) (settings : PagingSettings) (r : BrowseRequest)
    (s : σ × List StoreCall) :
    ((⟨store.logged, settings⟩ : Browser _).browse r).Makes
      (fun call => call = .describe r.table ∨ ∃ schema t q,
        store.describe r.table s.1 = (.ok schema, t) ∧ r.query schema = .ok q ∧ q.Asks call) s := by
  refine makes_browse_of (Action.makes_noting _ (.inl rfl)) (fun schema t q hschema hq => ?_) _
  intro limit start u
  exact (PageQuery.makes_fetch_logged q store limit start u).imp fun call hcall =>
    .inr ⟨schema, t.1, q, (Action.noting_eq_iff.1 hschema).1, hq, hcall⟩

theorem describe_logged {schema : TableSchema} {s t : σ}
    (hschema : store.describe r.table s = (.ok schema, t)) (log : List StoreCall) :
    store.logged.describe r.table (s, log) = (.ok schema, t, log ++ [.describe r.table]) :=
  Action.noting_eq_iff.2 ⟨hschema, rfl⟩

/-- Where the request makes no query, the schema is all that is asked for. -/
theorem browse_of_query_error {schema : TableSchema} {fault : Error} {s t : σ}
    (hschema : store.describe r.table s = (.ok schema, t)) (hq : r.query schema = .error fault)
    (log : List StoreCall) :
    (⟨store.logged, settings⟩ : Browser _).browse r (s, log) =
      (.error fault, t, log ++ [.describe r.table]) := by
  unfold browse
  rw [Action.bind_of_ok (describe_logged hschema log), hq]
  rfl

/-- Where it makes one, a page of at least one item is read. -/
theorem exists_mem_log_browse {schema : TableSchema} {q : PageQuery} {s t : σ}
    (hschema : store.describe r.table s = (.ok schema, t)) (hq : r.query schema = .ok q)
    (hpos : 1 ≤ q.size settings) (log : List StoreCall) :
    ∃ request, .fetch request ∈
      ((⟨store.logged, settings⟩ : Browser _).browse r (s, log)).2.2 := by
  obtain ⟨limit, hmem⟩ := PageQuery.exists_mem_log_fetch store hpos (t, log ++ [.describe r.table])
  have hquery : Action.ofExcept (r.query schema) (t, log ++ [.describe r.table]) =
      (.ok q, t, log ++ [.describe r.table]) :=
    Action.ofExcept_eq_ok_iff.2 ⟨hq, rfl⟩
  refine ⟨q.request limit q.firstStart, ?_⟩
  unfold browse
  rw [Action.bind_of_ok (describe_logged hschema log), Action.bind_of_ok hquery]
  refine Action.mem_log_bind (P := q.Asks) hmem fun page u => ?_
  exact Action.makes_bind (Action.makes_ofInput _) fun _ _ _ => Action.makes_pure _

/-- Every reading that a store is asked for is legal for the schema that the store gives. A request
that is refused for this schema fails with the ground of the refusal and asks for no reading; a page
of at least one item that is not refused asks for one. -/
theorem reads_legally (store : Store σ) (settings : PagingSettings) (r : BrowseRequest) (s : σ) :
    let outcome := (⟨store.logged, settings⟩ : Browser _).browse r (s, [])
    let requests := StoreCall.fetches outcome.2.2
    (∀ request ∈ requests,
        ∃ schema t, store.describe r.table s = (.ok schema, t) ∧ request.IsLegal r schema) ∧
      ∀ schema t, store.describe r.table s = (.ok schema, t) →
        (∀ fault, r.Refused schema fault → outcome.1 = .error fault ∧ requests = []) ∧
          ((∀ fault, ¬r.Refused schema fault) → 1 ≤ r.pageSize.getD settings.defaultPageSize →
            requests ≠ []) := by
  intro outcome requests
  refine ⟨fun request hrequest => ?_, fun schema t hschema => ⟨fun fault hrefused => ?_, ?_⟩⟩
  · obtain ⟨calls, hlog, hcalls⟩ := makes_browse store settings r (s, [])
    rw [StoreCall.mem_fetches, show outcome.2.2 = calls from hlog] at hrequest
    rcases hcalls _ hrequest with h | ⟨schema, t, q, hschema, hq, limit, start, h⟩
    · cases h
    · cases h
      exact ⟨schema, t, hschema, BrowseRequest.isLegal_request hq limit start⟩
  · have h : outcome = (.error fault, t, [.describe r.table]) :=
      browse_of_query_error hschema (BrowseRequest.query_eq_error_iff.2 hrefused) []
    refine ⟨congrArg Prod.fst h, ?_⟩
    rw [show requests = StoreCall.fetches outcome.2.2 from rfl, h]
    rfl
  · intro hnot hpos
    rcases hq : r.query schema with fault | q
    · exact absurd (BrowseRequest.query_eq_error_iff.1 hq) (hnot fault)
    · have hsize : q.pageSize = r.pageSize := (BrowseRequest.query_eq_ok_cases hq).2.2.2.2
      rw [← hsize] at hpos
      obtain ⟨request, hmem⟩ := exists_mem_log_browse hschema hq hpos []
      exact List.ne_nil_of_mem (StoreCall.mem_fetches.2 hmem)

/-- The notes of a user under numbers from one to five that are not done. -/
def openNotes : BrowseRequest where
  table := "notes"
  selection := .table
  criteria := [⟨"done", .absent, "", .text⟩, ⟨"no", .between, "1, 5", .number⟩,
    ⟨"user", .equal, "c", .text⟩]
  mode := .query
  start := none
  pageSize := none

/-- The same of all users, which is no query. -/
def openNotesOfAll : BrowseRequest := { openNotes with criteria := openNotes.criteria.take 2 }

theorem reads_legally_of_notes :
    let b : Browser _ := ⟨MemoryStore.notes.store.logged, {}⟩
    let asked := b.browse openNotes (⟨MemoryStore.someNotes, 0⟩, [])
    let refused := b.browse openNotesOfAll (⟨MemoryStore.someNotes, 0⟩, [])
    (StoreCall.fetches asked.2.2).length = 1 ∧
      (∀ request ∈ StoreCall.fetches asked.2.2,
        request.IsLegal openNotes MemoryStore.notes.schema) ∧
      refused.1 = .error (.input (.missingKeyCondition "user")) ∧
      StoreCall.fetches refused.2.2 = [] := by
  obtain ⟨hlegal, -⟩ :=
    reads_legally MemoryStore.notes.store {} openNotes ⟨MemoryStore.someNotes, 0⟩
  obtain ⟨-, hrefuses⟩ :=
    reads_legally MemoryStore.notes.store {} openNotesOfAll ⟨MemoryStore.someNotes, 0⟩
  refine ⟨by decide +kernel, fun request h => ?_, ?_⟩
  · obtain ⟨schema, t, hschema, hlegal⟩ := hlegal request h
    obtain ⟨-, rfl, -⟩ := MemoryStore.describe_eq_ok_iff.1 hschema
    exact hlegal
  · have hkey : MemoryStore.notes.schema.keyOf openNotesOfAll.selection =
        .ok MemoryStore.notes.schema.key := rfl
    have hcompile : compile openNotesOfAll.criteria (some MemoryStore.notes.schema.key) =
        .ok ⟨[⟨0, "done", .absent, .none, false⟩,
          ⟨1, "no", .between, .pair (.number "1") (.number "5"), true⟩]⟩ := by
      decide +kernel
    exact (hrefuses _ _ rfl).1 _ (.condition hkey rfl hcompile (by decide))

end Browser

end Tablescope
