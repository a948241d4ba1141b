import Tablescope.Browser
import Tablescope.Proofs.Json.Integer
import Tablescope.Proofs.Json.Words
import Tablescope.Proofs.Paging.Settings

/-!
# Settings, set one by one or read

Settings that are set one by one are raised to what will be used when they are set. Settings that are
read stay as they are written and are raised when they are used. So the two are different values, but
nothing that is done with them tells them apart: pages, listings and all readings for them are the
same.
-/

namespace Tablescope

/-- One of the settings, as it is set. -/
inductive Setting where
  | defaultPageSize (n : Nat)
  | batchSize (b : BatchSize)
  | maxRoundTrips (n : Nat)
  deriving DecidableEq

/-- Whether a value is the last that is set of its kind. -/
def Setting.IsLast {α : Type} (kind : α → Setting) (a : α) (calls : List Setting) : Prop :=
  ∃ before behind, calls = before ++ kind a :: behind ∧ ∀ c ∈ behind, ∀ b, c ≠ kind b

/-- Whether a JSON value stands for a batch size. -/
inductive BatchSize.IsGivenBy : BatchSize → Json → Prop
  | auto : IsGivenBy .auto (.string "auto")
  | autoMember : IsGivenBy .auto (.object [("auto", .null)])
  | explicit (n : Int32) : IsGivenBy (.explicit n) (.object [("explicit", .ofInt n.toInt)])

namespace PagingSettings

variable {d m : Nat} {b : BatchSize} {j doc : Json} {calls : List Setting} {s t : PagingSettings}

/-! ### Setting one by one -/

/-- The settings with one of them set. -/
def withSetting (s : PagingSettings) : Setting → PagingSettings
  | .defaultPageSize n => s.withDefaultPageSize n
  | .batchSize b => s.withBatchSize b
  | .maxRoundTrips n => s.withMaxRoundTrips n

/-- The settings that are set one after another, from the defaults on. -/
def ofCalls (calls : List Setting) : PagingSettings := calls.foldl withSetting {}

/-- What is changed by one kind of setting only is as the last of them leaves it. -/
theorem view_ofCalls {α β : Type} {kind : α → Setting} (view : PagingSettings → β) (value : α → β)
    (hset : ∀ (s : PagingSettings) (a : α), view (s.withSetting (kind a)) = value a)
    (hkeep : ∀ (s : PagingSettings) (c : Setting), (∀ a, c ≠ kind a) →
      view (s.withSetting c) = view s)
    {a : α} (h : Setting.IsLast kind a calls) : view (ofCalls calls) = value a := by
  obtain ⟨before, behind, rfl, hbehind⟩ := h
  have hrest : ∀ s, view (behind.foldl withSetting s) = view s := by
    induction behind with
    | nil => exact fun _ => rfl
    | cons c behind ih =>
      obtain ⟨hc, hbehind⟩ := List.forall_mem_cons.1 hbehind
      exact fun s => (ih hbehind (s.withSetting c)).trans (hkeep s c hc)
  rw [ofCalls, List.foldl_append, List.foldl_cons, hrest, hset]

theorem defaultPageSize_ofCalls (h : Setting.IsLast .defaultPageSize d calls) :
    (ofCalls calls).defaultPageSize = d := by
  refine view_ofCalls defaultPageSize id (fun _ _ => rfl) (fun s c hc => ?_) h
  cases c with
  | defaultPageSize n => exact absurd rfl (hc n)
  | batchSize => rfl
  | maxRoundTrips => rfl

theorem batchSize_ofCalls (h : Setting.IsLast .batchSize b calls) :
    (ofCalls calls).batchSize = b.atLeastOne := by
  refine view_ofCalls batchSize BatchSize.atLeastOne (fun _ _ => rfl) (fun s c hc => ?_) h
  cases c with
  | defaultPageSize => rfl
  | batchSize b => exact absurd rfl (hc b)
  | maxRoundTrips => rfl

theorem maxRoundTrips_ofCalls (h : Setting.IsLast .maxRoundTrips m calls) :
    (ofCalls calls).maxRoundTrips = max m 1 := by
  refine view_ofCalls maxRoundTrips (max · 1) (fun _ _ => rfl) (fun s c hc => ?_) h
  cases c with
  | defaultPageSize => rfl
  | batchSize => rfl
  | maxRoundTrips n => exact absurd rfl (hc n)

/-! ### Reading -/

/-- Whether a JSON value is a record of these three settings: an object that has each of them once,
in any order and with anything else beside them, or an array of the three. -/
inductive AreGivenBy (d : Nat) (b : BatchSize) (m : Nat) : Json → Prop
  | object {members : List (String × Json)} {j : Json} (hj : b.IsGivenBy j)
    (hd : members.filter (·.1 = "default_page_size") = [("default_page_size", .ofNat d)])
    (hb : members.filter (·.1 = "physical_batch_size") = [("physical_batch_size", j)])
    (hm : members.filter (·.1 = "max_round_trips") = [("max_round_trips", .ofNat m)]) :
    AreGivenBy d b m (.object members)
  | array {j : Json} (hj : b.IsGivenBy j) : AreGivenBy d b m (.array [.ofNat d, j, .ofNat m])

theorem count?_ofNat {n : Nat} (h : n < UInt64.size) : count? (.ofNat n) = some n := by
  rw [count?, Json.nat?_ofNat, Option.filter_some, if_pos (decide_eq_true h)]

theorem batchSize?_eq (h : b.IsGivenBy j) : batchSize? j = some b := by
  cases h with
  | auto => rfl
  | autoMember => rfl
  | explicit n =>
    have hrange : Int32.minValue.toInt ≤ n.toInt ∧ n.toInt ≤ Int32.maxValue.toInt :=
      ⟨n.le_toInt, n.toInt_le⟩
    simp only [batchSize?, Json.int?_ofInt]
    rw [if_pos hrange, Int32.ofInt_toInt]

theorem field?_eq {members : List (String × Json)} {name : String} {value : Json}
    (h : members.filter (·.1 = name) = [(name, value)]) :
    Json.field? members name = some (some value) := by
  rw [Json.field?, h]

/-- What is read stays as it is written. -/
theorem ofJson?_eq (hd : d < UInt64.size) (hm : m < UInt64.size) (h : AreGivenBy d b m doc) :
    ofJson? doc = some ⟨d, b, m⟩ := by
  have hrecord : ∃ j, b.IsGivenBy j ∧
      doc.record? ["default_page_size", "physical_batch_size", "max_round_trips"] =
        some [some (.ofNat d), some j, some (.ofNat m)] := by
    cases h with
    | @object members j hj hd hb hm =>
      refine ⟨j, hj, ?_⟩
      rw [Json.record?]
      simp only [List.mapM_cons, List.mapM_nil, field?_eq hd, field?_eq hb, field?_eq hm]
      rfl
    | @array j hj => exact ⟨j, hj, rfl⟩
  obtain ⟨j, hj, hrecord⟩ := hrecord
  simp only [ofJson?, hrecord, Option.bind_eq_bind, Option.bind_some, Json.optional?,
    count?_ofNat hd, count?_ofNat hm, batchSize?_eq hj]

theorem parse?_eq {text : String} (hd : d < UInt64.size) (hm : m < UInt64.size) (h : AreGivenBy d b m doc)
    (htext : doc.IsWritten text) : parse? text = some ⟨d, b, m⟩ := by
  rw [parse?, Json.parse?_of_isWritten htext, Option.bind_some, ofJson?_eq hd hm h]

/-! ### What settings are used for -/

/-- Whether two settings come to the same: in the size of a page that is asked for without one, in
the ceiling in force and in all limits. -/
structure Alike (s t : PagingSettings) : Prop where
  defaultPageSize : s.defaultPageSize = t.defaultPageSize
  roundTrips : s.roundTrips = t.roundTrips
  limit : ∀ pageSize, s.limit pageSize = t.limit pageSize

theorem Alike.size_eq (h : Alike s t) (q : PageQuery) : q.size s = q.size t := by
  rw [PageQuery.size, PageQuery.size, h.defaultPageSize]

variable {σ : Type}

/-- A page is read with the size, the ceiling and the limit of the settings and nothing else. -/
theorem Alike.fetch_eq (h : Alike s t) (q : PageQuery) (store : Store σ) :
    q.fetch store s = q.fetch store t := by
  rw [PageQuery.fetch, PageQuery.fetch, h.size_eq, h.roundTrips, h.limit]

theorem Alike.browse_eq (h : Alike s t) (store : Store σ) (r : BrowseRequest) :
    (Browser.mk store s).browse r = (Browser.mk store t).browse r := by
  simp only [Browser.browse, h.fetch_eq]

theorem Alike.listTables_eq (h : Alike s t) (store : Store σ) :
    (Browser.mk store s).listTables = (Browser.mk store t).listTables := by
  simp only [Browser.listTables, h.roundTrips]

/-- Raising what is read when it is used comes to the same as raising it when it is set. -/
theorem alike_ofCalls (hd : Setting.IsLast .defaultPageSize d calls)
    (hb : Setting.IsLast .batchSize b calls) (hm : Setting.IsLast .maxRoundTrips m calls) :
    Alike (ofCalls calls) ⟨d, b, m⟩ where
  defaultPageSize := defaultPageSize_ofCalls hd
  roundTrips := by
    rw [roundTrips, roundTrips, maxRoundTrips_ofCalls hm]
    exact Nat.max_eq_left (Nat.le_max_right m 1)
  limit pageSize := by rw [limit, limit, batchSize_ofCalls hb, BatchSize.limit_atLeastOne]

/-- A default size, a batch size and a ceiling page alike whether they are set, as the last of their
kinds among any settings and in any order, or read from the text of any record of the three. Pages
have the same size; at least one reading is allowed; a reading has the same limit, which is at least
one and fits into 32 bits, and which follows the size of the page from a hundred up to a thousand if
it is to. So pages and listings are the same on every store, with one that keeps a list of what it is
asked among them. -/
theorem page_alike_however_given {text : String} (hd : d < UInt64.size) (hm : m < UInt64.size)
    (hdlast : Setting.IsLast .defaultPageSize d calls) (hblast : Setting.IsLast .batchSize b calls)
    (hmlast : Setting.IsLast .maxRoundTrips m calls) (hdoc : AreGivenBy d b m doc)
    (htext : doc.IsWritten text) :
    ∃ s, parse? text = some s ∧
      (∀ q : PageQuery, q.size (ofCalls calls) = q.pageSize.getD d ∧
        q.size s = q.pageSize.getD d) ∧
      (ofCalls calls).roundTrips = s.roundTrips ∧ 1 ≤ s.roundTrips ∧
      (∀ n, (ofCalls calls).limit n = s.limit n ∧ 1 ≤ s.limit n ∧
        (s.limit n : Int) ≤ Int32.maxValue.toInt) ∧
      (b = .auto → (∀ n, s.limit n = min (max n 100) 1000) ∧ Monotone s.limit) ∧
      ∀ {σ : Type} (store : Store σ),
        (∀ q : PageQuery, q.fetch store (ofCalls calls) = q.fetch store s) ∧
        (∀ r, (Browser.mk store (ofCalls calls)).browse r = (Browser.mk store s).browse r) ∧
        (Browser.mk store (ofCalls calls)).listTables = (Browser.mk store s).listTables := by
  have halike := alike_ofCalls hdlast hblast hmlast
  refine ⟨⟨d, b, m⟩, parse?_eq hd hm hdoc htext, fun q => ?_, halike.roundTrips,
    one_le_roundTrips _, fun n => ⟨halike.limit n, b.one_le_limit n, b.limit_le n⟩, ?_,
    fun store => ?_⟩
  · exact ⟨halike.size_eq q, rfl⟩
  · rintro rfl
    exact ⟨BatchSize.limit_auto, BatchSize.monotone_limit_auto⟩
  · exact ⟨fun q => halike.fetch_eq q store, halike.browse_eq store, halike.listTables_eq store⟩

/-- The greatest default size, and a batch size and a ceiling that are raised to one. -/
theorem page_alike_however_given_of_raised :
    let calls : List Setting := [.maxRoundTrips 9, .batchSize .auto,
      .defaultPageSize 18446744073709551615, .maxRoundTrips 0, .batchSize (.explicit (-4))]
    let text := "\x7b\"max_round_trips\":0,\"note\":[null,1.5]," ++
      "\"physical_batch_size\":\x7b\"explicit\":-4\x7d," ++
      "\"default_page_size\":18446744073709551615\x7d"
    ∃ s, parse? text = some s ∧ ofCalls calls ≠ s ∧ (ofCalls calls).roundTrips = s.roundTrips ∧
      (∀ n, (ofCalls calls).limit n = s.limit n) ∧
      ∀ {σ : Type} (store : Store σ),
        (Browser.mk store (ofCalls calls)).listTables = (Browser.mk store s).listTables := by
  intro calls text
  let doc : Json := .object [("max_round_trips", .ofNat 0),
    ("note", .array [.null, .number "1.5"]),
    ("physical_batch_size", .object [("explicit", .ofInt (-4))]),
    ("default_page_size", .ofNat 18446744073709551615)]
  have hdoc : AreGivenBy 18446744073709551615 (.explicit (-4)) 0 doc :=
    .object (.explicit (-4)) (by rfl) (by rfl) (by rfl)
  have htext : doc.IsWritten text := by
    have hcompact : doc.compact = text := by decide +kernel
    rw [← hcompact]
    exact Json.isWritten_compact fun t ht =>
      Json.isWritten_spelling_of_isSpelled (by revert t; decide +kernel)
  have hdlast : Setting.IsLast .defaultPageSize 18446744073709551615 calls :=
    ⟨calls.take 2, calls.drop 3, rfl, by simp [calls]⟩
  have hblast : Setting.IsLast .batchSize (.explicit (-4)) calls := ⟨calls.take 4, [], rfl, nofun⟩
  have hmlast : Setting.IsLast .maxRoundTrips 0 calls :=
    ⟨calls.take 3, calls.drop 4, rfl, by simp [calls]⟩
  obtain ⟨s, hs, -, htrips, -, hlimit, -, hstore⟩ :=
    page_alike_however_given (by decide) (by decide) hdlast hblast hmlast hdoc htext
  refine ⟨s, hs, ?_, htrips, fun n => (hlimit n).1, fun store => (hstore store).2.2⟩
  rintro rfl
  rw [parse?_eq (by decide) (by decide) hdoc htext] at hs
  revert hs
  decide

end PagingSettings

end Tablescope
