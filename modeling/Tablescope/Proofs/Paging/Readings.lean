import Tablescope.Proofs.Paging.Outcome

/-!
# The readings of a page

A page asks a store for one reading after another: the first from the start of the page, each
further one from where the answer before it got to, and nothing else differs between them. It stops
with the first answer that ends it, or when no more readings are allowed. So the answers tell, before
the page is read, which readings it takes and how many.
-/

namespace Tablescope

variable {σ : Type}

/-- A reading that was made, with the answer to it. -/
structure Reading where
  request : FetchRequest
  answer : Except Error Batch

/-- The store with a list of all readings beside its state. -/
def Store.recorded (store : Store σ) : Store (σ × List Reading) where
  describe table s := let (r, t) := store.describe table s.1; (r, t, s.2)
  fetch request s := let (r, t) := store.fetch request s.1; (r, t, s.2 ++ [⟨request, r⟩])
  get table key s := let (r, t) := store.get table key s.1; (r, t, s.2)
  put table item s := let (r, t) := store.put table item s.1; (r, t, s.2)
  delete table key s := let (r, t) := store.delete table key s.1; (r, t, s.2)
  listTableNames start s := let (r, t) := store.listTableNames start s.1; (r, t, s.2)

namespace PageQuery

variable {q : PageQuery} {store : Store σ} {s : σ} {settings : PagingSettings} {n : ℕ}

theorem ask_recorded {limit : ℕ} {start : Option Cursor} {answer : Except Error Batch} {t : σ}
    (h : q.ask store limit start s = (answer, t)) (log : List Reading) :
    q.ask store.recorded limit start (s, log) =
      (answer, t, log ++ [⟨q.request limit start, answer⟩]) := by
  have hfetch : store.fetch (q.request limit start) s = (answer, t) := h
  simp only [ask, Store.recorded, hfetch]

/-- The readings of a chain with these answers. -/
def readings (q : PageQuery) (limit : ℕ) (start : Option Cursor) (answers : Answers Item Cursor)
    (n : ℕ) : List Reading :=
  answers.along (fun start answer => ⟨q.request limit start, answer⟩) start n

/-- A page comes to the same when it is recorded. -/
theorem fetch_eq_readings (hpos : 1 ≤ q.size settings)
    (h : (q.pageAnswers store settings s).Takes (q.size settings ≤ ·) settings.roundTrips n) :
    q.fetch store.recorded settings (s, []) =
      ((q.fetch store settings s).1, (q.fetch store settings s).2,
        q.readings (settings.limit (q.size settings)) q.firstStart
          (q.pageAnswers store settings s) n) := by
  have hgather : Action.gather (q.ask store.recorded (settings.limit (q.size settings)))
      (q.size settings ≤ ·) settings.roundTrips settings.roundTrips [] q.firstStart (s, []) = _ :=
    Action.gather_logged (fun _ _ log _ _ hask => ask_recorded hask log) [] h
  rw [fetch_eq hpos, fetch_eq hpos, Action.bind_apply, Action.bind_apply, hgather,
    List.nil_append, ← pageAnswers]
  rcases Action.gather (q.ask store (settings.limit (q.size settings))) (q.size settings ≤ ·)
    settings.roundTrips settings.roundTrips [] q.firstStart s with ⟨e | gathered, t⟩
  · rfl
  · rfl

/-- What the readings of a page are if these are the answers to them. -/
structure ChainsOn (q : PageQuery) (settings : PagingSettings) (answers : Answers Item Cursor)
    (readings : List Reading) : Prop where
  /-- There are as many as it takes to end the page, or as are allowed. -/
  length_of_endsFirst : ∀ k, answers.EndsFirst (q.size settings ≤ ·) k →
    readings.length = min (k + 1) settings.roundTrips
  /-- There are as many as are allowed if no answer ends the page. -/
  length_of_not_ends : (∀ k, ¬answers.Ends (q.size settings ≤ ·) k) →
    readings.length = settings.roundTrips
  /-- There is none behind an answer that ends the page. -/
  stops : ∀ k, answers.Ends (q.size settings ≤ ·) k → readings.length ≤ k + 1
  answer : ∀ k r, readings[k]? = some r → r.answer = answers k
  /-- They differ in nothing but their start. -/
  request : ∀ r ∈ readings, r.request =
    { table := q.table
      index := q.index
      mode := q.mode
      expressions := q.expressions
      start := r.request.start
      limit := settings.batchSize.limit (q.size settings) }
  /-- The first is from the start of the page, unless that has no entries. -/
  first : ∀ r ∈ readings.head?, r.request.start = q.start.filter (!·.isEmpty)
  /-- Each further one is from where the answer before it got to. -/
  further : readings.IsChain fun x y => ∃ batch c, x.answer = .ok batch ∧ batch.last = some c ∧
    y.request.start = some c

theorem chainsOn_readings {answers : Answers Item Cursor}
    (h : answers.Takes (q.size settings ≤ ·) settings.roundTrips n) :
    q.ChainsOn settings answers
      (q.readings (settings.limit (q.size settings)) q.firstStart answers n) where
  length_of_endsFirst k hk := by
    rw [readings, Answers.length_along, h.eq_min hk]
  length_of_not_ends hgoes := by
    rw [readings, Answers.length_along, h.eq_allowed hgoes]
  stops k hk := by
    rw [readings, Answers.length_along]
    exact h.le_of_ends hk
  answer k r hr := by
    obtain ⟨hk, rfl⟩ := List.getElem?_eq_some_iff.1 hr
    simp only [readings, Answers.along, List.getElem_map, List.getElem_range]
  request r hr := by
    obtain ⟨k, -, rfl⟩ := List.mem_map.1 hr
    rfl
  first := by
    cases n with
    | zero =>
      intro r hr
      cases hr
    | succ n =>
      rw [readings, Answers.along, List.range_succ_eq_map]
      rintro _ ⟨⟩
      rfl
  further := by
    rw [List.isChain_iff_getElem]
    intro k hk
    rw [readings, Answers.length_along] at hk
    obtain ⟨batch, hbatch, hlast, -⟩ := Answers.exists_of_not_ends (h.goes k hk)
    obtain ⟨c, hc⟩ := Option.ne_none_iff_exists'.1 hlast
    simp only [readings, Answers.along, List.getElem_map, List.getElem_range]
    exact ⟨batch, c, hbatch, hc, (Answers.lastAt_of_ok hbatch).trans hc⟩

/-- Whatever a store answers, a page without items reads nothing and ends where it starts, and the
readings of any other page chain on from answer to answer until one ends the page or no more are
allowed. -/
theorem chains_readings (q : PageQuery) (store : Store σ) (settings : PagingSettings) (s : σ) :
    let outcome := q.fetch store.recorded settings (s, [])
    (q.size settings = 0 → outcome = (.ok ⟨[], q.start⟩, s, [])) ∧
      (1 ≤ q.size settings → q.ChainsOn settings (q.pageAnswers store settings s) outcome.2.2) := by
  intro outcome
  refine ⟨fun hzero => ?_, fun hpos => ?_⟩
  · simp only [outcome, fetch, if_pos hzero]
    rfl
  · obtain ⟨n, hn⟩ := Answers.exists_takes (q.pageAnswers store settings s) (q.size settings ≤ ·)
      settings.roundTrips
    rw [show outcome = _ from fetch_eq_readings hpos hn]
    exact chainsOn_readings hn

end PageQuery

/-! ### Answers in order -/

/-- The store that gives these answers one after another, whatever it is asked to read. -/
def Store.giving (answers : Answers Item Cursor) : Store ℕ where
  describe table := .fail (.schema (.tableNotFound table))
  fetch _ k := (answers k, k + 1)
  get table _ := .fail (.schema (.tableNotFound table))
  put table _ := .fail (.schema (.tableNotFound table))
  delete table _ := .fail (.schema (.tableNotFound table))
  listTableNames _ := .fail (.transport "ListTables" "no pages")

namespace PageQuery

/-- Any answers are those of some store, which gives the ones from some position on. -/
theorem answers_giving (q : PageQuery) (limit : ℕ) (start : Option Cursor)
    (answers : Answers Item Cursor) (n : ℕ) :
    Action.answers (q.ask (.giving answers) limit) start n = fun k => answers (n + k) := by
  funext k
  induction k generalizing n start with
  | zero => rfl
  | succ k ih =>
    rw [show n + (k + 1) = n + 1 + k from (Nat.succ_add_eq_add_succ n k).symm]
    rcases h : answers n with e | batch
    · rw [← ih none, Action.answers, Action.follow]
      simp only [ask, Store.giving, h]
      rfl
    · have hask : q.ask (.giving answers) limit start n = (.ok batch, n + 1) := by
        simp only [ask, Store.giving, h]
      rw [← ih batch.last, Action.answers_succ hask]

/-- Answers that never have an item and always a continuation. -/
def barren : Answers Item Cursor := fun k => .ok ⟨[], some ⟨[("no", .number (toString k))]⟩⟩

/-- Two notes from a start without entries. -/
def twoFromEmpty : PageQuery := { twoNotes with start := some ⟨[]⟩ }

theorem chains_readings_of_barren :
    let store := (Store.giving barren).recorded
    let settings : PagingSettings := { maxRoundTrips := 3 }
    let readings := (twoFromEmpty.fetch store settings (0, [])).2.2
    let unsized : PageQuery := { twoFromEmpty with pageSize := some 0 }
    unsized.size settings = 0 ∧ unsized.fetch store settings (0, []) = (.ok ⟨[], some ⟨[]⟩⟩, 0, []) ∧
      1 ≤ twoFromEmpty.size settings ∧ twoFromEmpty.ChainsOn settings barren readings ∧
      readings.length = 3 ∧
      readings.map (·.request.start) =
        [none, some ⟨[("no", .number "0")]⟩, some ⟨[("no", .number "1")]⟩] := by
  intro store settings readings unsized
  have hzero : unsized.size settings = 0 := rfl
  have hpos : 1 ≤ twoFromEmpty.size settings := by decide
  have hanswers : twoFromEmpty.pageAnswers (.giving barren) settings 0 = barren := by
    rw [pageAnswers, answers_giving]
    exact funext fun k => congrArg barren (Nat.zero_add k)
  have hchains := (chains_readings twoFromEmpty (.giving barren) settings 0).2 hpos
  rw [hanswers] at hchains
  have hgoes : ∀ k, ¬barren.Ends (twoFromEmpty.size settings ≤ ·) k := by
    have hitems : ∀ n, barren.items n = [] := fun n => List.flatMap_eq_nil_iff.2 fun _ _ => rfl
    intro k
    rw [Answers.ends_iff_of_ok (rfl : barren k = .ok _), hitems]
    rintro (hlast | hfull)
    · cases hlast
    · exact absurd (le_trans hpos hfull) (by decide)
  exact ⟨hzero, (chains_readings unsized (.giving barren) settings 0).1 hzero, hpos, hchains,
    hchains.length_of_not_ends hgoes, by decide +kernel⟩

end PageQuery

end Tablescope
