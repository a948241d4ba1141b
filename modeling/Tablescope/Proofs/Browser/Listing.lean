import Tablescope.Proofs.Browser.Browse
import Tablescope.Proofs.Store.Chain
import Tablescope.Store.Scripted

/-!
# Listing all tables

The names of all tables are gathered page by page, each page asked for by the last name of the one
before. What this comes to is told by the answers: by the first failure or page without a last name,
or, if there is neither among the pages that are allowed, by the names that were gathered in vain.

The pages of a store in memory are stretches of one length of the names that it has. If no name is
there twice, the last name of a page leads behind this page, so the pages make up the whole list.
-/

namespace Tablescope

/-- What a store answers when it is asked for one page of table names after another. -/
abbrev Listings := Answers String String

namespace Listings

/-- The calls for the first pages of a chain. -/
def calls (answers : Listings) (start : Option String) (n : ℕ) : List StoreCall :=
  answers.along (fun start _ => .listTableNames start) start n

/-- What listing all tables comes to against these answers, and how many of them it takes. -/
inductive Outcome (answers : Listings) (allowed : ℕ) : Except Error (List String) → ℕ → Prop where
  /-- Each answer that is allowed tells where to go on. -/
  | limit (hgoes : ∀ k < allowed, answers.lastAt k ≠ none) :
      Outcome answers allowed (.error (.roundTripLimit allowed (answers.items allowed).length))
        allowed
  /-- The first answer that does not is a failure. -/
  | failed {k : ℕ} {e : Error} (hk : k < allowed) (hgoes : ∀ j < k, answers.lastAt j ≠ none)
      (he : answers k = .error e) : Outcome answers allowed (.error e) (k + 1)
  /-- The first answer that does not is the last page. -/
  | complete {k : ℕ} {page : TablePage} (hk : k < allowed)
      (hgoes : ∀ j < k, answers.lastAt j ≠ none) (hpage : answers k = .ok page)
      (hlast : page.last = none) : Outcome answers allowed (.ok (answers.items (k + 1))) (k + 1)

variable {answers : Listings} {allowed k n : ℕ}

/-- The answers come to something: some is the first that does not tell where to go on, or each one
tells. -/
theorem exists_outcome (answers : Listings) (allowed : ℕ) :
    ∃ result n, answers.Outcome allowed result n := by
  by_cases hstops : ∃ k < allowed, answers.Ends (fun _ => False) k
  · obtain ⟨k, hk, h⟩ := Answers.exists_endsFirst hstops
    obtain ⟨hlast, hgoes⟩ := Answers.endsFirst_iff_lastAt.1 h
    rcases ha : answers k with e | page
    · exact ⟨_, _, .failed hk hgoes ha⟩
    · exact ⟨_, _, .complete hk hgoes ha ((Answers.lastAt_of_ok ha).symm.trans hlast)⟩
  · simp only [not_exists, not_and, Answers.ends_iff_lastAt] at hstops
    exact ⟨_, _, .limit hstops⟩

theorem endsFirst_of_error {e : Error} (hgoes : ∀ j < k, answers.lastAt j ≠ none)
    (he : answers k = .error e) : answers.EndsFirst (fun _ => False) k :=
  Answers.endsFirst_iff_lastAt.2 ⟨by rw [Answers.lastAt, he], hgoes⟩

theorem endsFirst_of_ok {page : TablePage} (hgoes : ∀ j < k, answers.lastAt j ≠ none)
    (hpage : answers k = .ok page) (hlast : page.last = none) :
    answers.EndsFirst (fun _ => False) k :=
  Answers.endsFirst_iff_lastAt.2 ⟨(Answers.lastAt_of_ok hpage).trans hlast, hgoes⟩

theorem Outcome.takes {result : Except Error (List String)} (h : answers.Outcome allowed result n) :
    answers.Takes (fun _ => False) allowed n := by
  cases h with
  | limit hgoes =>
    exact Answers.takes_of_not_ends fun k hk => mt Answers.ends_iff_lastAt.1 (hgoes k hk)
  | failed hk hgoes he => exact (endsFirst_of_error hgoes he).takes hk
  | complete hk hgoes hpage hlast => exact (endsFirst_of_ok hgoes hpage hlast).takes hk

end Listings

/-- The answers of a store to a chain of pages of names that begins at a place. -/
def Store.listings {σ : Type} (store : Store σ) (start : Option String) (s : σ) : Listings :=
  Action.answers store.listTableNames start s

namespace Browser

variable {σ : Type} {store : Store σ} {settings : PagingSettings} {s : σ} {k n : ℕ}
variable {result : Except Error (List String)}

/-! ### Gathering names -/

/-- The chain of pages of names from which all tables are listed. -/
def gatherNames (b : Browser σ) : Action σ (List String × Option String) :=
  .gather b.store.listTableNames (fun _ => False) b.settings.roundTrips b.settings.roundTrips [] none

theorem listTables_eq (b : Browser σ) (s : σ) :
    b.listTables s = ((b.gatherNames s).1.map Prod.fst, (b.gatherNames s).2) := by
  unfold listTables
  rw [Action.bind_apply, ← gatherNames]
  rcases b.gatherNames s with ⟨e | ⟨names, last⟩, t⟩
  · rfl
  · rfl

theorem listTables_of_not_ends
    (h : ∀ k < settings.roundTrips, ¬(store.listings none s).Ends (fun _ => False) k) :
    ((⟨store, settings⟩ : Browser _).listTables s).1 =
      .error (.roundTripLimit settings.roundTrips
        ((store.listings none s).items settings.roundTrips).length) := by
  have hgather : ((⟨store, settings⟩ : Browser _).gatherNames s).1 = _ :=
    Action.gather_of_not_ends h
  rw [listTables_eq, hgather]
  rfl

theorem listTables_of_endsFirst (hk : k < settings.roundTrips)
    (h : (store.listings none s).EndsFirst (fun _ => False) k) :
    ((⟨store, settings⟩ : Browser _).listTables s).1 =
      (store.listings none s k).map fun _ => (store.listings none s).items (k + 1) := by
  have hgather : (⟨store, settings⟩ : Browser _).gatherNames s = _ :=
    Action.gather_of_endsFirst hk h
  rw [listTables_eq, hgather, ← Store.listings]
  rcases store.listings none s k with e | page
  · rfl
  · rfl

/-- Listing all tables comes to what the answers tell. -/
theorem listTables_of_outcome (h : (store.listings none s).Outcome settings.roundTrips result n) :
    ((⟨store, settings⟩ : Browser _).listTables s).1 = result := by
  cases h with
  | limit hgoes =>
    exact listTables_of_not_ends fun k hk => mt Answers.ends_iff_lastAt.1 (hgoes k hk)
  | failed hk hgoes he =>
    rw [listTables_of_endsFirst hk (Listings.endsFirst_of_error hgoes he), he]
    rfl
  | complete hk hgoes hpage hlast =>
    rw [listTables_of_endsFirst hk (Listings.endsFirst_of_ok hgoes hpage hlast), hpage]
    rfl

theorem listTableNames_logged {start : Option String} {t : σ} {answer : Except Error TablePage}
    (h : store.listTableNames start s = (answer, t)) (log : List StoreCall) :
    store.logged.listTableNames start (s, log) = (answer, t, log ++ [.listTableNames start]) :=
  Action.noting_eq_iff.2 ⟨h, rfl⟩

/-- Of a store that logs what it is asked, it asks for the pages that it takes. -/
theorem listTables_logged
    (h : (store.listings none s).Takes (fun _ => False) settings.roundTrips n) :
    (⟨store.logged, settings⟩ : Browser _).listTables (s, []) =
      (((⟨store, settings⟩ : Browser _).listTables s).1,
        ((⟨store, settings⟩ : Browser _).listTables s).2, (store.listings none s).calls none n) := by
  have hgather : (⟨store.logged, settings⟩ : Browser _).gatherNames (s, []) = _ :=
    Action.gather_logged (fun _ _ log _ _ hask => listTableNames_logged hask log) [] h
  rw [listTables_eq, listTables_eq, hgather]
  rfl

end Browser

/-! ### The names of a store in memory -/

namespace MemoryStore

variable {m : MemoryStore} {settings : PagingSettings} {seen rest : List String}
variable {trips : ℕ} {s : MemoryState}

theorem idxOf?_append_cons {before after : List String} {name : String} (h : name ∉ before) :
    (before ++ name :: after).idxOf? name = some before.length := by
  have hbefore : ∀ n ∈ before, (n == name) = false := by
    rintro n hn
    exact beq_false_of_ne fun heq => h (heq ▸ hn)
  rw [List.idxOf?, List.findIdx?_append, List.findIdx?_eq_none_iff.2 hbefore, List.findIdx?_cons]
  simp

/-- The last of the names that were seen leads to those that were not. -/
theorem namesAfter_getLast? (hd : m.tableNames.Nodup) (hnames : m.tableNames = seen ++ rest) :
    m.namesAfter seen.getLast? =
      { items := rest.take m.namesPerPage
        last := if (rest.take m.namesPerPage).length < rest.length then
          (rest.take m.namesPerPage).getLast? else none } := by
  have hfirst : (seen.getLast?.bind fun name =>
      (m.tableNames.idxOf? name).map (· + 1)).getD 0 = seen.length := by
    rcases List.eq_nil_or_concat seen with rfl | ⟨before, name, rfl⟩
    · rfl
    · rw [List.concat_eq_append] at hnames ⊢
      rw [hnames] at hd
      have hnot : name ∉ before := fun hmem =>
        (List.nodup_append.1 (List.nodup_append.1 hd).1).2.2 name hmem name (by simp) rfl
      rw [hnames, List.append_assoc, List.singleton_append, List.getLast?_concat,
        Option.bind_some, idxOf?_append_cons hnot, List.length_append]
      rfl
  rw [namesAfter, hfirst, hnames, List.drop_left]

/-- If names are left behind a page, it is full and tells the last of the names that were seen with
it. -/
theorem exists_namesAfter (hd : m.tableNames.Nodup) (hnames : m.tableNames = seen ++ rest)
    (hpos : 1 ≤ m.namesPerPage) (hlt : m.namesPerPage < rest.length) :
    ∃ last, (seen ++ rest.take m.namesPerPage).getLast? = some last ∧
      m.namesAfter seen.getLast? = ⟨rest.take m.namesPerPage, some last⟩ := by
  have hlength : (rest.take m.namesPerPage).length = m.namesPerPage := by
    rw [List.length_take, Nat.min_eq_left (Nat.le_of_lt hlt)]
  have hne : rest.take m.namesPerPage ≠ [] := by
    rw [← List.length_pos_iff, hlength]
    exact hpos
  refine ⟨(rest.take m.namesPerPage).getLast hne, ?_, ?_⟩
  · rw [List.getLast?_append_of_ne_nil _ hne, List.getLast?_eq_some_getLast hne]
  · rw [namesAfter_getLast? hd hnames, hlength, if_pos hlt, List.getLast?_eq_some_getLast hne]

/-- If none are left, it has all that were left and is the last. -/
theorem namesAfter_of_le (hd : m.tableNames.Nodup) (hnames : m.tableNames = seen ++ rest)
    (hle : rest.length ≤ m.namesPerPage) : m.namesAfter seen.getLast? = ⟨rest, none⟩ := by
  rw [namesAfter_getLast? hd hnames, List.take_of_length_le hle, if_neg (Nat.lt_irrefl _)]

theorem listTableNames_apply (start : Option String) (s : MemoryState) :
    m.store.listTableNames start s = (.ok (m.namesAfter start), s) := rfl

/-- The pages that are allowed bring all names that are left if they have room for them, and
otherwise as many as they have room for, which is too few. -/
theorem gather_listTableNames (roundTrips : ℕ) (s : MemoryState) (hd : m.tableNames.Nodup)
    (hpos : 1 ≤ m.namesPerPage) (hnames : m.tableNames = seen ++ rest)
    (hleft : rest ≠ [] ∨ 1 ≤ trips) :
    (Action.gather m.store.listTableNames (fun _ => False) roundTrips trips seen seen.getLast? s).1 =
      if rest.length ≤ trips * m.namesPerPage then .ok (m.tableNames, none)
      else .error (.roundTripLimit roundTrips (seen.length + trips * m.namesPerPage)) := by
  -- what carries the induction is that the chain goes on from the last of the names that were seen
  induction trips generalizing seen rest with
  | zero =>
    have hne : rest.length ≠ 0 := by simpa using hleft
    rw [if_neg (by omega), Nat.zero_mul, Nat.add_zero]
    rfl
  | succ trips ih =>
    have hpage := listTableNames_apply (m := m) seen.getLast? s
    rcases Nat.lt_or_ge m.namesPerPage rest.length with hlt | hge
    · obtain ⟨last, hlast, hafter⟩ := exists_namesAfter hd hnames hpos hlt
      have hsplit : m.tableNames =
          (seen ++ rest.take m.namesPerPage) ++ rest.drop m.namesPerPage := by
        rw [hnames, List.append_assoc, List.take_append_drop]
      have hmore : rest.drop m.namesPerPage ≠ [] := by
        rw [← List.length_pos_iff, List.length_drop]
        omega
      have hroom : (rest.drop m.namesPerPage).length ≤ trips * m.namesPerPage ↔
          rest.length ≤ (trips + 1) * m.namesPerPage := by
        rw [List.length_drop, Nat.succ_mul]
        omega
      have hseen : (seen ++ rest.take m.namesPerPage).length + trips * m.namesPerPage =
          seen.length + (trips + 1) * m.namesPerPage := by
        rw [List.length_append, List.length_take, Nat.min_eq_left (Nat.le_of_lt hlt), Nat.succ_mul]
        omega
      rw [hafter] at hpage
      rw [Action.gather_of_ok hpage, if_neg (by simp), ← hlast, ih hsplit (.inl hmore), hseen]
      simp only [hroom]
    · rw [namesAfter_of_le hd hnames hge] at hpage
      rw [Action.gather_of_ok hpage, if_pos (.inl rfl), ← hnames, if_pos]
      exact le_trans hge (Nat.le_mul_of_pos_left _ (Nat.succ_pos trips))

/-- All names of a store in memory are listed if the pages that are allowed have room for them. -/
theorem listTables_eq (hd : m.tableNames.Nodup) (hpos : 1 ≤ m.namesPerPage) :
    ((m.browser settings).listTables s).1 =
      if m.tableNames.length ≤ settings.roundTrips * m.namesPerPage then .ok m.tableNames
      else .error (.roundTripLimit settings.roundTrips
        (settings.roundTrips * m.namesPerPage)) := by
  have hgather := gather_listTableNames settings.roundTrips s hd hpos (List.nil_append _).symm
    (.inr settings.one_le_roundTrips)
  rw [List.length_nil, Nat.zero_add] at hgather
  rw [Browser.listTables_eq]
  refine (congrArg (Except.map Prod.fst) hgather).trans ?_
  split
  · rfl
  · rfl

/-- Five tables, listed two at a time. -/
def fiveTables : MemoryStore :=
  { notes with tableNames := ["d", "a", "e", "b", "c"], namesPerPage := 2 }

end MemoryStore

namespace Browser

/-- Whatever a store answers, all tables are listed by asking for the first page of names and then
for one page after another, each by the last name of the one before. This gives the names of all
pages up to the first without a last name if that is among the pages that are allowed, fails as the
first failure does if one comes earlier, and otherwise fails for too many pages. So a store in memory
whose names differ has them all listed exactly if the pages that are allowed have room for them. -/
theorem lists_every_page (settings : PagingSettings) :
    (∀ (σ : Type) (store : Store σ) (s : σ),
      let answers := store.listings none s
      let outcome := (⟨store.logged, settings⟩ : Browser _).listTables (s, [])
      ∃ n ≤ settings.roundTrips, outcome.2.2 = answers.calls none n ∧
        ∀ result, outcome.1 = result ↔ answers.Outcome settings.roundTrips result n) ∧
      ∀ (m : MemoryStore) (s : MemoryState), m.tableNames.Nodup → 1 ≤ m.namesPerPage →
        let room := settings.roundTrips * m.namesPerPage
        let result := ((m.browser settings).listTables s).1
        (result = .ok m.tableNames ↔ m.tableNames.length ≤ room) ∧
          (room < m.tableNames.length →
            result = .error (.roundTripLimit settings.roundTrips room)) := by
  constructor
  · intro σ store s answers outcome
    obtain ⟨result, n, h⟩ := answers.exists_outcome settings.roundTrips
    have houtcome : outcome = _ := listTables_logged h.takes
    refine ⟨n, h.takes.le, by rw [houtcome], fun other => ?_⟩
    rw [houtcome, listTables_of_outcome h]
    constructor
    · rintro rfl
      exact h
    · intro hother
      exact (listTables_of_outcome h).symm.trans (listTables_of_outcome hother)
  · intro m s hd hpos room result
    have hresult : result = _ := MemoryStore.listTables_eq hd hpos
    rw [hresult]
    constructor
    · split
      · next hle => exact iff_of_true rfl hle
      · next hnot => exact iff_of_false nofun hnot
    · exact fun hlt => if_neg (Nat.not_le.2 hlt)

/-- A page of names and then a failure. -/
def brokenListing : Script :=
  ⟨[], [.ok ⟨["b", "a"], some "z"⟩, .error (.transport "ListTables" "timed out")]⟩

theorem lists_every_page_of_fiveTables :
    let three : PagingSettings := { maxRoundTrips := 3 }
    let two : PagingSettings := { maxRoundTrips := 2 }
    let broken := (⟨Store.scripted.logged, three⟩ : Browser _).listTables (brokenListing, [])
    MemoryStore.fiveTables.tableNames.Nodup ∧ 1 ≤ MemoryStore.fiveTables.namesPerPage ∧
      ((MemoryStore.fiveTables.browser three).listTables ⟨[], 0⟩).1 =
        .ok ["d", "a", "e", "b", "c"] ∧
      ((MemoryStore.fiveTables.browser two).listTables ⟨[], 0⟩).1 =
        .error (.roundTripLimit 2 4) ∧
      broken.1 = .error (.transport "ListTables" "timed out") ∧
      broken.2.2 = [.listTableNames none, .listTableNames (some "z")] := by
  intro three two broken
  have hd : MemoryStore.fiveTables.tableNames.Nodup := by decide
  have hpos : 1 ≤ MemoryStore.fiveTables.namesPerPage := by decide
  have henough := (lists_every_page three).2 MemoryStore.fiveTables ⟨[], 0⟩ hd hpos
  have hlacking := (lists_every_page two).2 MemoryStore.fiveTables ⟨[], 0⟩ hd hpos
  obtain ⟨n, -, hcalls, hbroken⟩ := (lists_every_page three).1 _ Store.scripted brokenListing
  have hn : 2 = n := by
    have hlength : broken.2.2.length = _ := congrArg List.length hcalls
    rwa [Listings.calls, Answers.length_along] at hlength
  subst hn
  have hgoes : ∀ j < 1, (Store.scripted.listings none brokenListing).lastAt j ≠ none := by decide
  exact ⟨hd, hpos, henough.1.2 (by decide), hlacking.2 (by decide),
    (hbroken _).2 (.failed (by decide) hgoes rfl), hcalls⟩

end Browser

end Tablescope
