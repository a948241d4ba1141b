import Mathlib.Data.List.Chain
import Tablescope.Proofs.Paging.Outcome
import Tablescope.Proofs.Service.Exchange
import Tablescope.Proofs.Service.Request

/-!
# Where the requests of a page start

The first request of a page carries the map of the place where the page starts, and each further one
the last key of the reply before it. No request carries a map without attributes, so none that is
meant to go on begins anew. A reply without a last key is the final one, and so is a reply whose
last key is no key: then the page fails.
-/

namespace Tablescope

open Service

namespace Service.Exchange

variable {x y : Exchange} {b : Batch} {last : Cursor}

/-- Whether the request of an exchange starts at the last key in the reply of another, which has
attributes, all of them scalars. -/
def Continues (x y : Exchange) : Prop :=
  ∃ key, x.lastKey? = some key ∧ key.isEmpty = false ∧ (∀ e ∈ key.toList, e.2.scalar? ≠ none) ∧
    y.request.startKey? = some key.toJson

theorem isEmpty_of_batch (h : x.batch = .ok b) (hlast : b.last = some last) :
    last.isEmpty = false := by
  obtain ⟨key, -, hempty, hmap⟩ := exists_lastKey?_of_batch h hlast
  rw [← Cursor.isEmpty_toItem, Cursor.toItem_of_ofMap hmap, hempty]

/-- A request that starts where a reading got to carries the last key as it was. -/
theorem continues_of_batch (h : x.batch = .ok b) (hlast : b.last = some last)
    (hy : y.request.startKey? = startKeyJson? (some last)) : x.Continues y := by
  obtain ⟨key, hkey, hempty, hmap⟩ := exists_lastKey?_of_batch h hlast
  rw [startKeyJson?_some (isEmpty_of_batch h hlast), Cursor.toItem_of_ofMap hmap] at hy
  exact ⟨key, hkey, hempty, Cursor.scalar?_of_ofMap hmap, hy⟩

namespace Continues

theorem not_isExhausted (h : x.Continues y) : ¬x.IsExhausted := by
  obtain ⟨key, hkey, hempty, -, -⟩ := h
  intro hx
  have hnot := hx.2 key hkey
  rw [hempty] at hnot
  cases hnot

theorem startKey?_ne_none (h : x.Continues y) : y.request.startKey? ≠ none := by
  obtain ⟨key, -, -, -, hy⟩ := h
  rw [hy]
  exact nofun

theorem startKey?_ne_empty (h : x.Continues y) : y.request.startKey? ≠ some (.object []) := by
  obtain ⟨key, -, hempty, -, hy⟩ := h
  rw [hy, ne_eq, Option.some.injEq, toJson_eq_empty_iff, hempty]
  exact Bool.false_ne_true

end Continues

/-- Behind an exchange that none can continue there is none. -/
theorem eq_nil_of_isChain {before after : List Exchange}
    (h : (before ++ x :: after).IsChain Continues) (hx : ∀ y, ¬x.Continues y) : after = [] := by
  cases after with
  | nil => rfl
  | cons y after => exact absurd (List.isChain_append_cons_cons.1 h).2.1 (hx y)

end Service.Exchange

/-! ### Chains of readings -/

/-- What a chain of readings goes through, and what it comes to, if it begins at a place with some
items at hand. -/
structure Chained (start : Option Cursor) (before : List Item) (xs : List Exchange)
    (result : Except Error (List Item × Option Cursor)) : Prop where
  first : ∀ x ∈ xs.head?, x.request.startKey? = startKeyJson? start
  further : xs.IsChain Exchange.Continues
  /-- If the final reading fails, the chain fails as it does. -/
  failed : ∀ x ∈ xs.getLast?, ∀ e, x.batch = .error e → result = .error e
  /-- If the final reply has no last key, the chain has all items and ends. -/
  exhausted : ∀ x ∈ xs.getLast?, x.IsExhausted →
    result = .ok (before ++ xs.flatMap Exchange.items, none)
  next : ∀ items c, result = .ok (items, some c) → c.isEmpty = false

namespace Chained

variable {start : Option Cursor} {before : List Item} {x : Exchange} {xs : List Exchange}
variable {result : Except Error (List Item × Option Cursor)} {b : Batch} {e : Error}

/-- A chain that fails without a reading. -/
theorem unsent : Chained start before [] (.error e) :=
  ⟨nofun, .nil, nofun, nofun, nofun⟩

/-- A chain that fails with its first reading. -/
theorem fail (hx : x.request.startKey? = startKeyJson? start) (hb : x.batch = .error e) :
    Chained start before [x] (.error e) where
  first := by
    rintro _ ⟨⟩
    exact hx
  further := .singleton x
  failed := by
    rw [List.getLast?_singleton]
    rintro _ ⟨⟩ e' he'
    rw [hb] at he'
    cases he'
    rfl
  exhausted := by
    rw [List.getLast?_singleton]
    rintro _ ⟨⟩ hexhausted
    rw [Exchange.batch_of_isExhausted hexhausted] at hb
    cases hb
  next := nofun

/-- A chain that ends with its first reading. -/
theorem single (hx : x.request.startKey? = startKeyJson? start) (hb : x.batch = .ok b) :
    Chained start before [x] (.ok (before ++ b.items, b.last)) where
  first := by
    rintro _ ⟨⟩
    exact hx
  further := .singleton x
  failed := by
    rw [List.getLast?_singleton]
    rintro _ ⟨⟩ e' he'
    rw [hb] at he'
    cases he'
  exhausted := by
    rw [List.getLast?_singleton]
    rintro _ ⟨⟩ hexhausted
    rw [Exchange.batch_of_isExhausted hexhausted] at hb
    cases hb
    simp
  next := by
    intro items c h
    obtain ⟨-, hlast⟩ := Prod.ext_iff.1 (Except.ok.inj h)
    exact Exchange.isEmpty_of_batch hb hlast

/-- A chain that goes on behind its first reading. -/
theorem cons {last : Cursor} (hx : x.request.startKey? = startKeyJson? start)
    (hb : x.batch = .ok b) (hlast : b.last = some last)
    (h : Chained (some last) (before ++ b.items) xs result) :
    Chained start before (x :: xs) result where
  first := by
    rintro _ ⟨⟩
    exact hx
  further := List.isChain_cons.2
    ⟨fun y hy => Exchange.continues_of_batch hb hlast (h.first y hy), h.further⟩
  failed := by
    cases xs with
    | nil =>
      rw [List.getLast?_singleton]
      rintro _ ⟨⟩ e' he'
      rw [hb] at he'
      cases he'
    | cons y ys =>
      rw [List.getLast?_cons_cons]
      exact h.failed
  exhausted := by
    cases xs with
    | nil =>
      rw [List.getLast?_singleton]
      rintro _ ⟨⟩ hexhausted
      rw [Exchange.batch_of_isExhausted hexhausted] at hb
      cases hb
      cases hlast
    | cons y ys =>
      rw [List.getLast?_cons_cons]
      intro z hz hexhausted
      rw [h.exhausted z hz hexhausted, Exchange.items_of_batch hb, List.append_assoc]
      rfl
  next := h.next

end Chained

namespace PageQuery

variable {τ : Type} {q : PageQuery} {settings : PagingSettings}

theorem chained_gather (endpoint : Endpoint τ) (q : PageQuery) (roundTrips limit size trips : ℕ)
    (items : List Item) (start : Option Cursor) (s : τ × List Exchange) :
    ∃ xs result t, Action.gather (q.ask (store endpoint.recorded) limit) (size ≤ ·) roundTrips trips
      items start s = (result, t, s.2 ++ xs) ∧ Chained start items xs result := by
  induction trips generalizing items start s with
  | zero => exact ⟨[], _, s.1, by rw [List.append_nil]; rfl, .unsent⟩
  | succ trips ih =>
    by_cases hblank : Text.trim q.table = ""
    · obtain ⟨e, hfetch⟩ :=
        fetch_of_blank endpoint.recorded (r := q.request limit start) hblank s
      have hask : q.ask (store endpoint.recorded) limit start s = (.error e, s) := hfetch
      refine ⟨[], .error e, s.1, ?_, .unsent⟩
      rw [Action.gather_of_error hask, List.append_nil]
    · obtain ⟨x, t, hrequest, hfetch⟩ :=
        fetch_recorded endpoint (r := q.request limit start) hblank s
      have hask : q.ask (store endpoint.recorded) limit start s = (x.batch, t, s.2 ++ [x]) := hfetch
      have hx : x.request.startKey? = startKeyJson? start := by
        rw [hrequest, startKey?_fetchRequest]
        rfl
      rcases hb : x.batch with e | b
      · rw [hb] at hask
        exact ⟨[x], .error e, t, Action.gather_of_error hask, .fail hx hb⟩
      · rw [hb] at hask
        rw [Action.gather_of_ok hask]
        split
        · exact ⟨[x], _, t, rfl, .single hx hb⟩
        · next hgoes =>
          obtain ⟨last, hlast⟩ := Option.ne_none_iff_exists'.1 (not_or.1 hgoes).1
          rw [hlast]
          obtain ⟨xs, result, u, hgather, hchained⟩ :=
            ih (items ++ b.items) (some last) (t, s.2 ++ [x])
          refine ⟨x :: xs, result, u, ?_, .cons hx hb hlast hchained⟩
          rw [hgather, List.append_assoc]
          rfl

/-- A page cuts what a chain of readings comes to. -/
theorem exists_chained_fetch (endpoint : Endpoint τ) (hpos : 1 ≤ q.size settings) (t : τ) :
    ∃ xs result u, q.fetch (store endpoint.recorded) settings (t, []) =
        (result >>= fun g => (q.cut (q.size settings) g.1 g.2).mapError .input, u, xs) ∧
      Chained q.firstStart [] xs result := by
  obtain ⟨xs, result, u, hgather, hchained⟩ := chained_gather endpoint q settings.roundTrips
    (settings.limit (q.size settings)) (q.size settings) settings.roundTrips [] q.firstStart (t, [])
  refine ⟨xs, result, u, ?_, hchained⟩
  rw [fetch_eq hpos, Action.bind_apply, hgather]
  cases result with
  | error e => rfl
  | ok g => rfl

/-- The place that a page gives to go on from is never without entries if neither the last reading
nor the attributes of a continuation are. -/
theorem isEmpty_next_of_cut {size : ℕ} {items : List Item} {last : Option Cursor} {page : Page}
    (h : q.cut size items last = .ok page) (hattributes : q.cursorAttributes ≠ [])
    (hlast : ∀ c, last = some c → c.isEmpty = false) {c : Cursor} (hnext : page.next = some c) :
    c.isEmpty = false := by
  unfold cut at h
  split at h
  · cases h
    exact hlast c hnext
  · simp only at h
    split at h
    · cases h
      cases hnext
    · obtain ⟨c', hc, hpage⟩ := Except.map_eq_ok_iff.1 h
      cases hpage
      cases hnext
      obtain ⟨hentries, -⟩ := Cursor.ofItem_eq_ok_iff.1 hc
      refine List.isEmpty_eq_false_iff.2 fun hnil => hattributes ?_
      rw [← hentries, hnil]
      rfl

/-- How the exchanges of a page hand on the place to go on from, and what the page comes to. -/
structure HandsOn (q : PageQuery) (size : ℕ) (xs : List Exchange) (result : Except Error Page) :
    Prop where
  /-- The first request carries the map of the start, unless there is none or it has no entries. -/
  first : ∀ x ∈ xs.head?, x.request.startKey? =
    (q.start.filter (!·.isEmpty)).map fun c => c.toItem.toJson
  /-- Each further request carries the last key in the reply before it. -/
  further : xs.IsChain Exchange.Continues
  /-- No request carries a map without attributes. -/
  never_empty : ∀ x ∈ xs, x.request.startKey? ≠ some (.object [])
  /-- A reply without a last key is the final one. If the page can take all items, it does and there
  is nowhere to go on from. -/
  exhausted : ∀ before x after, xs = before ++ x :: after → x.IsExhausted →
    after = [] ∧ ((xs.flatMap Exchange.items).length ≤ size →
      result = .ok ⟨xs.flatMap Exchange.items, none⟩)
  /-- A reply whose last key has anything else than scalars is the final one, and the page fails. -/
  malformed : ∀ before x after, xs = before ++ x :: after → ∀ key, x.lastKey? = some key →
    (∃ e ∈ key.toList, e.2.scalar? = none) →
      after = [] ∧ ∃ e ∈ key.toList, e.2.scalar? = none ∧
        result = .error (.input (.invalidCursor (.notAScalar e.1)))
  /-- The place to go on from is never without entries. -/
  next : ∀ page c, result = .ok page → page.next = some c → c.isEmpty = false

theorem startKeyJson?_firstStart (q : PageQuery) :
    startKeyJson? q.firstStart = (q.start.filter (!·.isEmpty)).map fun c => c.toItem.toJson := by
  rw [startKeyJson?, firstStart, Option.filter_filter]
  simp only [Bool.and_self]

theorem handsOn_of_chained {size : ℕ} {xs : List Exchange}
    {result : Except Error (List Item × Option Cursor)} (h : Chained q.firstStart [] xs result)
    (hattributes : q.cursorAttributes ≠ []) :
    q.HandsOn size xs (result >>= fun g => (q.cut size g.1 g.2).mapError .input) where
  first := by
    rw [← startKeyJson?_firstStart]
    exact h.first
  further := h.further
  never_empty := by
    refine h.further.induction _ _ (fun _ _ hxy _ => hxy.startKey?_ne_empty) fun hne => ?_
    rw [h.first _ (List.head?_eq_some_head hne)]
    exact startKeyJson?_ne_empty _
  exhausted := by
    rintro before x after rfl hx
    obtain rfl := Exchange.eq_nil_of_isChain h.further fun y hy => hy.not_isExhausted hx
    refine ⟨rfl, fun hle => ?_⟩
    rw [h.exhausted x List.getLast?_concat hx]
    change Except.mapError _ (q.cut size _ none) = _
    rw [List.nil_append, cut_of_le hle]
    rfl
  malformed := by
    rintro before x after rfl key hkey ⟨e, he, hnone⟩
    have hstops : ∀ y, ¬x.Continues y := by
      rintro y ⟨key', hkey', -, hscalar, -⟩
      rw [hkey] at hkey'
      cases hkey'
      exact hscalar e he hnone
    obtain rfl := Exchange.eq_nil_of_isChain h.further hstops
    obtain ⟨f, hf, hnone, hb⟩ := Exchange.batch_of_not_scalar hkey he hnone
    refine ⟨rfl, f, hf, hnone, ?_⟩
    rw [h.failed x List.getLast?_concat _ hb]
    rfl
  next := by
    intro page c hpage hnext
    obtain ⟨⟨items, last⟩, hresult, hcut⟩ := Except.bind_eq_ok_iff.1 hpage
    refine isEmpty_next_of_cut (Except.mapError_eq_ok_iff.1 hcut) hattributes (fun c hc => ?_) hnext
    subst hc
    exact h.next items c hresult

/-- A page that starts somewhere never reads from the beginning. -/
theorem startKey?_ne_none_of_fetch (endpoint : Endpoint τ) {c : Cursor} (hstart : q.start = some c)
    (hc : c.isEmpty = false) (settings : PagingSettings) (t : τ) :
    ∀ x ∈ (q.fetch (store endpoint.recorded) settings (t, [])).2.2,
      x.request.startKey? ≠ none := by
  rcases Nat.eq_zero_or_pos (q.size settings) with hzero | hpos
  · intro x hx
    simp only [fetch, if_pos hzero] at hx
    cases hx
  · obtain ⟨xs, result, u, hfetch, hchained⟩ := exists_chained_fetch endpoint hpos t
    rw [hfetch]
    refine hchained.further.induction _ _ (fun _ _ hxy _ => hxy.startKey?_ne_none) fun hne => ?_
    rw [hchained.first _ (List.head?_eq_some_head hne), startKeyJson?_firstStart, hstart,
      Option.filter_some, hc]
    exact Option.some_ne_none _

/-- Whatever an endpoint replies, the exchanges of a page hand on the place to go on from, and a
page that starts where another one ended never reads from the beginning. -/
theorem continues_faithfully (endpoint : Endpoint τ) (q : PageQuery) (settings : PagingSettings)
    (t : τ) (hpos : 1 ≤ q.size settings) (hattributes : q.cursorAttributes ≠ []) :
    let outcome := q.fetch (store endpoint.recorded) settings (t, [])
    q.HandsOn (q.size settings) outcome.2.2 outcome.1 ∧
      ∀ page c, outcome.1 = .ok page → page.next = some c →
        ∀ r : PageQuery, r.start = some c → ∀ (settings : PagingSettings) (u : τ),
          ∀ x ∈ (r.fetch (store endpoint.recorded) settings (u, [])).2.2,
            x.request.startKey? ≠ none := by
  intro outcome
  obtain ⟨xs, result, u, hfetch, hchained⟩ := exists_chained_fetch endpoint hpos t
  have hhands : q.HandsOn (q.size settings) outcome.2.2 outcome.1 := by
    rw [show outcome = _ from hfetch]
    exact handsOn_of_chained hchained hattributes
  refine ⟨hhands, fun page c hpage hnext r hstart settings u => ?_⟩
  exact startKey?_ne_none_of_fetch endpoint hstart (hhands.next page c hpage hnext) settings u

/-- Two replies to readings of notes: one without items that goes on, and one with more than two
items. -/
def notesReplies : Replay where
  replies := [
    ⟨200, "\x7b\"LastEvaluatedKey\":\x7b\"user\":\x7b\"S\":\"a\"\x7d," ++
      "\"no\":\x7b\"N\":\"1\"\x7d\x7d\x7d"⟩,
    ⟨200, "\x7b\"Items\":[\x7b\"user\":\x7b\"S\":\"b\"\x7d,\"no\":\x7b\"N\":\"1\"\x7d\x7d," ++
      "\x7b\"user\":\x7b\"S\":\"b\"\x7d,\"no\":\x7b\"N\":\"2\"\x7d\x7d," ++
      "\x7b\"user\":\x7b\"S\":\"c\"\x7d,\"no\":\x7b\"N\":\"1\"\x7d\x7d]\x7d"⟩]
  requests := []

/-- The two notes that these replies make a page of. -/
def twoReplied : Page where
  items := [MemoryStore.note "b" "1" [], MemoryStore.note "b" "2" []]
  next := some ⟨[("user", .text "b"), ("no", .number "2")]⟩

/-- Two notes behind those. -/
def twoFurther : PageQuery := { twoNotes with start := twoReplied.next }

theorem continues_faithfully_of_notes :
    let store := store Endpoint.replay.recorded
    let outcome := twoNotes.fetch store {} (notesReplies, [])
    let further := twoFurther.fetch store {} (⟨[⟨200, ""⟩], []⟩, [])
    1 ≤ twoNotes.size {} ∧ twoNotes.cursorAttributes ≠ [] ∧ outcome.1 = .ok twoReplied ∧
      outcome.2.2.length = 2 ∧ twoNotes.HandsOn 2 outcome.2.2 outcome.1 ∧
      further.2.2.length = 1 ∧ ∀ x ∈ further.2.2, x.request.startKey? ≠ none := by
  intro store outcome further
  have hpos : 1 ≤ twoNotes.size {} := by decide
  have hattributes : twoNotes.cursorAttributes ≠ [] := by decide
  have hpage : outcome.1 = .ok twoReplied := by decide +kernel
  obtain ⟨hhands, hfurther⟩ :=
    continues_faithfully Endpoint.replay twoNotes {} notesReplies hpos hattributes
  have hstarts := hfurther twoReplied _ hpage rfl twoFurther rfl {} ⟨[⟨200, ""⟩], []⟩
  exact ⟨hpos, hattributes, hpage, by decide +kernel, hhands, by decide +kernel, hstarts⟩

end PageQuery

end Tablescope
