import Mathlib.Data.List.Infix
import Tablescope.Proofs.Browser.Editing
import Tablescope.Proofs.Browser.Traversal

/-!
# Traversals while items are edited

Between the pages of a traversal items may be put and deleted. The place of the traversal moves
with the item that its cursor names: items before it go or are replaced, new ones come behind the
last. As long as the item itself is not deleted, every item that stays in the store is returned
once, and a key is returned twice only if its item was gone in between.

Writes are told by what they do to the two parts into which the place parts the items. A write
leaves the staying items of both parts alone, and every key that it brings behind the place is one
that no item had before.
-/

namespace Tablescope

namespace MemoryStore

variable {schema : KeySchema} {items part : List Item} {k : PrimaryKey} {item : Item}
variable {P : Item → Bool}

/-! ### Items that stay when one is written -/

/-- Replacing an item leaves alone those that are there before and after. -/
theorem filter_map_replace (hk : Keyed schema items) (hi : PrimaryKey.ofItem schema item = .ok k)
    (hP : ∀ x, P x = true → x ∈ items ∧ x ∈ insertAt schema items k item) (hpart : part ⊆ items) :
    (part.map (replace schema k item)).filter P = part.filter P := by
  have hstays : ∀ x ∈ items, P (replace schema k item x) = P x ∧
      (P x = true → replace schema k item x = x) := by
    intro x hx
    by_cases hxk : PrimaryKey.ofItem schema x = .ok k
    · have hreplace : replace schema k item x = item := if_pos hxk
      have hold : P x = true → item = x := by
        intro h
        rcases mem_insertAt.1 (hP x h).2 with hxi | ⟨-, hne⟩
        · exact hxi.symm
        · exact absurd hxk hne
      have hnew : P item = true → item = x := fun h =>
        hk.eq_of_key_eq (hP item h).1 hx (hi.trans hxk.symm)
      rw [hreplace]
      refine ⟨?_, hold⟩
      rw [Bool.eq_iff_iff]
      constructor
      · intro h
        rwa [hnew h] at h
      · intro h
        rwa [hold h]
    · have hreplace : replace schema k item x = x := if_neg hxk
      rw [hreplace]
      exact ⟨rfl, fun _ => rfl⟩
  have hfilter : part.filter (P ∘ replace schema k item) = part.filter P :=
    List.filter_congr fun x hx => (hstays x (hpart hx)).1
  rw [List.filter_map, hfilter]
  refine (List.map_congr_left fun x hx => ?_).trans (List.map_id _)
  obtain ⟨hx, hPx⟩ := List.mem_filter.1 hx
  exact (hstays x (hpart hx)).2 hPx

/-- Erasing an item leaves alone those that are there afterwards. -/
theorem filter_eraseAt (hP : ∀ x, P x = true → PrimaryKey.ofItem schema x ≠ .ok k)
    (part : List Item) : (eraseAt schema part k).filter P = part.filter P := by
  rw [eraseAt, List.filter_filter]
  refine List.filter_congr fun x _ => ?_
  rw [Bool.and_eq_left_iff_imp, decide_eq_true_eq]
  exact hP x

end MemoryStore

namespace Traversal

/-! ### Places in items that change -/

section Places

variable {schema : KeySchema} {attributes : List Attribute} {seen rest : List Item}
variable {place : Option (Option Cursor)}

/-- What is before a place that is not the end does not matter to it. -/
theorem Stands.before {start : Option Cursor}
    (h : Stands schema attributes seen rest (some start)) (rest' : List Item) :
    Stands schema attributes seen rest' (some start) := by
  generalize hp : some start = place at h ⊢
  cases h with
  | begin => exact .begin
  | behind h =>
    cases h with
    | done => cases hp
    | behind h => exact .behind (.behind h)

/-- A place stays where it is when items get others with their keys. -/
theorem Stands.map {f : Item → Item}
    (hf : ∀ x ∈ seen, ∃ k, PrimaryKey.ofItem schema x = .ok k ∧
      PrimaryKey.ofItem schema (f x) = .ok k)
    (h : Stands schema schema.attributes seen rest place) :
    Stands schema schema.attributes (seen.map f) (rest.map f) place := by
  cases h with
  | begin => exact .begin
  | behind h =>
    cases h with
    | done => exact .behind .done
    | behind h =>
      obtain ⟨k, hx, hfx⟩ := hf _ (List.mem_append_right _ (List.mem_singleton_self _))
      rw [List.map_append, List.map_singleton]
      exact .behind (.behind (h.of_ofItem_eq hx hfx))

/-- A place stays where it is when items are taken out but not the one that it is told by. -/
theorem Stands.filter {q : Item → Bool}
    (hq : ∀ c x, place = some (some c) → x ∈ seen → c.Names schema attributes x → q x = true)
    (h : Stands schema attributes seen rest place) :
    Stands schema attributes (seen.filter q) (rest.filter q) place := by
  cases h with
  | begin => exact .begin
  | behind h =>
    cases h with
    | done => exact .behind .done
    | @behind _ _ x c h =>
      have hx : q x = true :=
        hq c x rfl (List.mem_append_right _ (List.mem_singleton_self _)) h
      rw [List.filter_append, List.filter_cons_of_pos hx, List.filter_nil]
      exact .behind (.behind h)

/-- What a write may do to the items behind a place and to those before it: the staying ones are
left alone, and a key that comes before the place is one that nothing had. -/
structure Shifts (schema : KeySchema) (P : Item → Bool) (seen rest seen' rest' : List Item) :
    Prop where
  behind : seen'.filter P = seen.filter P
  before : rest'.filter P = rest.filter P
  keys : ∀ y ∈ rest', (∃ x ∈ rest, PrimaryKey.ofItem schema x = PrimaryKey.ofItem schema y) ∨
    ∀ x ∈ seen ++ rest, PrimaryKey.ofItem schema x ≠ PrimaryKey.ofItem schema y

variable {P : Item → Bool} {k : PrimaryKey} {item : Item}

theorem Shifts.refl (seen rest : List Item) : Shifts schema P seen rest seen rest :=
  ⟨rfl, rfl, fun y hy => .inl ⟨y, hy, rfl⟩⟩

/-- A new item comes behind all others, before the place unless this is the end. -/
theorem shifts_append (hn : ∀ x ∈ seen ++ rest, PrimaryKey.ofItem schema x ≠ .ok k)
    (hi : PrimaryKey.ofItem schema item = .ok k) (hP : ∀ x, P x = true → x ∈ seen ++ rest)
    (h : Stands schema attributes seen rest place) :
    ∃ seen' rest', seen ++ rest ++ [item] = seen' ++ rest' ∧
      Stands schema attributes seen' rest' place ∧ Shifts schema P seen rest seen' rest' := by
  have hitem : [item].filter P = [] := by
    rw [List.filter_eq_nil_iff]
    intro x hx hPx
    rw [List.mem_singleton.1 hx] at hPx
    exact hn item (hP item hPx) hi
  cases place with
  | none =>
    obtain rfl := h.rest_eq_nil
    refine ⟨seen ++ [item], [], ?_, .behind .done, ?_, rfl, fun y hy => ?_⟩
    · rw [List.append_nil, List.append_nil]
    · rw [List.filter_append, hitem, List.append_nil]
    · cases hy
  | some start =>
    refine ⟨seen, rest ++ [item], ?_, h.before _, rfl, ?_, fun y hy => ?_⟩
    · rw [List.append_assoc]
    · rw [List.filter_append, hitem, List.append_nil]
    · rcases List.mem_append.1 hy with hy | hy
      · exact .inl ⟨y, hy, rfl⟩
      · rw [List.mem_singleton.1 hy, hi]
        exact .inr hn

theorem shifts_insertAt (hk : Keyed schema (seen ++ rest))
    (hi : PrimaryKey.ofItem schema item = .ok k)
    (hP : ∀ x, P x = true →
      x ∈ seen ++ rest ∧ x ∈ MemoryStore.insertAt schema (seen ++ rest) k item)
    (h : Stands schema schema.attributes seen rest place) :
    ∃ seen' rest', MemoryStore.insertAt schema (seen ++ rest) k item = seen' ++ rest' ∧
      Stands schema schema.attributes seen' rest' place ∧
        Shifts schema P seen rest seen' rest' := by
  have hfilter := fun {part} (hpart : part ⊆ seen ++ rest) =>
    MemoryStore.filter_map_replace hk hi hP hpart
  by_cases hex : ∃ x ∈ seen ++ rest, PrimaryKey.ofItem schema x = .ok k
  · rw [MemoryStore.insertAt, if_pos hex]
    refine ⟨seen.map (MemoryStore.replace schema k item),
      rest.map (MemoryStore.replace schema k item), List.map_append, h.map fun x hx => ?_,
      hfilter (List.subset_append_left _ _), hfilter (List.subset_append_right _ _),
      fun y hy => ?_⟩
    · obtain ⟨l, hl⟩ := hk.typed x (List.mem_append_left _ hx)
      exact ⟨l, hl, (MemoryStore.ofItem_replace hi x).trans hl⟩
    · obtain ⟨x, hx, rfl⟩ := List.mem_map.1 hy
      exact .inl ⟨x, hx, (MemoryStore.ofItem_replace hi x).symm⟩
  · rw [MemoryStore.insertAt, if_neg hex]
    exact shifts_append (fun x hx hxk => hex ⟨x, hx, hxk⟩) hi (fun x hx => (hP x hx).1) h

theorem shifts_eraseAt
    (hP : ∀ x, P x = true → x ∈ MemoryStore.eraseAt schema (seen ++ rest) k)
    (hspared : ∀ c x, place = some (some c) → x ∈ seen → c.Names schema attributes x →
      PrimaryKey.ofItem schema x ≠ .ok k)
    (h : Stands schema attributes seen rest place) :
    ∃ seen' rest', MemoryStore.eraseAt schema (seen ++ rest) k = seen' ++ rest' ∧
      Stands schema attributes seen' rest' place ∧ Shifts schema P seen rest seen' rest' := by
  have hother : ∀ x, P x = true → PrimaryKey.ofItem schema x ≠ .ok k := fun x hx =>
    (MemoryStore.mem_eraseAt.1 (hP x hx)).2
  refine ⟨MemoryStore.eraseAt schema seen k, MemoryStore.eraseAt schema rest k,
    List.filter_append _ _, h.filter fun c x hp hx hc => ?_, MemoryStore.filter_eraseAt hother seen,
    MemoryStore.filter_eraseAt hother rest, fun y hy => ?_⟩
  · exact decide_eq_true (hspared c x hp hx hc)
  · exact .inl ⟨y, (MemoryStore.mem_eraseAt.1 hy).1, rfl⟩

end Places

/-! ### Pages and edits -/

/-- The next page of a traversal, or a call between the pages. -/
inductive Event where
  | page (call : PageCall)
  | edit (settings : PagingSettings) (command : Command)

/-- What happens to a traversal. -/
def step (m : MemoryStore) (r : BrowseRequest) (t : Traversal) : Event → Traversal
  | .page call => t.turn m r (.direct, call)
  | .edit settings command =>
    { t with state := (command.perform (m.browser settings) t.state).2 }

/-- The traversal after these events. -/
def after (m : MemoryStore) (r : BrowseRequest) (s : MemoryState) (events : List Event) :
    Traversal :=
  events.foldl (step m r) (begin s)

/-- Whether an event is no delete of the item that the traversal goes on behind. -/
def Spares (m : MemoryStore) (r : BrowseRequest) (t : Traversal) : Event → Prop
  | .edit settings (.delete table token) =>
    ∀ c, c ∈ t.place.join → ∀ x ∈ t.state.items, MemoryStore.covers x c.toItem = true →
      x ∈ (t.step m r (.edit settings (.delete table token))).state.items
  | _ => True

/-- Whether no event deletes the item that the traversal goes on behind at that time. -/
def AllSpare (m : MemoryStore) (r : BrowseRequest) : Traversal → List Event → Prop
  | _, [] => True
  | t, event :: events => Spares m r t event ∧ AllSpare m r (t.step m r event) events

instance decidableSpares (m : MemoryStore) (r : BrowseRequest) (t : Traversal) :
    (event : Event) → Decidable (Spares m r t event)
  | .edit settings (.delete table token) =>
    inferInstanceAs (Decidable (∀ c, c ∈ t.place.join → ∀ x ∈ t.state.items,
      MemoryStore.covers x c.toItem = true →
        x ∈ (t.step m r (.edit settings (.delete table token))).state.items))
  | .page _ | .edit _ (.put _ _) | .edit _ (.get _ _) | .edit _ (.browse _)
  | .edit _ (.describe _) | .edit _ (.template _) => .isTrue trivial

instance decidableAllSpare (m : MemoryStore) (r : BrowseRequest) :
    (t : Traversal) → (events : List Event) → Decidable (AllSpare m r t events)
  | _, [] => .isTrue trivial
  | t, event :: events =>
    @instDecidableAnd _ _ (decidableSpares m r t event)
      (decidableAllSpare m r (t.step m r event) events)

/-- Whether an item is in the store all the time. -/
def stays (m : MemoryStore) (r : BrowseRequest) (s : MemoryState) (events : List Event)
    (x : Item) : Bool :=
  events.inits.all fun past => x ∈ (after m r s past).state.items

/-- Whether there is an item with a key after these events. -/
def Present (m : MemoryStore) (r : BrowseRequest) (s : MemoryState) (events : List Event)
    (k : PrimaryKey) : Prop :=
  ∃ x ∈ (after m r s events).state.items, PrimaryKey.ofItem m.schema.key x = .ok k

/-- Whether a key was deleted and put again. -/
def Reborn (m : MemoryStore) (r : BrowseRequest) (s : MemoryState) (events : List Event)
    (k : PrimaryKey) : Prop :=
  ∃ first second third, first <+: second ∧ second <+: third ∧ third <+: events ∧
    Present m r s first k ∧ ¬Present m r s second k ∧ Present m r s third k

/-- The keys of the items returned so far. -/
def keys (schema : KeySchema) (t : Traversal) : List (Except InputError PrimaryKey) :=
  t.returned.map (PrimaryKey.ofItem schema)

variable {m : MemoryStore} {r : BrowseRequest} {s : MemoryState} {t : Traversal}
variable {P : Item → Bool} {once known : PrimaryKey → Prop} {items : List Item}

/-- What holds of a traversal at any time if `P` tells items that stay and `once` keys that do not
come back; the keys that were there so far are `known`. -/
structure Faithful (m : MemoryStore) (r : BrowseRequest) (P : Item → Bool)
    (once known : PrimaryKey → Prop) (items : List Item) (t : Traversal) : Prop where
  keyed : Keyed m.schema.key t.state.items
  kept : t.state.items.filter P = items.filter P
  stands : ∃ seen rest, t.state.items = seen ++ rest ∧
    Stands m.schema.key m.schema.key.attributes seen rest t.place ∧
    t.returned.filter P = (seen.filter P).filter m.isMatch ∧
    ∀ k, once k → .ok k ∈ t.keys m.schema.key → ∀ x ∈ rest, PrimaryKey.ofItem m.schema.key x ≠ .ok k
  single : ∀ k, once k → (t.keys m.schema.key).count (.ok k) ≤ 1
  known : ∀ k, .ok k ∈ t.keys m.schema.key → known k
  failures : r.table = m.schema.name → (∃ q, r.query m.schema = .ok q) →
    ∀ e ∈ t.failures, e.IsTransient

theorem faithful_begin (hk : Keyed m.schema.key items) (fetches : Nat) :
    Faithful m r P once known items (begin ⟨items, fetches⟩) where
  keyed := hk
  kept := rfl
  stands := ⟨[], items, rfl, .begin, rfl, by simp [begin, keys, returned]⟩
  single := by simp [begin, keys, returned]
  known := by simp [begin, keys, returned]
  failures := by simp [begin]

/-! ### A page -/

theorem count_append_le_one {α : Type} [DecidableEq α] {as bs : List α} {a : α}
    (hcount : as.count a ≤ 1) (hnodup : bs.Nodup) (h : a ∈ as → a ∉ bs) :
    (as ++ bs).count a ≤ 1 := by
  rw [List.count_append]
  by_cases ha : a ∈ as
  · rw [List.count_eq_zero_of_not_mem (h ha)]
    exact hcount
  · rw [List.count_eq_zero_of_not_mem ha, Nat.zero_add]
    exact List.nodup_iff_count_le_one.1 hnodup a

theorem keys_append (schema : KeySchema) (s : MemoryState) (pages : List (PageCall × BrowsePage))
    (p : PageCall × BrowsePage) (failures : List Error) :
    keys schema ⟨s, pages ++ [p], failures⟩ = keys schema ⟨s, pages, failures⟩ ++
      (p.2.items.map BrowseItem.item).map (PrimaryKey.ofItem schema) := by
  rw [keys, keys, returned_append, List.map_append]

/-- A call that fails is noted and moves nothing. -/
theorem Faithful.fail (h : Faithful m r P once known items t) {e : Error}
    (hs : s.items = t.state.items)
    (he : r.table = m.schema.name → (∃ q, r.query m.schema = .ok q) → e.IsTransient) :
    Faithful m r P once known items ⟨s, t.pages, t.failures ++ [e]⟩ where
  keyed := by
    rw [hs]
    exact h.keyed
  kept := by
    rw [hs]
    exact h.kept
  stands := by
    rw [hs]
    exact h.stands
  single := h.single
  known := h.known
  failures := by
    intro ht hq e' he'
    rcases List.mem_append.1 he' with he' | he'
    · exact h.failures ht hq e' he'
    · rw [List.mem_singleton.1 he']
      exact he ht hq

/-- A page returns the matching ones of some items before the place and moves it behind them. -/
theorem Faithful.advance (h : Faithful m r P once known items t) {seen more after : List Item}
    {p : PageCall × BrowsePage} (hs : s.items = t.state.items)
    (hitems : t.state.items = seen ++ (more ++ after))
    (hreturned : t.returned.filter P = (seen.filter P).filter m.isMatch)
    (hrest : ∀ k, once k → .ok k ∈ t.keys m.schema.key →
      ∀ x ∈ more ++ after, PrimaryKey.ofItem m.schema.key x ≠ .ok k)
    (hpage : p.2.items.map BrowseItem.item = more.filter m.isMatch)
    (hcont : Continues m.schema.key m.schema.key.attributes (seen ++ more) after p.2.next)
    (hknown : ∀ k, ∀ x ∈ t.state.items, PrimaryKey.ofItem m.schema.key x = .ok k → known k) :
    Faithful m r P once known items ⟨s, t.pages ++ [p], t.failures⟩ := by
  have hk := h.keyed
  rw [hitems] at hk
  have hfound : Keyed m.schema.key (more.filter m.isMatch) := by
    refine hk.sublist (List.filter_sublist.trans ?_)
    exact (List.sublist_append_left more after).trans (List.sublist_append_right seen _)
  have hmem : ∀ {k}, .ok k ∈ (more.filter m.isMatch).map (PrimaryKey.ofItem m.schema.key) →
      ∃ x ∈ more, PrimaryKey.ofItem m.schema.key x = .ok k := by
    intro k hkmem
    obtain ⟨x, hx, hxk⟩ := List.mem_map.1 hkmem
    exact ⟨x, List.mem_of_mem_filter hx, hxk⟩
  refine ⟨by rw [hs]; exact h.keyed, by rw [hs]; exact h.kept,
    ⟨seen ++ more, after, ?_, ?_, ?_, fun k hone hkmem x hx => ?_⟩, fun k hone => ?_,
    fun k hkmem => ?_, h.failures⟩
  · rw [hs, hitems, List.append_assoc]
  · rw [place_append]
    exact .behind hcont
  · rw [returned_append, hpage, List.filter_append, List.filter_append, List.filter_append,
      ← hreturned, List.filter_comm]
    rfl
  · rw [keys_append, hpage] at hkmem
    rcases List.mem_append.1 hkmem with hkmem | hkmem
    · exact hrest k hone hkmem x (List.mem_append_right _ hx)
    · obtain ⟨y, hy, hyk⟩ := hmem hkmem
      rw [← List.append_assoc] at hk
      rw [← hyk]
      exact (hk.ne_of_mem_append (List.mem_append_right _ hy) hx).symm
  · rw [keys_append, hpage]
    refine count_append_le_one (h.single k hone) hfound.distinct fun hold hkmem => ?_
    obtain ⟨y, hy, hyk⟩ := hmem hkmem
    exact hrest k hone hold y (List.mem_append_left _ hy) hyk
  · rw [keys_append, hpage] at hkmem
    rcases List.mem_append.1 hkmem with hkmem | hkmem
    · exact h.known k hkmem
    · obtain ⟨y, hy, hyk⟩ := hmem hkmem
      refine hknown k y ?_ hyk
      rw [hitems]
      exact List.mem_append_right _ (List.mem_append_left _ hy)

theorem Faithful.page (hd : m.schema.key.NamesDiffer) (hsel : r.selection = .table)
    (h : Faithful m r P once known items t)
    (hknown : ∀ k, ∀ x ∈ t.state.items, PrimaryKey.ofItem m.schema.key x = .ok k → known k)
    (call : PageCall) : Faithful m r P once known items (t.step m r (.page call)) := by
  rw [step]
  rcases hp : t.place with _ | start
  · rwa [turn_of_place_eq_none hp]
  obtain ⟨seen, rest, hitems, hstands, hreturned, hrest⟩ := h.stands
  rw [hp] at hstands
  have hk := h.keyed
  rw [hitems] at hk
  have hcarry : Handover.direct.carry start = .ok start := by
    cases start <;> rfl
  have hselection : (r.continueAt start call.pageSize).selection = .table := hsel
  rcases turn_cases m r (.direct, call) hp hcarry with
    ⟨e, s, hb, hturn⟩ | ⟨page, s, hb, hturn⟩
  · rw [hturn]
    refine h.fail (MemoryStore.items_of_browse hb) fun ht ⟨q, hq⟩ => ?_
    have hquery := BrowseRequest.query_continueAt hq start call.pageSize
    have hattributes := (BrowseRequest.query_eq_ok_cases hquery).1
    rw [hselection, TableSchema.cursorAttributes_table] at hattributes
    refine MemoryStore.transient_of_browse (r := r.continueAt start call.pageSize) ht hquery hd
      hk (fun x hx => ?_) call.pos hitems (hstands.startPosition hk) hb
    obtain ⟨k, hxk⟩ := hk.typed x (List.mem_append_right _ hx)
    rw [← Except.ok.inj hattributes]
    exact Item.bears_of_ofItem hxk
  · obtain ⟨attributes, hattributes, ⟨more, after, rfl, hmore, hcont⟩, -⟩ :=
      MemoryStore.advances_of_browse hd hk call.pos hitems (hstands.startPosition hk) hb
    rw [hselection, TableSchema.cursorAttributes_table] at hattributes
    cases hattributes
    rw [hturn]
    exact h.advance (MemoryStore.items_of_browse hb) hitems hreturned hrest hmore hcont hknown

/-! ### An edit -/

/-- A call between the pages moves the place with the item that it is told by. -/
theorem shifts_edit (hd : m.schema.key.NamesDiffer) (hk : Keyed m.schema.key t.state.items)
    {seen rest : List Item} (hitems : t.state.items = seen ++ rest)
    (hstands : Stands m.schema.key m.schema.key.attributes seen rest t.place)
    {settings : PagingSettings} {command : Command}
    (hspares : Spares m r t (.edit settings command))
    (hP : ∀ x, P x = true →
      x ∈ t.state.items ∧ x ∈ (t.step m r (.edit settings command)).state.items) :
    ∃ seen' rest', (t.step m r (.edit settings command)).state.items = seen' ++ rest' ∧
      Stands m.schema.key m.schema.key.attributes seen' rest' t.place ∧
        Shifts m.schema.key P seen rest seen' rest' := by
  cases Command.effect_of_keyed hd hk settings command with
  | none hsame _ => exact ⟨seen, rest, hsame.trans hitems, hstands, .refl seen rest⟩
  | insert hi hput _ =>
    rw [step, hput] at hP ⊢
    simp only [hitems] at hP hk ⊢
    exact shifts_insertAt hk hi hP hstands
  | @erase table token k _ hdelete _ =>
    have hstep : (t.step m r (.edit settings (.delete table token))).state.items =
        MemoryStore.eraseAt m.schema.key t.state.items k := by
      rw [step, hdelete]
    rw [hstep, hitems] at hP ⊢
    refine shifts_eraseAt (fun x hx => (hP x hx).2) (fun c x hp hx hc => ?_) hstands
    -- the named item is spared, so it is not the one that is erased
    have hmem : x ∈ t.state.items := by
      rw [hitems]
      exact List.mem_append_left _ hx
    have hjoin : c ∈ t.place.join := by
      rw [hp]
      rfl
    have hcovers := (MemoryStore.covers_ofEntries hc.nodup).2 hc.held
    have hspared := hspares c hjoin x hmem hcovers
    rw [hstep] at hspared
    exact (MemoryStore.mem_eraseAt.1 hspared).2

theorem Faithful.edit (hd : m.schema.key.NamesDiffer)
    (h : Faithful m r P once known items t) {settings : PagingSettings} {command : Command}
    (hspares : Spares m r t (.edit settings command))
    (hP : ∀ x, P x = true →
      x ∈ t.state.items ∧ x ∈ (t.step m r (.edit settings command)).state.items)
    (hback : ∀ k, once k → known k →
      (∀ x ∈ t.state.items, PrimaryKey.ofItem m.schema.key x ≠ .ok k) →
        ∀ x ∈ (t.step m r (.edit settings command)).state.items,
          PrimaryKey.ofItem m.schema.key x ≠ .ok k) :
    Faithful m r P once known items (t.step m r (.edit settings command)) := by
  obtain ⟨seen, rest, hitems, hstands, hreturned, hrest⟩ := h.stands
  obtain ⟨seen', rest', hitems', hstands', hshifts⟩ :=
    shifts_edit hd h.keyed hitems hstands hspares hP
  refine ⟨((Command.effect_of_keyed hd h.keyed settings command).refines h.keyed).1, ?_,
    ⟨seen', rest', hitems', hstands', ?_, fun k hone hkmem y hy => ?_⟩, h.single, h.known,
    h.failures⟩
  · rw [hitems', List.filter_append, hshifts.behind, hshifts.before, ← List.filter_append,
      ← hitems, h.kept]
  · rw [hshifts.behind]
    exact hreturned
  · rcases hshifts.keys y hy with ⟨x, hx, hxy⟩ | hnew
    · rw [← hxy]
      exact hrest k hone hkmem x hx
    · intro hyk
      rw [hyk, ← hitems] at hnew
      refine hback k hone (h.known k hkmem) hnew y ?_ hyk
      rw [hitems']
      exact List.mem_append_right _ hy

/-! ### Runs of pages and edits -/

theorem after_concat (events : List Event) (event : Event) :
    after m r s (events ++ [event]) = (after m r s events).step m r event :=
  List.foldl_concat _ _ _ _

/-- The item that the place is told by is spared at any time. -/
theorem AllSpare.spares {past later : List Event} {event : Event}
    (h : AllSpare m r t (past ++ event :: later)) : Spares m r (past.foldl (step m r) t) event := by
  induction past generalizing t with
  | nil => exact h.1
  | cons first past ih => exact ih h.2

theorem mem_of_stays {events past : List Event} (hpast : past <+: events) {x : Item}
    (h : stays m r s events x = true) : x ∈ (after m r s past).state.items :=
  of_decide_eq_true (List.all_eq_true.1 h past ((List.mem_inits _ _).2 hpast))

theorem Faithful.mono {known' : PrimaryKey → Prop} (h : Faithful m r P once known items t)
    (hknown : ∀ k, known k → known' k) : Faithful m r P once known' items t :=
  { h with known := fun k hk => hknown k (h.known k hk) }

theorem faithful_after (hd : m.schema.key.NamesDiffer) (hk : Keyed m.schema.key items)
    (hsel : r.selection = .table) {fetches : Nat} {events : List Event}
    (hspare : AllSpare m r (begin ⟨items, fetches⟩) events) (past : List Event)
    (hpast : past <+: events) :
    Faithful m r (stays m r ⟨items, fetches⟩ events)
      (fun k => ¬Reborn m r ⟨items, fetches⟩ events k)
      (fun k => ∃ first, first <+: past ∧ Present m r ⟨items, fetches⟩ first k) items
      (after m r ⟨items, fetches⟩ past) := by
  induction past using List.reverseRecOn with
  | nil => exact faithful_begin hk fetches
  | append_singleton past event ih =>
    have hbefore : past <+: past ++ [event] := List.prefix_append _ _
    have h := ih (hbefore.trans hpast)
    have hstep : Faithful m r (stays m r ⟨items, fetches⟩ events)
        (fun k => ¬Reborn m r ⟨items, fetches⟩ events k)
        (fun k => ∃ first, first <+: past ∧ Present m r ⟨items, fetches⟩ first k) items
        ((after m r ⟨items, fetches⟩ past).step m r event) := by
      cases event with
      | page call =>
        exact h.page hd hsel (fun k x hx hxk => ⟨past, List.prefix_refl _, x, hx, hxk⟩) call
      | edit settings command =>
        refine h.edit hd ?_ (fun x hx => ⟨mem_of_stays (hbefore.trans hpast) hx, ?_⟩) ?_
        · obtain ⟨later, rfl⟩ := hpast
          rw [List.append_assoc] at hspare
          exact hspare.spares
        · rw [← after_concat]
          exact mem_of_stays hpast hx
        · rintro k hone ⟨first, hfirst, hpresent⟩ habsent x hx hxk
          refine hone ⟨first, past, past ++ [.edit settings command], hfirst, hbefore, hpast,
            hpresent, ?_, x, ?_, hxk⟩
          · rintro ⟨y, hy, hyk⟩
            exact habsent y hy hyk
          · rwa [after_concat]
    rw [after_concat]
    exact hstep.mono fun k ⟨first, hfirst, hpresent⟩ => ⟨first, hfirst.trans hbefore, hpresent⟩

/-- However items are put and deleted between the pages of a traversal of a table, as long as the
item that the cursor names is not deleted: the matching items that are there all the time are
returned in their order, the first of them at any time and all of them, each once, when the
traversal is finished. No key is returned twice that was not deleted and put again. A call for a
page fails only for a reason that making it again can remove. -/
theorem returns_items_that_stay (hd : m.schema.key.NamesDiffer) (hk : Keyed m.schema.key items)
    (hsel : r.selection = .table) (fetches : Nat) (events : List Event)
    (hspare : AllSpare m r (begin ⟨items, fetches⟩) events) :
    let t := after m r ⟨items, fetches⟩ events
    let staying := items.filter (stays m r ⟨items, fetches⟩ events)
    t.state.items.filter (stays m r ⟨items, fetches⟩ events) = staying ∧
      t.returned.filter (stays m r ⟨items, fetches⟩ events) <+: staying.filter m.isMatch ∧
      (t.place = none →
        t.returned.filter (stays m r ⟨items, fetches⟩ events) = staying.filter m.isMatch ∧
          ∀ x, stays m r ⟨items, fetches⟩ events x = true → m.isMatch x = true →
            t.returned.count x = 1) ∧
      (∀ k, 2 ≤ (t.keys m.schema.key).count (.ok k) → Reborn m r ⟨items, fetches⟩ events k) ∧
      (r.table = m.schema.name → (∃ q, r.query m.schema = .ok q) →
        ∀ e ∈ t.failures, e.IsTransient) := by
  intro t staying
  have h := faithful_after hd hk hsel hspare events (List.prefix_refl _)
  obtain ⟨seen, rest, hitems, hstands, hreturned, -⟩ := h.stands
  have hparts : staying = (seen ++ rest).filter (stays m r ⟨items, fetches⟩ events) := by
    rw [← hitems, h.kept]
  have hdone : t.place = none →
      t.returned.filter (stays m r ⟨items, fetches⟩ events) = staying.filter m.isMatch := by
    intro hp
    have hrest : rest = [] := by
      rw [show (after m r ⟨items, fetches⟩ events).place = none from hp] at hstands
      exact hstands.rest_eq_nil
    rw [hparts, hrest, List.append_nil]
    exact hreturned
  refine ⟨h.kept, ?_, fun hp => ⟨hdone hp, fun x hx hmatch => ?_⟩, fun k hcount => ?_, h.failures⟩
  · rw [hparts, List.filter_append, List.filter_append, ← hreturned]
    exact List.prefix_append _ _
  · have hmem : x ∈ staying.filter m.isMatch :=
      List.mem_filter.2 ⟨List.mem_filter.2 ⟨mem_of_stays List.nil_prefix hx, hx⟩, hmatch⟩
    rw [← List.count_filter hx, hdone hp]
    exact List.count_eq_one_of_mem ((hk.nodup.filter _).filter _) hmem
  · by_contra hone
    have hsingle := h.single k hone
    change 2 ≤ (keys m.schema.key (after m r ⟨items, fetches⟩ events)).count (.ok k) at hcount
    omega

/-- All notes. -/
def allNotes : BrowseRequest where
  table := "notes"
  selection := .table
  criteria := []
  mode := .scan
  start := none
  pageSize := none

/-- The note that the first page ends with is replaced, a note before the place is deleted and one
is added; the second call for a page fails, and behind the place a note is deleted. -/
def eventsOfNotes : List Event :=
  [.page .single,
    .edit {} (.put "notes" (MemoryStore.note "a,b" "1" [("text", .scalar (.text "new"))])),
    .edit {} (.delete "notes" "a%2Cb,2"), .edit {} (.put "notes" (MemoryStore.note "d" "1" [])),
    .page .single, .page .single, .edit {} (.delete "notes" "a%2Cb,1"), .page .plain]

theorem returns_items_that_stay_of_notes :
    let s : MemoryState := ⟨MemoryStore.someNotes, 0⟩
    let t := after MemoryStore.notes allNotes s eventsOfNotes
    let staying := MemoryStore.someNotes.filter (stays MemoryStore.notes allNotes s eventsOfNotes)
    AllSpare MemoryStore.notes allNotes (begin s) eventsOfNotes ∧ t.place = none ∧
      t.state.items.filter (stays MemoryStore.notes allNotes s eventsOfNotes) = staying ∧
      t.returned.filter (stays MemoryStore.notes allNotes s eventsOfNotes) <+:
        staying.filter MemoryStore.notes.isMatch ∧
      (t.place = none →
        t.returned.filter (stays MemoryStore.notes allNotes s eventsOfNotes) =
            staying.filter MemoryStore.notes.isMatch ∧
          ∀ x, stays MemoryStore.notes allNotes s eventsOfNotes x = true →
            MemoryStore.notes.isMatch x = true → t.returned.count x = 1) ∧
      (∀ k, 2 ≤ (t.keys MemoryStore.notes.schema.key).count (.ok k) →
        Reborn MemoryStore.notes allNotes s eventsOfNotes k) ∧
      (allNotes.table = MemoryStore.notes.schema.name →
        (∃ q, allNotes.query MemoryStore.notes.schema = .ok q) →
          ∀ e ∈ t.failures, e.IsTransient) :=
  ⟨by decide +kernel, by decide +kernel,
    returns_items_that_stay (by decide) (by decide) rfl 0 eventsOfNotes (by decide +kernel)⟩

end Traversal

end Tablescope
