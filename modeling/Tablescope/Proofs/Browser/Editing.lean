import Mathlib.Data.List.Induction
import Tablescope.Proofs.Browser.Browse
import Tablescope.Proofs.Key.Token
import Tablescope.Proofs.Store.Lookup

/-!
# Editing by tokens

To whoever edits single items through the browser a store in memory is a map from keys: putting
updates it at the key of the item, a token leads to the key that it writes and to nothing else, and
whatever fails or only reads leaves every item where it is. This holds after any sequence of calls,
since no call makes two items have one key.
-/

namespace Tablescope

namespace MemoryStore

variable {m : MemoryStore} {settings : PagingSettings} {table token : String} {item : Item}
variable {s t : MemoryState}

/-! ### The calls one by one -/

theorem browser_put_apply :
    (m.browser settings).put table item s =
      if table = m.schema.name then
        match PrimaryKey.ofItem m.schema.key item with
        | .ok k => (.ok k, { s with items := putItem s.items k.toItem item })
        | .error e => (.error (.input e), s)
      else (.error (.schema (.tableNotFound table)), s) := by
  refine (describe_bind_apply _).trans ?_
  split
  · next ht =>
    cases hk : PrimaryKey.ofItem m.schema.key item with
    | error e => rfl
    | ok k =>
      simp only [browser, Action.ofInput, Action.ofExcept, Except.mapError_ok, Action.bind_apply,
        put_apply, if_pos ht, hk]
      rfl
  · rfl

theorem browser_get_apply (hd : m.schema.key.NamesDiffer) :
    (m.browser settings).get table token s =
      if table = m.schema.name then
        match PrimaryKey.ofToken m.schema.key token with
        | .ok k => (.ok (lookup m.schema.key s.items k), s)
        | .error e => (.error (.input e), s)
      else (.error (.schema (.tableNotFound table)), s) := by
  refine (describe_bind_apply _).trans ?_
  split
  · next ht =>
    cases hk : PrimaryKey.ofToken m.schema.key token with
    | error e => rfl
    | ok k =>
      simp only [browser, Action.ofInput, Action.ofExcept, Except.mapError_ok, Action.bind_apply,
        get_apply, if_pos ht, find?_covers hd (PrimaryKey.fits_of_ofToken hk)]
  · rfl

theorem browser_delete_apply :
    (m.browser settings).delete table token s =
      if table = m.schema.name then
        match PrimaryKey.ofToken m.schema.key token with
        | .ok k => (.ok (), { s with items := deleteItem s.items k.toItem })
        | .error e => (.error (.input e), s)
      else (.error (.schema (.tableNotFound table)), s) := by
  refine (describe_bind_apply _).trans ?_
  split
  · next ht =>
    cases hk : PrimaryKey.ofToken m.schema.key token with
    | error e => rfl
    | ok k =>
      simp only [browser, Action.ofInput, Action.ofExcept, Except.mapError_ok, Action.bind_apply,
        delete_apply, if_pos ht]
  · rfl

theorem keeps_browser_get :
    ((m.browser settings).get table token).Keeps MemoryState.items :=
  Action.keeps_bind keeps_describe fun _ =>
    Action.keeps_bind (Action.keeps_ofInput _) fun _ => keeps_get

theorem keeps_template : ((m.browser settings).template table).Keeps MemoryState.items :=
  Action.keeps_bind keeps_describe fun _ => Action.keeps_pure _

end MemoryStore

/-! ### Sequences of calls -/

/-- A call of the browser. -/
inductive Command where
  | put (table : String) (item : Item)
  | get (table token : String)
  | delete (table token : String)
  | browse (r : BrowseRequest)
  | describe (table : String)
  | template (table : String)

namespace Command

/-- Makes a call, whatever it gives. -/
def perform {σ : Type} (b : Browser σ) : Command → Action σ Unit
  | put table item => do let _ ← b.put table item
  | get table token => do let _ ← b.get table token
  | delete table token => b.delete table token
  | browse r => do let _ ← b.browse r
  | describe table => do let _ ← b.describe table
  | template table => do let _ ← b.template table

/-- The state after calls, those that fail included. -/
def performAll {σ : Type} (b : Browser σ) (s : σ) (commands : List Command) : σ :=
  commands.foldl (fun s command => (command.perform b s).2) s

/-- What a call does to a map from keys. -/
def onMap (schema : TableSchema) (f : PrimaryKey → Option Item) :
    Command → PrimaryKey → Option Item
  | put table item =>
    if table = schema.name then
      match PrimaryKey.ofItem schema.key item with
      | .ok k => Function.update f k (some item)
      | .error _ => f
    else f
  | delete table token =>
    if table = schema.name then
      match PrimaryKey.ofToken schema.key token with
      | .ok k => Function.update f k none
      | .error _ => f
    else f
  | _ => f

/-- Whether a call may change the items of a store. -/
def isWrite : Command → Bool
  | put _ _ | delete _ _ => true
  | _ => false

variable {m : MemoryStore} {settings : PagingSettings} {s t : MemoryState} {command : Command}

theorem keeps_perform (h : command.isWrite = false) :
    (command.perform (m.browser settings)).Keeps MemoryState.items := by
  have hdiscard : ∀ {α : Type} {x : Action MemoryState α}, x.Keeps MemoryState.items →
      (x >>= fun _ => pure ()).Keeps MemoryState.items := fun hx =>
    Action.keeps_bind hx fun _ => Action.keeps_pure _
  cases command with
  | put table item => cases h
  | delete table token => cases h
  | get table token => exact hdiscard MemoryStore.keeps_browser_get
  | browse r => exact hdiscard MemoryStore.keeps_browse
  | describe table => exact hdiscard MemoryStore.keeps_describe
  | template table => exact hdiscard MemoryStore.keeps_template

/-- A put writes under the key of the item, or it fails and does nothing. -/
theorem put_perform_cases (m : MemoryStore) (settings : PagingSettings) (s : MemoryState)
    (table : String) (item : Item) :
    (∃ k, PrimaryKey.ofItem m.schema.key item = .ok k ∧
      (put table item).perform (m.browser settings) s =
        (.ok (), { s with items := MemoryStore.putItem s.items k.toItem item }) ∧
      ∀ f, (put table item).onMap m.schema f = Function.update f k (some item)) ∨
      (∃ e, (put table item).perform (m.browser settings) s = (.error e, s)) ∧
        ∀ f, (put table item).onMap m.schema f = f := by
  rw [perform, Action.bind_apply, MemoryStore.browser_put_apply]
  simp only [onMap]
  by_cases ht : table = m.schema.name
  · simp only [if_pos ht]
    cases hk : PrimaryKey.ofItem m.schema.key item with
    | error e => exact .inr ⟨⟨_, rfl⟩, fun _ => rfl⟩
    | ok k => exact .inl ⟨k, rfl, rfl, fun _ => rfl⟩
  · simp only [if_neg ht]
    exact .inr ⟨⟨_, rfl⟩, fun _ => trivial⟩

/-- A delete erases what is under the key of the token, or it fails and does nothing. -/
theorem delete_perform_cases (m : MemoryStore) (settings : PagingSettings) (s : MemoryState)
    (table token : String) :
    (∃ k, PrimaryKey.ofToken m.schema.key token = .ok k ∧
      (delete table token).perform (m.browser settings) s =
        (.ok (), { s with items := MemoryStore.deleteItem s.items k.toItem }) ∧
      ∀ f, (delete table token).onMap m.schema f = Function.update f k none) ∨
      (∃ e, (delete table token).perform (m.browser settings) s = (.error e, s)) ∧
        ∀ f, (delete table token).onMap m.schema f = f := by
  rw [perform, MemoryStore.browser_delete_apply]
  simp only [onMap]
  by_cases ht : table = m.schema.name
  · simp only [if_pos ht]
    cases hk : PrimaryKey.ofToken m.schema.key token with
    | error e => exact .inr ⟨⟨_, rfl⟩, fun _ => rfl⟩
    | ok k => exact .inl ⟨k, rfl, rfl, fun _ => rfl⟩
  · simp only [if_neg ht]
    exact .inr ⟨⟨_, rfl⟩, fun _ => trivial⟩

/-- What a call may do: to the items, told as lists and as maps, and to whoever makes it. -/
inductive Effect (m : MemoryStore) (settings : PagingSettings) (s : MemoryState) :
    Command → Prop
  | none {command : Command} (hitems : (command.perform (m.browser settings) s).2.items = s.items)
    (hmap : ∀ f, command.onMap m.schema f = f) : Effect m settings s command
  | insert {command : Command} {k : PrimaryKey} {item : Item}
    (hk : PrimaryKey.ofItem m.schema.key item = .ok k)
    (h : command.perform (m.browser settings) s =
      (.ok (), { s with items := MemoryStore.insertAt m.schema.key s.items k item }))
    (hmap : ∀ f, command.onMap m.schema f = Function.update f k (some item)) :
    Effect m settings s command
  | erase {table token : String} {k : PrimaryKey}
    (hk : PrimaryKey.ofToken m.schema.key token = .ok k)
    (h : (delete table token).perform (m.browser settings) s =
      (.ok (), { s with items := MemoryStore.eraseAt m.schema.key s.items k }))
    (hmap : ∀ f, (delete table token).onMap m.schema f = Function.update f k Option.none) :
    Effect m settings s (delete table token)

/-- On keyed items a call puts one item, erases one or does nothing. -/
theorem effect_of_keyed (hd : m.schema.key.NamesDiffer) (h : Keyed m.schema.key s.items)
    (settings : PagingSettings) (command : Command) : Effect m settings s command := by
  rcases hw : command.isWrite with _ | _
  · refine .none (keeps_perform hw s) fun f => ?_
    cases command with
    | put _ _ | delete _ _ => cases hw
    | get _ _ | browse _ | describe _ | template _ => rfl
  · cases command with
    | put table item =>
      rcases put_perform_cases m settings s table item with
        ⟨k, hk, hp, hmap⟩ | ⟨⟨e, hp⟩, hmap⟩
      · rw [MemoryStore.putItem_eq hd h hk] at hp
        exact .insert hk hp hmap
      · exact .none (by rw [hp]) hmap
    | delete table token =>
      rcases delete_perform_cases m settings s table token with
        ⟨k, hk, hp, hmap⟩ | ⟨⟨e, hp⟩, hmap⟩
      · rw [MemoryStore.deleteItem_eq hd (PrimaryKey.fits_of_ofToken hk) h] at hp
        exact .erase hk hp hmap
      · exact .none (by rw [hp]) hmap
    | get _ _ | browse _ | describe _ | template _ => cases hw

/-- A call that fails leaves the items as they are. -/
theorem Effect.items_of_eq_error {e : Error} (h : Effect m settings s command)
    (he : (command.perform (m.browser settings) s).1 = .error e) :
    (command.perform (m.browser settings) s).2.items = s.items := by
  cases h with
  | none hitems _ => exact hitems
  | insert _ hp _ =>
    rw [hp] at he
    cases he
  | erase _ hp _ =>
    rw [hp] at he
    cases he

/-- A call keeps the items keyed and does to them as a map what it should. -/
theorem Effect.refines (hk : Keyed m.schema.key s.items) (h : Effect m settings s command) :
    Keyed m.schema.key (command.perform (m.browser settings) s).2.items ∧
      MemoryStore.lookup m.schema.key (command.perform (m.browser settings) s).2.items =
        command.onMap m.schema (MemoryStore.lookup m.schema.key s.items) := by
  cases h with
  | none hitems hmap =>
    rw [hitems, hmap]
    exact ⟨hk, rfl⟩
  | insert hi hp hmap =>
    rw [hp, hmap]
    exact ⟨MemoryStore.keyed_insertAt hk hi, MemoryStore.lookup_insertAt hk hi⟩
  | erase ht hp hmap =>
    rw [hp, hmap]
    exact ⟨MemoryStore.keyed_eraseAt hk _, MemoryStore.lookup_eraseAt hk _⟩

/-! ### Runs of calls -/

/-- After any calls the items have different keys, and as a map they are what the writes among the
calls made of the map at the beginning. -/
theorem performAll_refines (hd : m.schema.key.NamesDiffer) {items : List Item}
    (hk : Keyed m.schema.key items) (settings : PagingSettings) (fetches : Nat)
    (commands : List Command) :
    let s := performAll (m.browser settings) ⟨items, fetches⟩ commands
    Keyed m.schema.key s.items ∧
      MemoryStore.lookup m.schema.key s.items =
        commands.foldl (fun f command => command.onMap m.schema f)
          (MemoryStore.lookup m.schema.key items) := by
  induction commands using List.reverseRecOn with
  | nil => exact ⟨hk, rfl⟩
  | append_singleton commands command ih =>
    obtain ⟨hkeyed, hlookup⟩ := ih
    intro s
    obtain ⟨hkeyed', hlookup'⟩ :=
      (effect_of_keyed hd hkeyed settings command).refines hkeyed
    have hs : s = (command.perform (m.browser settings)
        (performAll (m.browser settings) ⟨items, fetches⟩ commands)).2 :=
      List.foldl_concat _ _ _ _
    rw [List.foldl_concat, ← hlookup, hs]
    exact ⟨hkeyed', hlookup'⟩

/-- What the calls give in a state, and what they do to it. -/
structure Edits (m : MemoryStore) (settings : PagingSettings) (s : MemoryState) : Prop where
  put : ∀ item k, PrimaryKey.ofItem m.schema.key item = .ok k →
    (m.browser settings).put m.schema.name item s =
      (.ok k, { s with items := MemoryStore.insertAt m.schema.key s.items k item })
  get : ∀ token k, PrimaryKey.ofToken m.schema.key token = .ok k →
    (m.browser settings).get m.schema.name token s =
      (.ok (MemoryStore.lookup m.schema.key s.items k), s)
  delete : ∀ token k, PrimaryKey.ofToken m.schema.key token = .ok k →
    (m.browser settings).delete m.schema.name token s =
      (.ok (), { s with items := MemoryStore.eraseAt m.schema.key s.items k })
  badItem : ∀ item e, PrimaryKey.ofItem m.schema.key item = .error e →
    (m.browser settings).put m.schema.name item s = (.error (.input e), s)
  badToken : ∀ token e, PrimaryKey.ofToken m.schema.key token = .error e →
    (m.browser settings).get m.schema.name token s = (.error (.input e), s) ∧
      (m.browser settings).delete m.schema.name token s = (.error (.input e), s)
  otherTable : ∀ table, table ≠ m.schema.name → ∀ item token,
    (m.browser settings).put table item s = (.error (.schema (.tableNotFound table)), s) ∧
      (m.browser settings).get table token s = (.error (.schema (.tableNotFound table)), s) ∧
        (m.browser settings).delete table token s = (.error (.schema (.tableNotFound table)), s)
  /-- Only a put or delete that succeeds changes the items. -/
  kept : ∀ command : Command,
    command.isWrite = false ∨ (∃ e, (command.perform (m.browser settings) s).1 = .error e) →
      (command.perform (m.browser settings) s).2.items = s.items

theorem edits_of_keyed (hd : m.schema.key.NamesDiffer) (h : Keyed m.schema.key s.items) :
    Edits m settings s where
  put item k hk := by
    rw [MemoryStore.browser_put_apply, if_pos rfl, hk, ← MemoryStore.putItem_eq hd h hk]
  get token k hk := by
    rw [MemoryStore.browser_get_apply hd, if_pos rfl, hk]
  delete token k hk := by
    rw [MemoryStore.browser_delete_apply, if_pos rfl, hk,
      ← MemoryStore.deleteItem_eq hd (PrimaryKey.fits_of_ofToken hk) h]
  badItem item e he := by
    rw [MemoryStore.browser_put_apply, if_pos rfl, he]
  badToken token e he := by
    rw [MemoryStore.browser_get_apply hd, MemoryStore.browser_delete_apply, if_pos rfl, if_pos rfl,
      he]
    exact ⟨rfl, rfl⟩
  otherTable table ht item token := by
    rw [MemoryStore.browser_put_apply, MemoryStore.browser_get_apply hd,
      MemoryStore.browser_delete_apply, if_neg ht, if_neg ht, if_neg ht]
    exact ⟨rfl, rfl, rfl⟩
  kept command := by
    rintro (hw | ⟨e, he⟩)
    · exact keeps_perform hw s
    · exact (effect_of_keyed hd h settings command).items_of_eq_error he

/-! ### Tokens on a page -/

/-- What the tokens on a page lead to, in the state that the page left. -/
structure Addresses (m : MemoryStore) (settings : PagingSettings) (page : BrowsePage)
    (s : MemoryState) : Prop where
  nodup : (page.items.map BrowseItem.token).Nodup
  mem : ∀ b ∈ page.items, b.item ∈ s.items
  get : ∀ b ∈ page.items, ∀ k, PrimaryKey.ofItem m.schema.key b.item = .ok k →
    k.isReadable = true →
      (m.browser settings).get m.schema.name b.token s = (.ok (some b.item), s)
  delete : ∀ b ∈ page.items, ∀ k, PrimaryKey.ofItem m.schema.key b.item = .ok k →
    k.isReadable = true →
      (m.browser settings).delete m.schema.name b.token s =
        (.ok (), { s with items := s.items.erase b.item })

theorem addresses_of_browse (hd : m.schema.key.NamesDiffer) (h : Keyed m.schema.key s.items)
    {r : BrowseRequest} {page : BrowsePage}
    (hpage : (m.browser settings).browse r s = (.ok page, t)) : Addresses m settings page t := by
  have hitems := MemoryStore.items_of_browse hpage
  have hsub : (page.items.map BrowseItem.item).Sublist t.items := by
    rw [hitems]
    exact MemoryStore.sublist_of_browse hd h hpage
  have hmem : ∀ b ∈ page.items, b.item ∈ t.items := fun b hb =>
    hsub.subset (List.mem_map_of_mem hb)
  rw [← hitems] at h
  -- a readable token is read as the key of the item that it stands beside
  have htoken : ∀ b ∈ page.items, ∀ k, PrimaryKey.ofItem m.schema.key b.item = .ok k →
      k.isReadable = true → PrimaryKey.ofToken m.schema.key b.token = .ok k := by
    intro b hb k hk hr
    obtain ⟨l, hl, ht⟩ := MemoryStore.token_of_browse hpage hb
    rw [hk] at hl
    cases hl
    rw [← ht]
    exact PrimaryKey.ofToken_token (PrimaryKey.ofItem_eq_ok_iff.1 hk).1 hr
  have hedits : Edits m settings t := edits_of_keyed hd h
  refine ⟨?_, hmem, fun b hb k hk hr => ?_, fun b hb k hk hr => ?_⟩
  · have hnodup : page.items.Nodup := .of_map _ (h.nodup.sublist hsub)
    refine hnodup.map_on fun b hb c hc hbc => ?_
    obtain ⟨k, hk, htb⟩ := MemoryStore.token_of_browse hpage hb
    obtain ⟨l, hl, htc⟩ := MemoryStore.token_of_browse hpage hc
    have hkl : k = l := PrimaryKey.eq_of_token_eq (PrimaryKey.ofItem_eq_ok_iff.1 hk).1
      (PrimaryKey.ofItem_eq_ok_iff.1 hl).1 (by rw [htb, htc, hbc])
    have hitem : b.item = c.item := h.eq_of_key_eq (hmem b hb) (hmem c hc) (by rw [hk, hl, hkl])
    obtain ⟨bt, bi⟩ := b
    obtain ⟨ct, ci⟩ := c
    rw [BrowseItem.mk.injEq]
    exact ⟨hbc, hitem⟩
  · rw [hedits.get _ _ (htoken b hb k hk hr), (MemoryStore.lookup_eq_some_iff h).2 ⟨hmem b hb, hk⟩]
  · rw [hedits.delete _ _ (htoken b hb k hk hr), MemoryStore.eraseAt_eq_erase h (hmem b hb) hk]

/-- After any calls, failed ones included, a store in memory is a map from keys: no two items have
one key, and the items under the keys are what the puts and deletes made of those at the beginning.
A put writes under the key of its item and gives this key, a get finds and a delete erases what is
under the key that a token is read as, no other item moves, and nothing else changes any item. The
items of a page have different tokens, and each that can be read back leads to its item. -/
theorem edits_keyed_items (hd : m.schema.key.NamesDiffer) {items : List Item}
    (hk : Keyed m.schema.key items) (fetches : Nat) (commands : List Command) :
    let s := performAll (m.browser settings) ⟨items, fetches⟩ commands
    Keyed m.schema.key s.items ∧
      MemoryStore.lookup m.schema.key s.items =
        commands.foldl (fun f command => command.onMap m.schema f)
          (MemoryStore.lookup m.schema.key items) ∧
      Edits m settings s ∧
      ∀ r page t, (m.browser settings).browse r s = (.ok page, t) →
        Addresses m settings page t := by
  intro s
  obtain ⟨hkeyed, hlookup⟩ := performAll_refines hd hk settings fetches commands
  exact ⟨hkeyed, hlookup, edits_of_keyed hd hkeyed, fun r page t hpage =>
    addresses_of_browse hd hkeyed hpage⟩

/-- Among the notes one is replaced, one added and one deleted by its token; two further calls
fail. -/
def editsOfNotes : List Command :=
  [.put "notes" (MemoryStore.note "c" "1" [("text", .scalar (.text "new"))]),
    .put "notes" (MemoryStore.note "c" "2" []), .delete "notes" "a%2Cb,1", .delete "notes" "a,b,1",
    .put "letters" (MemoryStore.note "c" "3" [])]

theorem edits_keyed_items_of_notes :
    let b := MemoryStore.notes.browser {}
    let s := performAll b ⟨MemoryStore.someNotes, 0⟩ editsOfNotes
    s.items = [MemoryStore.note "a,b" "2" [("done", .bool true)],
        MemoryStore.note "c" "1" [("text", .scalar (.text "new"))], MemoryStore.note "c" "2" []] ∧
      Keyed MemoryStore.notes.schema.key s.items ∧
      MemoryStore.lookup MemoryStore.notes.schema.key s.items =
        editsOfNotes.foldl (fun f command => command.onMap MemoryStore.notes.schema f)
          (MemoryStore.lookup MemoryStore.notes.schema.key MemoryStore.someNotes) ∧
      Edits MemoryStore.notes {} s ∧
      ∀ r page t, b.browse r s = (.ok page, t) → Addresses MemoryStore.notes {} page t :=
  ⟨by decide +kernel, edits_keyed_items (by decide) (by decide) 0 editsOfNotes⟩

end Command

end Tablescope
