import Tablescope.Proofs.Cursor.Names
import Tablescope.Proofs.Store.Logged
import Tablescope.Service.Client

/-!
# Exchanges with an endpoint

All that goes over the wire is a list of exchanges, each a request with the reply to it, if there is
one. What a call comes to depends on its own exchange only, and so does what a reading comes to.
-/

namespace Tablescope.Service

variable {τ : Type}

/-- A request and what was replied to it. -/
structure Exchange where
  request : Request
  /-- The reply, if there was one. -/
  reply : Option Reply

/-- The endpoint with a list of all exchanges beside its state. -/
def Endpoint.recorded (endpoint : Endpoint τ) : Endpoint (τ × List Exchange) where
  send request s :=
    let (reply, t) := endpoint.send request s.1
    (reply, t, s.2 ++ [⟨request, reply⟩])

namespace Exchange

variable {x : Exchange} {c : Content} {b : Batch} {key : Item} {last : Cursor}

/-- What the reply says, if it succeeds. -/
def content? (x : Exchange) : Option Content := x.reply.bind (·.content? x.request.operation)

/-- The items in the reply. -/
def items (x : Exchange) : List Item := x.content?.elim [] Service.items

/-- The last key in the reply. -/
def lastKey? (x : Exchange) : Option Item :=
  x.content?.bind fun c => (c.get "LastEvaluatedKey").item?

/-- What a call makes of its exchange. -/
def read (x : Exchange) : Except Error Content :=
  match x.content? with
  | some c => .ok c
  | none => .error (.transport x.request.operation.name
      (if x.reply.isNone then "no reply" else "not the reply that was asked for"))

/-- What a reading makes of its exchange. -/
def batch (x : Exchange) : Except Error Batch := do
  let c ← x.read
  let last ← (lastCursor c).mapError .input
  return { items := Service.items c, last }

theorem read_eq_ok_iff : x.read = .ok c ↔ x.content? = some c := by
  unfold read
  cases x.content? <;> simp

theorem batch_of_content (h : x.content? = some c) :
    x.batch = (lastCursor c).mapError .input >>= fun last => .ok ⟨x.items, last⟩ := by
  rw [batch, read_eq_ok_iff.2 h, items, h]
  rfl

theorem lastKey?_of_content (h : x.content? = some c) :
    x.lastKey? = (c.get "LastEvaluatedKey").item? := by
  rw [lastKey?, h]
  rfl

/-- Whether the reply succeeds and has no last key, or one without attributes. -/
def IsExhausted (x : Exchange) : Prop :=
  x.content? ≠ none ∧ ∀ key ∈ x.lastKey?, key.isEmpty = true

/-- A reply without a last key ends what is read. -/
theorem batch_of_isExhausted (h : x.IsExhausted) : x.batch = .ok ⟨x.items, none⟩ := by
  obtain ⟨hreply, hkey⟩ := h
  obtain ⟨c, hc⟩ := Option.ne_none_iff_exists'.1 hreply
  have hnone : x.lastKey?.filter (!·.isEmpty) = none :=
    Option.filter_eq_none_iff.2 fun key hk => by simp [hkey key hk]
  rw [batch_of_content hc, lastCursor, ← lastKey?_of_content hc, hnone]
  rfl

theorem batch_of_lastKey? (h : x.lastKey? = some key) (hkey : key.isEmpty = false) :
    x.batch = (Cursor.ofMap key).mapError .input >>= fun last => .ok ⟨x.items, some last⟩ := by
  obtain ⟨c, hc, -⟩ := Option.bind_eq_some_iff.1 h
  rw [batch_of_content hc, lastCursor, ← lastKey?_of_content hc, h, Option.filter_some, hkey]
  simp only [Bool.not_false, if_true]
  cases Cursor.ofMap key with
  | error fault => rfl
  | ok last => rfl

/-- A last key with anything else than scalars makes no continuation. -/
theorem batch_of_not_scalar (h : x.lastKey? = some key) {e : String × Value} (he : e ∈ key.toList)
    (hscalar : e.2.scalar? = none) :
    ∃ e ∈ key.toList, e.2.scalar? = none ∧
      x.batch = .error (.input (.invalidCursor (.notAScalar e.1))) := by
  have hkey : key.isEmpty = false := List.isEmpty_eq_false_iff.2 (List.ne_nil_of_mem he)
  rcases hmap : Cursor.ofMap key with fault | last
  · obtain ⟨f, hf, hnone, rfl⟩ := Cursor.ofMap_eq_error_cases hmap
    refine ⟨f, hf, hnone, ?_⟩
    rw [batch_of_lastKey? h hkey, hmap]
    rfl
  · exact absurd hscalar (Cursor.scalar?_of_ofMap hmap e he)

theorem batch_eq_ok_iff :
    x.batch = .ok b ↔ ∃ c, x.content? = some c ∧ lastCursor c = .ok b.last ∧ b.items = x.items := by
  constructor
  · intro h
    obtain ⟨c, hread, -⟩ := Except.bind_eq_ok_iff.1 h
    have hc := read_eq_ok_iff.1 hread
    rw [batch_of_content hc] at h
    obtain ⟨last, hlast, hb⟩ := Except.bind_eq_ok_iff.1 h
    cases hb
    exact ⟨c, hc, Except.mapError_eq_ok_iff.1 hlast, rfl⟩
  · rintro ⟨c, hc, hlast, hitems⟩
    rw [batch_of_content hc, hlast, ← hitems]
    rfl

theorem items_of_batch (h : x.batch = .ok b) : b.items = x.items := by
  obtain ⟨c, -, -, hitems⟩ := batch_eq_ok_iff.1 h
  exact hitems

/-- Where a reading gives a place to go on from, this is the last key in the reply. -/
theorem exists_lastKey?_of_batch (h : x.batch = .ok b) (hlast : b.last = some last) :
    ∃ key, x.lastKey? = some key ∧ key.isEmpty = false ∧ Cursor.ofMap key = .ok last := by
  obtain ⟨c, hc, hcursor, -⟩ := batch_eq_ok_iff.1 h
  rw [hlast, lastCursor, ← lastKey?_of_content hc] at hcursor
  split at hcursor
  · cases hcursor
  · next key hkey =>
    obtain ⟨hkey, hempty⟩ := Option.filter_eq_some_iff.1 hkey
    obtain ⟨last', hmap, hlast'⟩ := Except.map_eq_ok_iff.1 hcursor
    cases hlast'
    exact ⟨key, hkey, by simpa using hempty, hmap⟩

end Exchange

/-! ### Calls -/

/-- A call comes to what is made of its exchange. -/
theorem call_recorded (endpoint : Endpoint τ) (request : Request) (s : τ × List Exchange) :
    ∃ x t, x.request = request ∧ call endpoint.recorded request s = (x.read, t, s.2 ++ [x]) := by
  rcases hsend : endpoint.send request s.1 with ⟨_ | reply, t⟩
  · refine ⟨⟨request, none⟩, t, rfl, ?_⟩
    simp only [call, Endpoint.recorded, hsend]
    rfl
  · refine ⟨⟨request, some reply⟩, t, rfl, ?_⟩
    simp only [call, Endpoint.recorded, hsend, Exchange.read, Exchange.content?, Option.bind_some]
    cases reply.content? request.operation with
    | none => rfl
    | some c => rfl

theorem fetch_recorded (endpoint : Endpoint τ) {r : FetchRequest} (h : Text.trim r.table ≠ "")
    (s : τ × List Exchange) :
    ∃ x t, x.request = fetchRequest r ∧
      (store endpoint.recorded).fetch r s = (x.batch, t, s.2 ++ [x]) := by
  obtain ⟨x, t, hx, hcall⟩ := call_recorded endpoint (fetchRequest r) s
  refine ⟨x, t, hx, ?_⟩
  simp only [store, callTable, if_neg h]
  rw [Action.bind_apply, hcall, Exchange.batch]
  rcases x.read with e | c
  · rfl
  · change (Action.ofInput (lastCursor c) >>= fun last => pure (⟨items c, last⟩ : Batch)) _ =
      ((lastCursor c).mapError Error.input >>= fun last => .ok (⟨items c, last⟩ : Batch), _)
    cases lastCursor c with
    | error fault => rfl
    | ok last => rfl

/-- About a table whose name is blank nothing is sent. -/
theorem fetch_of_blank (endpoint : Endpoint τ) {r : FetchRequest} (h : Text.trim r.table = "")
    (t : τ) : ∃ e, (store endpoint).fetch r t = (.error e, t) := by
  simp only [store, callTable, if_pos h]
  exact ⟨_, rfl⟩

/-! ### What operations send -/

section

variable {P : Exchange → Prop} {s : τ × List Exchange} {request : Request}

theorem makes_callTable (endpoint : Endpoint τ) (table : String)
    (h : ∀ x : Exchange, x.request = request → P x) :
    (callTable endpoint.recorded table request).Makes P s := by
  unfold callTable
  split
  · exact Action.makes_fail _
  · obtain ⟨x, t, hx, hcall⟩ := call_recorded endpoint request s
    exact ⟨[x], by rw [hcall], by simpa using h x hx⟩

theorem makes_describe (endpoint : Endpoint τ) (table : String)
    (h : ∀ x : Exchange, x.request = ⟨.describeTable, [("TableName", .string table)]⟩ → P x) :
    ((store endpoint.recorded).describe table).Makes P s := by
  refine Action.makes_bind (makes_callTable endpoint table h) fun c t _ => ?_
  split
  · exact Action.makes_fail _
  · exact Action.makes_ofExcept _

theorem makes_fetch (endpoint : Endpoint τ) {r : FetchRequest}
    (h : ∀ x : Exchange, x.request = fetchRequest r → P x) :
    ((store endpoint.recorded).fetch r).Makes P s :=
  Action.makes_bind (makes_callTable endpoint r.table h) fun _ _ _ =>
    Action.makes_bind (Action.makes_ofInput _) fun _ _ _ => Action.makes_pure _

end

end Tablescope.Service
