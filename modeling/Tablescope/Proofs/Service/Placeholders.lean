import Tablescope.Proofs.Browser.Requests
import Tablescope.Proofs.Filter.Occurrence
import Tablescope.Proofs.Service.Exchange
import Tablescope.Proofs.Service.Request

/-!
# Placeholders in requests

A service rejects a request in whose expressions a placeholder occurs that it does not define, and
also one that defines a placeholder that does not occur. The requests of the browser are neither: a
scan sends no key condition, but since its criteria were compiled for no key there is none.
-/

namespace Tablescope

namespace Service

variable {r : FetchRequest} {mark : Char}

namespace Request

/-- The placeholders with a mark that occur in the expressions of a request. -/
def placeholders (r : Request) (mark : Char) : List String :=
  ["KeyConditionExpression", "FilterExpression"].flatMap fun name =>
    occurrences mark (((r.member? name).bind Json.string?).getD "")

/-- The names that a map in a request defines. -/
def defined (r : Request) (name : String) : List String :=
  (((r.member? name).bind Json.object?).getD []).map Prod.fst

/-- Whether a request defines the placeholders that occur in its expressions and no others. -/
structure IsClosed (r : Request) : Prop where
  names : (r.placeholders '#').Perm (r.defined "ExpressionAttributeNames")
  values : (r.placeholders ':').Perm (r.defined "ExpressionAttributeValues")

end Request

theorem getD_string? (o : Option String) : ((o.map Json.string).bind Json.string?).getD "" =
    o.getD "" := by
  cases o with
  | none => rfl
  | some s => rfl

/-- All placeholders of a reading are sent, if no key condition is held back. -/
theorem placeholders_fetchRequest (hm : mark ∉ " AND ".toList)
    (h : r.mode = .scan → r.expressions.keyConditions = []) :
    (fetchRequest r).placeholders mark = r.expressions.placeholders mark := by
  have hfilter : (fetchRequest r).member? "FilterExpression" = r.expressions.filter?.map .string :=
    member?_setMembers (by simp) (by simp)
  have hkey : (fetchRequest r).member? "KeyConditionExpression" =
      r.expressions.keyCondition?.map .string := by
    refine member?_setMembers (by simp) ?_
    cases hmode : r.mode with
    | scan =>
      rw [ExpressionSet.keyCondition?, h hmode]
      simp [Clause.join?]
    | query => simp
  rw [Request.placeholders, List.flatMap_cons, List.flatMap_cons, List.flatMap_nil,
    List.append_nil, hkey, hfilter, getD_string?, getD_string?,
    ExpressionSet.occurrences_expressions hm]

/-- Of a map that is sent unless it has no entries, the names arrive. -/
theorem map_fst_object? {α : Type} (m : NameMap α) (f : α → Json) :
    (((if m.isEmpty then none else some (.object (m.toList.map fun e => (e.1, f e.2)))).bind
      Json.object?).getD []).map Prod.fst = m.names := by
  split
  · next hempty =>
    rw [NameMap.names, List.isEmpty_iff.1 hempty]
    rfl
  · exact List.map_map

theorem defined_names_fetchRequest (r : FetchRequest) :
    (fetchRequest r).defined "ExpressionAttributeNames" = r.expressions.names.names := by
  have hmember : (fetchRequest r).member? "ExpressionAttributeNames" =
      namesJson? r.expressions.names := member?_setMembers (by simp) (by simp)
  rw [Request.defined, hmember]
  exact map_fst_object? _ _

theorem defined_values_fetchRequest (r : FetchRequest) :
    (fetchRequest r).defined "ExpressionAttributeValues" = r.expressions.values.names := by
  have hmember : (fetchRequest r).member? "ExpressionAttributeValues" =
      valuesJson? r.expressions.values := member?_setMembers (by simp) (by simp)
  rw [Request.defined, hmember]
  exact map_fst_object? _ _

theorem isClosed_fetchRequest {criteria : List Criterion} (he : r.expressions.IsExact criteria)
    (h : r.mode = .scan → r.expressions.keyConditions = []) : (fetchRequest r).IsClosed where
  names := by
    rw [placeholders_fetchRequest (by decide) h, defined_names_fetchRequest]
    exact he.hash
  values := by
    rw [placeholders_fetchRequest (by decide) h, defined_values_fetchRequest]
    exact he.colon

/-- A request for the schema of a table has no placeholders. -/
theorem isClosed_describe (table : String) :
    (⟨.describeTable, [("TableName", .string table)]⟩ : Request).IsClosed :=
  ⟨.refl _, .refl _⟩

end Service

namespace Browser

open Service

variable {τ : Type}

/-- Compiled criteria bind exactly the placeholders in their clauses, each once, and whatever an
endpoint replies, so does every request that a page sends. -/
theorem binds_exactly (endpoint : Endpoint τ) (settings : PagingSettings) (r : BrowseRequest)
    (t : τ) :
    (∀ (criteria : List Criterion) (active : Option KeySchema) (e : ExpressionSet),
        compile criteria active = .ok e → e.IsExact criteria) ∧
      ∀ x ∈ ((⟨Service.store endpoint.recorded, settings⟩ : Browser _).browse r (t, [])).2.2,
        x.request.IsClosed := by
  refine ⟨fun _ _ _ h => ExpressionSet.isExact_of_compile h, fun x hx => ?_⟩
  have hmakes : ((⟨Service.store endpoint.recorded, settings⟩ : Browser _).browse r).Makes
      (fun x => x.request.IsClosed) (t, []) := by
    refine makes_browse_of (makes_describe endpoint r.table fun x hx => ?_)
      (fun schema u q _ hq limit start v => makes_fetch endpoint fun x hx => ?_) settings
    · rw [hx]
      exact isClosed_describe r.table
    · obtain ⟨key, -, hcompile, -⟩ := BrowseRequest.compile_of_query hq
      rw [hx]
      refine isClosed_fetchRequest (ExpressionSet.isExact_of_compile hcompile) fun hscan => ?_
      have hmode : r.mode = .scan := (BrowseRequest.mode_of_query hq).symm.trans hscan
      rw [BrowseRequest.keyFor, hmode] at hcompile
      exact ExpressionSet.keyConditions_of_compile_none hcompile
  obtain ⟨xs, hlog, hclosed⟩ := hmakes
  rw [show _ = xs from hlog] at hx
  exact hclosed x hx

/-- Replies that describe a table of notes, keyed by user and number, and then give no notes. -/
def notesService : Replay where
  replies := [
    ⟨200, "\x7b\"Table\":\x7b\"TableName\":\"notes\",\"AttributeDefinitions\":[" ++
      "\x7b\"AttributeName\":\"user\",\"AttributeType\":\"S\"\x7d," ++
      "\x7b\"AttributeName\":\"no\",\"AttributeType\":\"N\"\x7d],\"KeySchema\":[" ++
      "\x7b\"AttributeName\":\"user\",\"KeyType\":\"HASH\"\x7d," ++
      "\x7b\"AttributeName\":\"no\",\"KeyType\":\"RANGE\"\x7d]\x7d\x7d"⟩,
    ⟨200, ""⟩]
  requests := []

/-- The criteria of the open notes, compiled. -/
def openExpressions : ExpressionSet where
  conditions := [⟨0, "done", .absent, .none, false⟩,
    ⟨1, "no", .between, .pair (.number "1") (.number "5"), true⟩,
    ⟨2, "user", .equal, .one (.text "c"), true⟩]

theorem binds_exactly_of_notes :
    let outcome := (⟨Service.store Endpoint.replay.recorded, {}⟩ : Browser _).browse openNotes
      (notesService, [])
    compile openNotes.criteria (some MemoryStore.notes.schema.key) = .ok openExpressions ∧
      openExpressions.IsExact openNotes.criteria ∧
      outcome.2.2.map (·.request.placeholders ':') = [[], [":key1_start", ":key1_end", ":key2"]] ∧
      ∀ x ∈ outcome.2.2, x.request.IsClosed := by
  intro outcome
  have hcompile : compile openNotes.criteria (some MemoryStore.notes.schema.key) =
      .ok openExpressions := by
    decide +kernel
  obtain ⟨hexact, hclosed⟩ := binds_exactly Endpoint.replay {} openNotes notesService
  exact ⟨hcompile, hexact _ _ _ hcompile, by decide +kernel, hclosed⟩

end Browser

end Tablescope
