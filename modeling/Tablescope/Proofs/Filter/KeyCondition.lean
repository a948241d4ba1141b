import Mathlib.Data.List.Nodup
import Tablescope.Proofs.Filter.Meaning

/-!
# The key conditions of compiled criteria

Each criterion becomes one clause, which speaks of its attribute and of the operands that its value
writes. Criteria that are compiled without a key are all filters. Of criteria that are compiled for
a key those that suit it are key conditions; they are about different attributes and have the types
of the key. So if some criterion compares the hash attribute for equality, there is this one
condition on the hash attribute and at most one more, which is on the range attribute.
-/

namespace Tablescope

/-! ### Roles -/

/-- The attribute of a role is the hash attribute, or else the range attribute, if its name is
another. -/
theorem KeySchema.role?_eq_some_cases {key : KeySchema} {name : String} {role : KeyRole}
    {a : Attribute} (h : key.role? name = some (role, a)) :
    a.name = name ∧ (role = .hash ∧ a = key.hash ∨
      role = .range ∧ key.range = some a ∧ a.name ≠ key.hash.name) := by
  unfold role? at h
  split at h
  · next hn =>
    cases h
    exact ⟨hn, .inl ⟨rfl, rfl⟩⟩
  · next hn =>
    obtain ⟨b, hb, h⟩ := Option.map_eq_some_iff.1 h
    cases h
    rw [Option.filter_eq_some_iff, decide_eq_true_eq] at hb
    exact ⟨hb.2, .inr ⟨rfl, hb.1, fun hab => hn (hab.symm.trans hb.2)⟩⟩

/-- The operators that a key condition on the range attribute may have. -/
def Operator.rangeOperators : List Operator :=
  [equal, less, lessOrEqual, greater, greaterOrEqual, beginsWith, between]

theorem Operator.eq_equal_of_placement_hash {o : Operator} (h : o.placement .hash = .keyCondition) :
    o = .equal := by
  cases o <;> cases h
  rfl

theorem Operator.mem_rangeOperators_of_placement_range {o : Operator}
    (h : o.placement .range = .keyCondition) : o ∈ rangeOperators := by
  cases o <;> cases h <;> decide

namespace Criterion

/-- The operands have the type in which the value is meant. -/
theorem type_of_takes {c : Criterion} {vs : List Scalar} (h : c.Takes vs) :
    ∀ v ∈ vs, v.type = c.type := by
  obtain ⟨o, ho, rfl⟩ := takes_iff.1 h
  intro v hv
  rcases ha : c.operator.arity with _ | _ | _
  · rw [operands_of_arity_none ha] at ho
    cases ho
    cases hv
  · obtain ⟨w, hw, rfl⟩ := (operands_of_arity_one ha).1 ho
    rw [List.mem_singleton.1 hv]
    exact ScalarType.type_of_coerce? hw
  · obtain ⟨x, y, l, r, -, hl, hr, rfl⟩ := (operands_of_arity_two ha).1 ho
    rcases List.mem_pair.1 hv with rfl | rfl
    · exact ScalarType.type_of_coerce? hl
    · exact ScalarType.type_of_coerce? hr

/-! ### Clauses of criteria -/

/-- The clause of the criterion at a position. -/
def clauseAt (p : Criterion × Nat) : Clause := ⟨p.2, p.1.operator⟩

/-- What the placeholders of the operands of the criterion at a position stand for. -/
def bindingsAt (p : Criterion × Nat) : List (String × Scalar) := (condition none p).bindings

/-- The clauses of criteria, in order. -/
def clauses (criteria : List Criterion) : List Clause := criteria.zipIdx.map clauseAt

/-- The clauses of criteria are numbered. -/
theorem map_index_clauses (criteria : List Criterion) :
    (clauses criteria).map Clause.index = List.range criteria.length := by
  rw [clauses, List.map_map, show Clause.index ∘ clauseAt = Prod.snd from rfl, List.zipIdx_map_snd,
    List.range_eq_range']

theorem pairwise_clauses (criteria : List Criterion) :
    (clauses criteria).Pairwise (·.index < ·.index) := by
  rw [← List.pairwise_map (f := Clause.index), map_index_clauses]
  exact List.pairwise_lt_range

end Criterion

namespace ExpressionSet

/-- Whether the clause of each criterion speaks of its attribute and of the operands that its value
writes. -/
def Speaks (e : ExpressionSet) (criteria : List Criterion) : Prop :=
  ∀ p ∈ criteria.zipIdx, ∃ vs, p.1.Takes vs ∧ e.Says (Criterion.clauseAt p) p.1.name vs

/-- Whether a set has key conditions for a reading by this key: one that compares the hash attribute
with a value of its type, and at most one more, which compares the range attribute with values of
its type. -/
def SelectsBy (e : ExpressionSet) (key : KeySchema) : Prop :=
  ∃ (hash : Clause) (range : Option Clause),
    e.keyConditions.Perm (hash :: range.toList) ∧
      (hash.operator = .equal ∧ ∃ v, e.Says hash key.hash.name [v] ∧ v.type = key.hash.type) ∧
      ∀ c ∈ range, ∃ a vs, key.range = some a ∧ a.name ≠ key.hash.name ∧
        c.operator ∈ Operator.rangeOperators ∧ e.Says c a.name vs ∧ ∀ v ∈ vs, v.type = a.type

variable {criteria : List Criterion} {active : Option KeySchema} {key : KeySchema}
variable {e : ExpressionSet}

theorem keyConditions_of_compile (h : compile criteria active = .ok e) :
    e.keyConditions = (criteria.zipIdx.filter (·.1.suits active)).map Criterion.clauseAt := by
  rw [keyConditions, (compile_eq_ok_iff.1 h).2, List.filter_map, List.map_map]
  rfl

theorem filters_of_compile (h : compile criteria active = .ok e) :
    e.filters = (criteria.zipIdx.filter (!·.1.suits active)).map Criterion.clauseAt := by
  rw [filters, (compile_eq_ok_iff.1 h).2, List.filter_map, List.map_map]
  rfl

theorem names_of_compile (h : compile criteria active = .ok e) :
    e.names = .ofList (criteria.zipIdx.map fun p => (Clause.nameKey p.2, p.1.name)) := by
  rw [names, (compile_eq_ok_iff.1 h).2, List.map_map]
  rfl

/-- What the placeholders of operands stand for does not depend on the key. -/
theorem values_of_compile (h : compile criteria active = .ok e) :
    e.values = .ofList (criteria.zipIdx.flatMap Criterion.bindingsAt) := by
  rw [values, (compile_eq_ok_iff.1 h).2, List.flatMap_map]
  rfl

theorem keyConditions_sublist_clauses (h : compile criteria active = .ok e) :
    e.keyConditions.Sublist (Criterion.clauses criteria) := by
  rw [keyConditions_of_compile h]
  exact List.filter_sublist.map _

theorem filters_sublist_clauses (h : compile criteria active = .ok e) :
    e.filters.Sublist (Criterion.clauses criteria) := by
  rw [filters_of_compile h]
  exact List.filter_sublist.map _

/-- Every criterion has one clause, in the key condition or in the filter. -/
theorem perm_clauses_of_compile (h : compile criteria active = .ok e) :
    (e.keyConditions ++ e.filters).Perm (Criterion.clauses criteria) := by
  rw [keyConditions_of_compile h, filters_of_compile h, ← List.map_append]
  exact (List.filter_append_perm _ _).map _

theorem nodup_index_of_compile (h : compile criteria active = .ok e) :
    (e.conditions.map Condition.index).Nodup := by
  rw [(compile_eq_ok_iff.1 h).2, List.map_map,
    show Condition.index ∘ Criterion.condition active = Prod.snd from rfl, List.zipIdx_map_snd]
  exact List.nodup_range'

/-- The condition that a criterion becomes says what the criterion says. -/
theorem compilesTo_condition (h : compile criteria active = .ok e) {p : Criterion × Nat}
    (hp : p ∈ criteria.zipIdx) : p.1.CompilesTo (Criterion.condition active p) := by
  obtain ⟨operands, ho⟩ := (compile_eq_ok_iff.1 h).1.readable p.1 (List.fst_mem_of_mem_zipIdx hp)
  refine ⟨rfl, rfl, ?_⟩
  rw [Criterion.condition, ho]
  rfl

theorem speaks_of_compile (h : compile criteria active = .ok e) : e.Speaks criteria := by
  intro p hp
  have hd : Criterion.condition active p ∈ e.conditions := by
    rw [(compile_eq_ok_iff.1 h).2]
    exact List.mem_map_of_mem hp
  have hto := compilesTo_condition h hp
  exact ⟨_, (takes_iff_of_compilesTo hto).2 rfl, says_clause (nodup_index_of_compile h) hd hto⟩

/-! ### Readings through all items -/

theorem keyConditions_of_compile_none (h : compile criteria none = .ok e) :
    e.keyConditions = [] := by
  rw [keyConditions_of_compile h, List.map_eq_nil_iff, List.filter_eq_nil_iff]
  intro p _
  rw [Criterion.suits_none]
  decide

theorem filters_of_compile_none (h : compile criteria none = .ok e) :
    e.filters = Criterion.clauses criteria := by
  rw [filters_of_compile h, List.filter_eq_self.2 fun p _ => by rw [Criterion.suits_none]; rfl]
  rfl

/-! ### Readings by a key -/

/-- Among things of different names those beside one have other names. -/
theorem exists_perm_cons {α : Type} {f : α → String} {xs : List α} (hn : (xs.map f).Nodup) {x : α}
    (hx : x ∈ xs) :
    ∃ rest, xs.Perm (x :: rest) ∧ (rest.map f).Nodup ∧ ∀ y ∈ rest, f y ≠ f x := by
  obtain ⟨before, after, rfl⟩ := List.append_of_mem hx
  have hperm : (before ++ x :: after).Perm (x :: (before ++ after)) := List.perm_middle
  have hnodup := (hperm.map f).nodup_iff.1 hn
  rw [List.map_cons, List.nodup_cons] at hnodup
  refine ⟨before ++ after, hperm, hnodup.2, fun y hy hyx => hnodup.1 ?_⟩
  rw [← hyx]
  exact List.mem_map_of_mem hy

/-- Things that have one name, and different ones, are none or one. -/
theorem eq_toList_head? {α : Type} {f : α → String} {n : String} {xs : List α}
    (hn : (xs.map f).Nodup) (h : ∀ x ∈ xs, f x = n) : xs = xs.head?.toList := by
  rcases xs with _ | ⟨x, _ | ⟨y, xs⟩⟩
  · rfl
  · rfl
  · rw [List.map_cons, List.map_cons, List.nodup_cons, h x (by simp), h y (by simp)] at hn
    exact absurd List.mem_cons_self hn.1

/-- The criteria that suit the key are about different attributes. -/
theorem nodup_suits (h : Compiles active [] criteria) :
    ((criteria.zipIdx.filter (·.1.suits active)).map (·.1.name)).Nodup := by
  have hfilter : criteria.filter (·.suits active) =
      (criteria.zipIdx.filter (·.1.suits active)).map Prod.fst := by
    conv_lhs => rw [← List.zipIdx_map_fst 0 criteria]
    rw [List.filter_map]
    rfl
  have hn := h.nodup
  rwa [hfilter, List.map_map] at hn

/-- What suits the key is on the hash attribute, for equality, or on the range attribute. -/
theorem suits_cases (h : Compiles (some key) [] criteria) {c : Criterion} (hc : c ∈ criteria)
    (hs : c.suits (some key) = true) :
    (c.name = key.hash.name ∧ c.operator = .equal ∧ c.type = key.hash.type) ∨
      ∃ a, key.range = some a ∧ a.name ≠ key.hash.name ∧ c.name = a.name ∧
        c.operator ∈ Operator.rangeOperators ∧ c.type = a.type := by
  obtain ⟨role, a, hr, hp⟩ := Criterion.suits_eq_true_iff.1 hs
  have ht := ((h.placeable c hc role a hr).2 hp).1.symm
  obtain ⟨hname, ⟨rfl, rfl⟩ | ⟨rfl, ha, hne⟩⟩ := KeySchema.role?_eq_some_cases hr
  · exact .inl ⟨hname.symm, Operator.eq_equal_of_placement_hash hp, ht⟩
  · exact .inr ⟨a, ha, hne, hname.symm, Operator.mem_rangeOperators_of_placement_range hp, ht⟩

/-- A criterion that compares the hash attribute for equality suits the key. -/
theorem suits_of_equal {c : Criterion} (hn : c.name = key.hash.name) (ho : c.operator = .equal) :
    c.suits (some key) = true := by
  refine Criterion.suits_eq_true_iff.2 ⟨.hash, key.hash, ?_, ?_⟩
  · rw [Option.bind_some, hn]
    exact if_pos rfl
  · rw [ho]
    rfl

/-- Beside a criterion on the hash attribute at most one suits the key, which is on the range
attribute. -/
theorem exists_perm_suits (h : Compiles (some key) [] criteria) {p : Criterion × ℕ}
    (hp : p ∈ criteria.zipIdx.filter (·.1.suits (some key))) (hname : p.1.name = key.hash.name) :
    ∃ range : Option (Criterion × ℕ),
      (criteria.zipIdx.filter (·.1.suits (some key))).Perm (p :: range.toList) ∧
      ∀ q ∈ range, q ∈ criteria.zipIdx ∧ ∃ a, key.range = some a ∧ a.name ≠ key.hash.name ∧
        q.1.name = a.name ∧ q.1.operator ∈ Operator.rangeOperators ∧ q.1.type = a.type := by
  obtain ⟨rest, hperm, hn, hother⟩ := exists_perm_cons (nodup_suits h) hp
  have hrange : ∀ q ∈ rest, q ∈ criteria.zipIdx ∧ ∃ a, key.range = some a ∧
      a.name ≠ key.hash.name ∧ q.1.name = a.name ∧ q.1.operator ∈ Operator.rangeOperators ∧
      q.1.type = a.type := by
    intro q hq
    obtain ⟨hq', hs⟩ := List.mem_filter.1 (hperm.mem_iff.2 (List.mem_cons_of_mem _ hq))
    refine ⟨hq', (suits_cases h (List.fst_mem_of_mem_zipIdx hq') hs).resolve_left ?_⟩
    exact fun hhash => hother q hq (hhash.1.trans hname.symm)
  -- they all have the name of the range attribute, and no name twice
  have hone : rest = rest.head?.toList := by
    rcases rest with _ | ⟨q, rest⟩
    · rfl
    · obtain ⟨-, a, ha, -⟩ := hrange q List.mem_cons_self
      refine eq_toList_head? hn (n := a.name) fun q' hq' => ?_
      obtain ⟨-, b, hb, -, hname, -⟩ := hrange q' hq'
      rw [hname, Option.some.inj (hb.symm.trans ha)]
  exact ⟨rest.head?, hone ▸ hperm, fun q hq => hrange q (List.mem_of_mem_head? hq)⟩

/-- If some criterion compares the hash attribute for equality, a reading by the key is selected. -/
theorem selectsBy_of_compile (h : compile criteria (some key) = .ok e) {c : Criterion}
    (hc : c ∈ criteria) (hname : c.name = key.hash.name) (hequal : c.operator = .equal) :
    e.SelectsBy key := by
  have hcompiles := (compile_eq_ok_iff.1 h).1
  have hspeaks := speaks_of_compile h
  obtain ⟨i, hi⟩ := List.mem_iff_getElem?.1 hc
  have hi : (c, i) ∈ criteria.zipIdx := List.mk_mem_zipIdx_iff_getElem?.2 hi
  have hsuits := suits_of_equal hname hequal
  obtain ⟨range, hperm, hrange⟩ :=
    exists_perm_suits hcompiles (List.mem_filter.2 ⟨hi, hsuits⟩) hname
  refine ⟨Criterion.clauseAt (c, i), range.map Criterion.clauseAt, ?_, ⟨hequal, ?_⟩, ?_⟩
  · rw [keyConditions_of_compile h, Option.toList_map]
    exact hperm.map Criterion.clauseAt
  · obtain ⟨vs, htakes, hsays⟩ := hspeaks _ hi
    obtain ⟨v, -, rfl⟩ : ∃ v, c.type.coerce? c.value = some v ∧ vs = [v] := by
      rw [Criterion.Takes, hequal] at htakes
      exact htakes
    rcases suits_cases hcompiles hc hsuits with ⟨-, -, ht⟩ | ⟨a, -, hne, hca, -⟩
    · exact ⟨v, hname ▸ hsays, (Criterion.type_of_takes htakes v (by simp)).trans ht⟩
    · exact absurd (hca.symm.trans hname) hne
  · intro clause hclause
    obtain ⟨q, hq, rfl⟩ := Option.map_eq_some_iff.1 hclause
    obtain ⟨hq', a, ha, hne, hqa, ho, ht⟩ := hrange q hq
    obtain ⟨vs, htakes, hsays⟩ := hspeaks q hq'
    refine ⟨a, vs, ha, hne, ho, hqa ▸ hsays, fun v hv => ?_⟩
    exact (Criterion.type_of_takes htakes v hv).trans ht

end ExpressionSet

end Tablescope
