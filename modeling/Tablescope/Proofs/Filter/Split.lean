import Tablescope.Proofs.Filter.Offence

/-!
# A query splits a scan

Criteria that compile for a key compile without one, to the same clauses over the same placeholders:
the clauses for the key are those of the scan, split into key conditions and filters, and merged
again in the order of the criteria they are the filters of the scan. So a query and a scan with the
same criteria hold for the same items. A key can only add grounds for refusing criteria, and these
are about attributes of the key.
-/

namespace Tablescope

/-! ### Merging -/

namespace Clause

/-- Clauses in ascending order whose numbers are those of other clauses merge into them. -/
theorem merge_eq_of_perm {xs ys zs : List Clause} (hx : xs.Pairwise (·.index < ·.index))
    (hy : ys.Pairwise (·.index < ·.index)) (hz : zs.Pairwise (·.index < ·.index))
    (h : (xs ++ ys).Perm zs) : xs.merge ys (fun a b => a.index ≤ b.index) = zs := by
  have hmerge := (List.merge_perm_append fun a b : Clause => decide (a.index ≤ b.index)).trans h
  have hle : ∀ {cs : List Clause}, cs.Pairwise (·.index < ·.index) →
      cs.Pairwise fun a b => decide (a.index ≤ b.index) = true := fun hcs =>
    hcs.imp fun hab => decide_eq_true (Nat.le_of_lt hab)
  have hindex : (zs.map Clause.index).Nodup :=
    List.nodup_iff_pairwise_ne.2 (List.pairwise_map.2 (hz.imp Nat.ne_of_lt))
  refine List.Perm.eq_of_pairwise (fun a b ha hb hab hba => ?_)
    (List.pairwise_merge ?_ ?_ _ _ (hle hx) (hle hy)) (hle hz) hmerge
  · simp only [decide_eq_true_eq] at hab hba
    exact List.inj_on_of_nodup_map hindex (hmerge.mem_iff.1 ha) hb (Nat.le_antisymm hab hba)
  · intro a b c hab hbc
    simp only [decide_eq_true_eq] at hab hbc ⊢
    exact Nat.le_trans hab hbc
  · intro a b
    simp only [Bool.or_eq_true, decide_eq_true_eq]
    exact Nat.le_total a.index b.index

end Clause

/-! ### Refusals -/

/-- The errors that are about an attribute of a key. -/
inductive KeySchema.Refuses (key : KeySchema) : InputError → Prop where
  | order {a : Attribute} (ha : a ∈ key.attributes) (operator : Operator) :
      Refuses key (.illegalKeyCondition a.name operator)
  | type {a : Attribute} (ha : a ∈ key.attributes) : Refuses key (.keyTypeMismatch a.name a.type)
  | again {a : Attribute} (ha : a ∈ key.attributes) : Refuses key (.duplicateKeyCondition a.name)

variable {criteria : List Criterion} {key : KeySchema} {p q : ExpressionSet} {fault : InputError}

theorem Criterion.Eligible.mem_attributes {c : Criterion} {a : Attribute}
    (h : c.Eligible (some key) a) : a ∈ key.attributes := by
  obtain ⟨_, ⟨⟩, ha⟩ := h.exists_mem
  exact ha

/-- A criterion that can be read offends only against the key. -/
theorem Criterion.Offends.refuses {before : List Criterion} {c : Criterion}
    (h : c.Offends (some key) before fault) (hread : ∃ o, c.operands = .ok o) :
    key.Refuses fault := by
  obtain ⟨hparts, hraws⟩ := exists_operands_iff.1 hread
  -- every raw operand can be read, so none is the first that cannot
  have hnone : ∀ raw, ¬c.FirstBad raw := by
    rintro raw ⟨good, rest, hsplit, -, hbad⟩
    obtain ⟨v, hv⟩ := hraws raw (by simp [hsplit])
    rw [hbad] at hv
    cases hv
  cases h with
  | order h =>
    obtain ⟨_, ⟨⟩, hname, -⟩ := h
    rw [hname]
    exact .order (a := key.hash) List.mem_cons_self _
  | type h _ =>
    rw [h.name_eq]
    exact .type h.mem_attributes
  | again h _ _ _ _ =>
    rw [h.name_eq]
    exact .again h.mem_attributes
  | parts _ ho hp => exact absurd (hparts ho) hp
  | number _ _ hraw _ => exact absurd hraw (hnone _)
  | binary _ _ hraw _ => exact absurd hraw (hnone _)

theorem refuses_of_compile_error (hp : compile criteria none = .ok p)
    (hq : compile criteria (some key) = .error fault) : key.Refuses fault := by
  obtain ⟨i, ⟨c, hc, hoffends⟩, -⟩ := compile_eq_error_iff.1 hq
  exact hoffends.refuses
    ((compile_eq_ok_iff.1 hp).1.readable c (List.mem_of_getElem? hc))

/-! ### Splitting -/

namespace ExpressionSet

/-- Whether a set is another one whose filters are split into key conditions and filters. -/
structure Splits (q p : ExpressionSet) : Prop where
  names : p.names = q.names
  values : p.values = q.values
  keyConditions : p.keyConditions = []
  /-- Put together by the positions of their criteria, the clauses are the filters. -/
  filters : p.filters = q.keyConditions.merge q.filters fun a b => a.index ≤ b.index

theorem exists_compile_none (h : compile criteria (some key) = .ok q) :
    ∃ p, compile criteria none = .ok p := by
  obtain ⟨-, hread, -⟩ := (compile_eq_ok_iff.1 h).1
  refine ⟨⟨_⟩, compile_eq_ok_iff.2 ⟨⟨fun c _ role a hr => ?_, hread, ?_⟩, rfl⟩⟩
  · cases hr
  · rw [List.filter_eq_nil_iff.2 fun c _ => by rw [Criterion.suits_none]; decide]
    exact List.nodup_nil

theorem splits_of_compile (hq : compile criteria (some key) = .ok q)
    (hp : compile criteria none = .ok p) : q.Splits p where
  names := by rw [names_of_compile hp, names_of_compile hq]
  values := by rw [values_of_compile hp, values_of_compile hq]
  keyConditions := keyConditions_of_compile_none hp
  filters := by
    have hclauses := Criterion.pairwise_clauses criteria
    rw [filters_of_compile_none hp]
    exact (Clause.merge_eq_of_perm (hclauses.sublist (keyConditions_sublist_clauses hq))
      (hclauses.sublist (filters_sublist_clauses hq)) hclauses (perm_clauses_of_compile hq)).symm

/-- What is split holds for the same items. -/
theorem Splits.holds_iff (h : q.Splits p) (I : Interpretation) (item : Item) :
    (q.Holds I item q.keyCondition? ∧ q.Holds I item q.filter?) ↔
      (p.Holds I item p.keyCondition? ∧ p.Holds I item p.filter?) := by
  have hmem : ∀ c, c ∈ p.filters ↔ c ∈ q.keyConditions ∨ c ∈ q.filters := by
    intro c
    rw [h.filters, List.mem_merge]
  simp only [keyCondition?, filter?, holds_join_iff, h.keyConditions, h.names, h.values, hmem,
    List.not_mem_nil, or_imp, forall_and, false_imp_iff, implies_true, true_and]

/-- Criteria that compile for a key compile without it, and then the clauses for the key are those
without it, split in two: placeholders stand for the same names and values, and the same items
satisfy them, whatever the operators mean. Criteria that compile only without a key are refused for
an attribute of the key. -/
theorem query_splits_scan (criteria : List Criterion) (key : KeySchema) :
    (∀ q, compile criteria (some key) = .ok q → ∃ p, compile criteria none = .ok p ∧ q.Splits p ∧
        p.filters = Criterion.clauses criteria ∧
        ∀ (I : Interpretation) (item : Item),
          (q.Holds I item q.keyCondition? ∧ q.Holds I item q.filter?) ↔
            (p.Holds I item p.keyCondition? ∧ p.Holds I item p.filter?)) ∧
      ∀ p fault, compile criteria none = .ok p → compile criteria (some key) = .error fault →
        key.Refuses fault := by
  refine ⟨fun q hq => ?_, fun p fault hp hq => refuses_of_compile_error hp hq⟩
  obtain ⟨p, hp⟩ := exists_compile_none hq
  have hsplits := splits_of_compile hq hp
  exact ⟨p, hp, hsplits, filters_of_compile_none hp, hsplits.holds_iff⟩

/-- Well rated films of a year whose titles begin with a letter. -/
def ratedCriteria : List Criterion :=
  [⟨"title", .beginsWith, "R", .text⟩, ⟨"rating", .between, "7.5, 10", .number⟩,
    ⟨"year", .equal, "2013", .number⟩]

/-- The query for these films. -/
def ratedQuery : ExpressionSet :=
  ⟨[⟨0, "title", .beginsWith, .one (.text "R"), true⟩,
    ⟨1, "rating", .between, .pair (.number "7.5") (.number "10"), false⟩,
    ⟨2, "year", .equal, .one (.number "2013"), true⟩]⟩

theorem query_splits_scan_of_films :
    compile ratedCriteria (some Criterion.filmKey) = .ok ratedQuery ∧
      ratedQuery.keyConditions = [⟨0, .beginsWith⟩, ⟨2, .equal⟩] ∧
      ratedQuery.filters = [⟨1, .between⟩] ∧
      (∃ p, compile ratedCriteria none = .ok p ∧ ratedQuery.Splits p) ∧
      compile (ratedCriteria ++ ratedCriteria) (some Criterion.filmKey) =
        .error (.duplicateKeyCondition "title") ∧
      Criterion.filmKey.Refuses (.duplicateKeyCondition "title") := by
  have hq : compile ratedCriteria (some Criterion.filmKey) = .ok ratedQuery := by decide +kernel
  have htwice : compile (ratedCriteria ++ ratedCriteria) (some Criterion.filmKey) =
      .error (.duplicateKeyCondition "title") := by
    decide +kernel
  have hscan : ∃ p, compile (ratedCriteria ++ ratedCriteria) none = .ok p := by
    have hok : (compile (ratedCriteria ++ ratedCriteria) none).isOk = true := by decide +kernel
    rcases hc : compile (ratedCriteria ++ ratedCriteria) none with e | p
    · rw [hc] at hok
      cases hok
    · exact ⟨p, rfl⟩
  obtain ⟨p, hp, hsplits, -⟩ := (query_splits_scan ratedCriteria Criterion.filmKey).1 _ hq
  obtain ⟨p', hp'⟩ := hscan
  exact ⟨hq, rfl, rfl, ⟨p, hp, hsplits⟩, htwice,
    (query_splits_scan (ratedCriteria ++ ratedCriteria) Criterion.filmKey).2 _ _ hp' htwice⟩

end ExpressionSet

end Tablescope
