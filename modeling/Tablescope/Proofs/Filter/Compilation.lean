import Mathlib.Data.List.Nodup
import Tablescope.Filter.Expression
import Tablescope.Proofs.Except

/-!
# When criteria compile, and to what

A criterion *suits* the key that is read if the key has its attribute, in a role for which the
operator can be a key condition. Criteria compile exactly if each of them can be placed and read and
no two that suit the key are about one attribute. The criterion at a position then becomes a
condition that depends on nothing but the key, the criterion and the position: what was compiled
before decides whether a criterion compiles, but not to what.
-/

namespace Tablescope

namespace Criterion

variable {active : Option KeySchema} {taken : List String} {c : Criterion}

/-! ### One criterion -/

/-- Whether the key that is read has the attribute of a criterion, in a role for which the operator
can be a key condition. -/
def suits (active : Option KeySchema) (c : Criterion) : Bool :=
  match active.bind (·.role? c.name) with
  | some (role, _) => c.operator.placement role = .keyCondition
  | none => false

/-- Whether a criterion can be placed where these attributes have a key condition already. -/
def IsPlaceable (active : Option KeySchema) (taken : List String) (c : Criterion) : Prop :=
  ∀ role a, active.bind (·.role? c.name) = some (role, a) →
    c.operator.placement role ≠ .illegal ∧
      (c.operator.placement role = .keyCondition → a.type = c.type ∧ c.name ∉ taken)

theorem suits_eq_true_iff :
    c.suits active = true ↔
      ∃ role a, active.bind (·.role? c.name) = some (role, a) ∧
        c.operator.placement role = .keyCondition := by
  unfold suits
  rcases active.bind (·.role? c.name) with _ | ⟨role, a⟩
  · simp
  · simp

/-- Without a key nothing suits. -/
theorem suits_none : c.suits none = false := rfl

theorem isKey_eq_ok_iff {isKey : Bool} :
    c.isKey active taken = .ok isKey ↔ c.IsPlaceable active taken ∧ isKey = c.suits active := by
  unfold Criterion.isKey suits IsPlaceable
  rcases active.bind (·.role? c.name) with _ | ⟨role, a⟩
  · simp [eq_comm]
  · rcases hp : c.operator.placement role with _ | _ | _
    · by_cases ht : a.type = c.type
      · by_cases hn : c.name ∈ taken
        · simp [ht, hn, hp]
        · simp [ht, hn, hp, eq_comm]
      · simp [ht, hp]
    · simp [hp, eq_comm]
    · simp [hp]

theorem isPlaceable_cons_iff {name : String} :
    c.IsPlaceable active (name :: taken) ↔
      c.IsPlaceable active taken ∧ (c.suits active = true → c.name ≠ name) := by
  unfold IsPlaceable
  rw [suits_eq_true_iff]
  constructor
  · intro h
    refine ⟨fun role a hr => ⟨(h role a hr).1, fun hp => ?_⟩, ?_⟩
    · obtain ⟨ht, hn⟩ := (h role a hr).2 hp
      exact ⟨ht, fun hm => hn (List.mem_cons_of_mem _ hm)⟩
    · rintro ⟨role, a, hr, hp⟩ rfl
      exact ((h role a hr).2 hp).2 List.mem_cons_self
  · rintro ⟨h, hne⟩ role a hr
    refine ⟨(h role a hr).1, fun hp => ⟨((h role a hr).2 hp).1, fun hm => ?_⟩⟩
    rcases List.mem_cons.1 hm with hm | hm
    · exact hne ⟨role, a, hr, hp⟩ hm
    · exact ((h role a hr).2 hp).2 hm

/-- The condition that the criterion at a position becomes. -/
def condition (active : Option KeySchema) (p : Criterion × Nat) : Condition where
  index := p.2
  name := p.1.name
  operator := p.1.operator
  operands := p.1.operands.toOption.getD .none
  isKey := p.1.suits active

end Criterion

/-! ### All criteria -/

variable {active : Option KeySchema} {index : Nat} {taken : List String}
variable {c : Criterion} {cs : List Criterion} {ds : List Condition}

/-- The first criterion is placed and read, and the others are compiled behind it. -/
theorem compileFrom_cons_eq_ok_iff :
    compileFrom active index taken (c :: cs) = .ok ds ↔
      ∃ isKey operands rest, c.isKey active taken = .ok isKey ∧ c.operands = .ok operands ∧
        compileFrom active (index + 1) (if isKey then c.name :: taken else taken) cs = .ok rest ∧
        ds = ⟨index, c.name, c.operator, operands, isKey⟩ :: rest := by
  constructor
  · intro h
    obtain ⟨isKey, hk, h⟩ := Except.bind_eq_ok_iff.1 h
    obtain ⟨operands, ho, h⟩ := Except.bind_eq_ok_iff.1 h
    obtain ⟨rest, hrest, h⟩ := Except.bind_eq_ok_iff.1 h
    cases h
    exact ⟨isKey, operands, rest, hk, ho, hrest, rfl⟩
  · rintro ⟨isKey, operands, rest, hk, ho, hrest, rfl⟩
    refine Except.bind_eq_ok_iff.2 ⟨isKey, hk, ?_⟩
    refine Except.bind_eq_ok_iff.2 ⟨operands, ho, ?_⟩
    exact Except.bind_eq_ok_iff.2 ⟨rest, hrest, rfl⟩

/-- Whether criteria compile where these attributes have a key condition already. -/
structure Compiles (active : Option KeySchema) (taken : List String) (cs : List Criterion) :
    Prop where
  placeable : ∀ c ∈ cs, c.IsPlaceable active taken
  readable : ∀ c ∈ cs, ∃ operands, c.operands = .ok operands
  /-- No attribute of the key is asked for twice. -/
  nodup : ((cs.filter (·.suits active)).map Criterion.name).Nodup

theorem compiles_cons_iff :
    Compiles active taken (c :: cs) ↔
      c.IsPlaceable active taken ∧ (∃ operands, c.operands = .ok operands) ∧
        Compiles active (if c.suits active then c.name :: taken else taken) cs := by
  constructor
  · rintro ⟨hplace, hread, hn⟩
    obtain ⟨hc, hplace⟩ := List.forall_mem_cons.1 hplace
    obtain ⟨ho, hread⟩ := List.forall_mem_cons.1 hread
    refine ⟨hc, ho, ?_, hread, ?_⟩
    · intro d hd
      split
      · next hs =>
        rw [List.filter_cons_of_pos hs, List.map_cons, List.nodup_cons] at hn
        refine Criterion.isPlaceable_cons_iff.2 ⟨hplace d hd, fun hd' hname => hn.1 ?_⟩
        rw [← hname]
        exact List.mem_map_of_mem (List.mem_filter.2 ⟨hd, hd'⟩)
      · exact hplace d hd
    · exact hn.sublist (((List.sublist_cons_self c cs).filter _).map _)
  · rintro ⟨hc, ho, hplace, hread, hn⟩
    refine ⟨List.forall_mem_cons.2 ⟨hc, fun d hd => ?_⟩, List.forall_mem_cons.2 ⟨ho, hread⟩, ?_⟩
    · have hd := hplace d hd
      split at hd
      · exact (Criterion.isPlaceable_cons_iff.1 hd).1
      · exact hd
    · by_cases hs : c.suits active = true
      · rw [if_pos hs] at hplace
        rw [List.filter_cons_of_pos hs, List.map_cons, List.nodup_cons]
        refine ⟨fun hm => ?_, hn⟩
        obtain ⟨d, hd, hname⟩ := List.mem_map.1 hm
        obtain ⟨hd, hd'⟩ := List.mem_filter.1 hd
        exact (Criterion.isPlaceable_cons_iff.1 (hplace d hd)).2 hd' hname
      · rwa [List.filter_cons_of_neg hs]

/-- Criteria compile exactly if they can, and then each becomes its condition. -/
theorem compileFrom_eq_ok_iff :
    compileFrom active index taken cs = .ok ds ↔
      Compiles active taken cs ∧ ds = (cs.zipIdx index).map (Criterion.condition active) := by
  induction cs generalizing index taken ds with
  | nil =>
    constructor
    · rintro ⟨⟩
      exact ⟨⟨by simp, by simp, List.nodup_nil⟩, rfl⟩
    · rintro ⟨-, rfl⟩
      rfl
  | cons c cs ih =>
    rw [compileFrom_cons_eq_ok_iff, compiles_cons_iff]
    simp only [ih, Criterion.isKey_eq_ok_iff]
    constructor
    · rintro ⟨_, operands, _, ⟨hplace, rfl⟩, ho, ⟨hrest, rfl⟩, rfl⟩
      refine ⟨⟨hplace, ⟨operands, ho⟩, hrest⟩, ?_⟩
      rw [List.zipIdx_cons, List.map_cons, Criterion.condition, ho]
      rfl
    · rintro ⟨⟨hplace, ⟨operands, ho⟩, hrest⟩, rfl⟩
      refine ⟨_, operands, _, ⟨hplace, rfl⟩, ho, ⟨hrest, rfl⟩, ?_⟩
      rw [List.zipIdx_cons, List.map_cons, Criterion.condition, ho]
      rfl

theorem compile_eq_ok_iff {e : ExpressionSet} :
    compile cs active = .ok e ↔
      Compiles active [] cs ∧ e.conditions = cs.zipIdx.map (Criterion.condition active) := by
  obtain ⟨ds⟩ := e
  rw [compile, Except.map_eq_ok_iff]
  simp only [compileFrom_eq_ok_iff, ExpressionSet.mk.injEq, exists_eq_right]

end Tablescope
