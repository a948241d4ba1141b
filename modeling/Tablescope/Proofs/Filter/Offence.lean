import Tablescope.Proofs.Filter.KeyCondition

/-!
# Which criteria offend

Criteria are compiled one by one, but whether they compile at all does not depend on their order:
no criterion may compare the hash attribute by order, those that can be key conditions must have the
types of the key and be about different attributes, and every value must write the operands that its
operator takes. Where this fails, what is told is the first offence of the first criterion that
offends behind those before it, whatever criteria follow.
-/

namespace Tablescope

namespace Operator

variable {o : Operator}

/-- The operators that compare by order, which no key condition on the hash attribute can do. -/
def orderOperators : List Operator := [less, lessOrEqual, greater, greaterOrEqual]

theorem placement_hash_eq_illegal_iff : o.placement .hash = .illegal ↔ o ∈ orderOperators := by
  cases o <;> decide

theorem placement_range_ne_illegal : o.placement .range ≠ .illegal := by
  cases o <;> decide

theorem placement_range_of_mem (h : o ∈ rangeOperators) : o.placement .range = .keyCondition := by
  revert h
  cases o <;> decide

end Operator

namespace Criterion

variable {active : Option KeySchema} {key : KeySchema} {a : Attribute} {c d : Criterion}
variable {before : List Criterion} {taken : List String} {fault : InputError}

/-! ### Criteria and the key -/

/-- Whether a criterion can be a key condition on this attribute of the key: it compares the hash
attribute for equality, or the range attribute in any way that a key condition knows. An attribute
whose name is both hash and range counts as hash. -/
inductive Eligible (active : Option KeySchema) (c : Criterion) : Attribute → Prop where
  | hash {key : KeySchema} (hk : key ∈ active) (hn : c.name = key.hash.name)
      (ho : c.operator = .equal) : Eligible active c key.hash
  | range {key : KeySchema} {a : Attribute} (hk : key ∈ active) (ha : key.range = some a)
      (hne : a.name ≠ key.hash.name) (hn : c.name = a.name)
      (ho : c.operator ∈ Operator.rangeOperators) : Eligible active c a

/-- Whether a criterion compares the hash attribute by order. -/
def OrdersHash (active : Option KeySchema) (c : Criterion) : Prop :=
  ∃ key ∈ active, c.name = key.hash.name ∧ c.operator ∈ Operator.orderOperators

theorem Eligible.name_eq (h : c.Eligible active a) : c.name = a.name := by
  cases h with
  | hash _ hn _ => exact hn
  | range _ _ _ hn _ => exact hn

theorem Eligible.exists_mem (h : c.Eligible active a) : ∃ key ∈ active, a ∈ key.attributes := by
  cases h with
  | hash hk _ _ => exact ⟨_, hk, List.mem_cons_self⟩
  | range hk ha _ _ _ => exact ⟨_, hk, List.mem_cons_of_mem _ (Option.mem_toList.2 ha)⟩

theorem role?_hash : key.role? key.hash.name = some (.hash, key.hash) := if_pos rfl

theorem role?_range (ha : key.range = some a) (hne : a.name ≠ key.hash.name) :
    key.role? a.name = some (.range, a) := by
  rw [KeySchema.role?, if_neg (Ne.symm hne), ha, Option.filter_some, if_pos (by simp)]
  rfl

theorem eligible_iff :
    c.Eligible active a ↔
      ∃ role, active.bind (·.role? c.name) = some (role, a) ∧
        c.operator.placement role = .keyCondition := by
  constructor
  · intro h
    cases h with
    | hash hk hn ho =>
      refine ⟨.hash, ?_, by rw [ho]; rfl⟩
      rw [hk, Option.bind_some, hn, role?_hash]
    | range hk ha hne hn ho =>
      refine ⟨.range, ?_, Operator.placement_range_of_mem ho⟩
      rw [hk, Option.bind_some, hn, role?_range ha hne]
  · rintro ⟨role, hr, hp⟩
    obtain ⟨key, hk, hr⟩ := Option.bind_eq_some_iff.1 hr
    obtain ⟨hname, ⟨rfl, rfl⟩ | ⟨rfl, ha, hne⟩⟩ := KeySchema.role?_eq_some_cases hr
    · exact .hash hk hname.symm (Operator.eq_equal_of_placement_hash hp)
    · exact .range hk ha hne hname.symm (Operator.mem_rangeOperators_of_placement_range hp)

theorem ordersHash_iff :
    c.OrdersHash active ↔
      ∃ role a, active.bind (·.role? c.name) = some (role, a) ∧
        c.operator.placement role = .illegal := by
  constructor
  · rintro ⟨key, hk, hn, ho⟩
    refine ⟨.hash, key.hash, ?_, Operator.placement_hash_eq_illegal_iff.2 ho⟩
    rw [hk, Option.bind_some, hn, role?_hash]
  · rintro ⟨role, a, hr, hp⟩
    obtain ⟨key, hk, hr⟩ := Option.bind_eq_some_iff.1 hr
    obtain ⟨hname, ⟨rfl, rfl⟩ | ⟨rfl, -, -⟩⟩ := KeySchema.role?_eq_some_cases hr
    · exact ⟨key, hk, hname.symm, Operator.placement_hash_eq_illegal_iff.1 hp⟩
    · exact absurd hp Operator.placement_range_ne_illegal

theorem suits_iff : c.suits active = true ↔ ∃ a, c.Eligible active a := by
  simp only [suits_eq_true_iff, eligible_iff]
  exact exists_comm

theorem isPlaceable_iff :
    c.IsPlaceable active taken ↔
      ¬c.OrdersHash active ∧ ∀ a, c.Eligible active a → a.type = c.type ∧ c.name ∉ taken := by
  simp only [IsPlaceable, ordersHash_iff, eligible_iff]
  constructor
  · intro h
    refine ⟨?_, ?_⟩
    · rintro ⟨role, a, hr, hp⟩
      exact (h role a hr).1 hp
    · rintro a ⟨role, hr, hp⟩
      exact (h role a hr).2 hp
  · rintro ⟨horder, heligible⟩ role a hr
    exact ⟨fun hp => horder ⟨role, a, hr, hp⟩, fun hp => heligible a ⟨role, hr, hp⟩⟩

/-- The three ways in which a criterion cannot be placed. -/
theorem isKey_eq_error_iff :
    c.isKey active taken = .error fault ↔
      c.OrdersHash active ∧ fault = .illegalKeyCondition c.name c.operator ∨
        ∃ a, c.Eligible active a ∧
          (a.type ≠ c.type ∧ fault = .keyTypeMismatch c.name a.type ∨
            a.type = c.type ∧ c.name ∈ taken ∧ fault = .duplicateKeyCondition c.name) := by
  simp only [ordersHash_iff, eligible_iff]
  unfold Criterion.isKey
  rcases active.bind (·.role? c.name) with _ | ⟨role, a⟩
  · simp
  · rcases hp : c.operator.placement role with _ | _ | _
    · by_cases ht : a.type = c.type
      · by_cases hn : c.name ∈ taken
        · simp [hp, ht, hn, eq_comm]
        · simp [hp, ht, hn]
      · simp [hp, ht, eq_comm]
    · simp [hp]
    · simp [hp, eq_comm]

/-! ### Operands -/

/-- The raw texts of the operands: for two operands the parts of the value, without the blanks
around them, and for one the value. -/
def raws (c : Criterion) : List String :=
  match c.operator.arity with
  | .none => []
  | .one => [c.value]
  | .two => c.parts

/-- Whether this is the first of the raw operands that the type of a criterion cannot read. -/
def FirstBad (c : Criterion) (raw : String) : Prop :=
  ∃ good rest, c.raws = good ++ raw :: rest ∧ (∀ r ∈ good, ∃ v, c.type.coerce? r = some v) ∧
    c.type.coerce? raw = none

theorem arity_eq_two_iff : c.operator.arity = .two ↔ c.operator = .between := by
  cases c.operator <;> decide

theorem operands_of_length_parts (ho : c.operator = .between) (hp : c.parts.length ≠ 2) :
    c.operands = .error (.betweenArity c.name c.parts.length) := by
  rw [operands, arity_eq_two_iff.2 ho]
  rcases hparts : c.parts with _ | ⟨low, _ | ⟨high, _ | ⟨more, rest⟩⟩⟩
  · rfl
  · rfl
  · rw [hparts] at hp
    exact absurd rfl hp
  · rfl

/-- If there are as many parts as there have to be, the operands are read one after the other. -/
theorem map_toList_operands (h : c.operator = .between → c.parts.length = 2) :
    c.operands.map Operands.toList = c.raws.mapM (c.type.coerce c.name) := by
  rw [← arity_eq_two_iff] at h
  unfold operands raws
  rcases ha : c.operator.arity with _ | _ | _
  · rfl
  · simp only [List.mapM_cons, List.mapM_nil]
    rcases c.type.coerce c.name c.value with e | v
    · rfl
    · rfl
  · obtain ⟨low, high, hp⟩ := List.length_eq_two.1 (h ha)
    simp only [hp, List.mapM_cons, List.mapM_nil]
    rcases c.type.coerce c.name low with e | l
    · rfl
    · rcases c.type.coerce c.name high with e | h
      · rfl
      · rfl

theorem exists_operands_iff :
    (∃ o, c.operands = .ok o) ↔
      (c.operator = .between → c.parts.length = 2) ∧
        ∀ raw ∈ c.raws, ∃ v, c.type.coerce? raw = some v := by
  by_cases h : c.operator = .between → c.parts.length = 2
  · have hmap : (∃ o, c.operands = .ok o) ↔ ∃ vs, c.raws.mapM (c.type.coerce c.name) = .ok vs := by
      rw [← map_toList_operands h]
      simp only [Except.map_eq_ok_iff]
      exact ⟨fun ⟨o, ho⟩ => ⟨_, o, ho, rfl⟩, fun ⟨_, o, ho, _⟩ => ⟨o, ho⟩⟩
    rw [hmap, Except.exists_mapM_eq_ok_iff]
    simp only [ScalarType.coerce_eq_ok_iff]
    exact ⟨fun hraws => ⟨h, hraws⟩, And.right⟩
  · obtain ⟨ho, hp⟩ := Classical.not_imp.1 h
    rw [operands_of_length_parts ho hp]
    constructor
    · rintro ⟨o, ⟨⟩⟩
    · rintro ⟨hlength, -⟩
      exact absurd hlength h

/-- Operands are refused for their number, or else for the first that cannot be read. -/
theorem operands_eq_error_iff :
    c.operands = .error fault ↔
      c.operator = .between ∧ c.parts.length ≠ 2 ∧ fault = .betweenArity c.name c.parts.length ∨
        (c.operator = .between → c.parts.length = 2) ∧ ∃ raw, c.FirstBad raw ∧
          (c.type = .number ∧ fault = .invalidNumber c.name raw ∨
            c.type = .binary ∧ fault = .invalidBinary c.name) := by
  by_cases h : c.operator = .between → c.parts.length = 2
  · have hmap : c.operands = .error fault ↔ c.raws.mapM (c.type.coerce c.name) = .error fault := by
      rw [← map_toList_operands h, Except.map_eq_error_iff]
    rw [hmap, Except.mapM_eq_error_iff]
    simp only [ScalarType.coerce_eq_ok_iff, ScalarType.coerce_eq_error_iff]
    constructor
    · rintro ⟨good, raw, rest, hraws, hgood, hbad, hfault⟩
      exact .inr ⟨h, raw, ⟨good, rest, hraws, hgood, hbad⟩, hfault⟩
    · rintro (⟨ho, hp, -⟩ | ⟨-, raw, ⟨good, rest, hraws, hgood, hbad⟩, hfault⟩)
      · exact absurd (h ho) hp
      · exact ⟨good, raw, rest, hraws, hgood, hbad, hfault⟩
  · obtain ⟨ho, hp⟩ := Classical.not_imp.1 h
    rw [operands_of_length_parts ho hp, Except.error.injEq]
    constructor
    · rintro rfl
      exact .inl ⟨ho, hp, rfl⟩
    · rintro (⟨-, -, rfl⟩ | ⟨hlength, -⟩)
      · rfl
      · exact absurd hlength h

/-! ### Offences -/

/-- Whether there is nothing wrong with a criterion behind others as far as the key goes. -/
structure FitsKey (active : Option KeySchema) (before : List Criterion) (c : Criterion) :
    Prop where
  order : ¬c.OrdersHash active
  type : ∀ a, c.Eligible active a → a.type = c.type
  /-- No criterion before it is a key condition on its attribute. -/
  new : ∀ a, c.Eligible active a → ∀ d ∈ before, ∀ b, d.Eligible active b → d.name ≠ c.name

/-- What is wrong with a criterion behind others. Each offence counts only where those above it are
not committed. -/
inductive Offends (active : Option KeySchema) (before : List Criterion) (c : Criterion) :
    InputError → Prop where
  /-- The hash attribute is compared by order. -/
  | order (h : c.OrdersHash active) :
      Offends active before c (.illegalKeyCondition c.name c.operator)
  /-- The value is meant in another type than the key attribute has. -/
  | type {a : Attribute} (h : c.Eligible active a) (ht : a.type ≠ c.type) :
      Offends active before c (.keyTypeMismatch c.name a.type)
  /-- There is a key condition on the attribute already. -/
  | again {a b : Attribute} {d : Criterion} (h : c.Eligible active a) (ht : a.type = c.type)
      (hd : d ∈ before) (hb : d.Eligible active b) (hname : d.name = c.name) :
      Offends active before c (.duplicateKeyCondition c.name)
  /-- There are not two parts between which the attribute could be. -/
  | parts (h : c.FitsKey active before) (ho : c.operator = .between) (hp : c.parts.length ≠ 2) :
      Offends active before c (.betweenArity c.name c.parts.length)
  /-- An operand is no number. -/
  | number {raw : String} (h : c.FitsKey active before)
      (hp : c.operator = .between → c.parts.length = 2) (hraw : c.FirstBad raw)
      (ht : c.type = .number) : Offends active before c (.invalidNumber c.name raw)
  /-- An operand is no byte string. -/
  | binary {raw : String} (h : c.FitsKey active before)
      (hp : c.operator = .between → c.parts.length = 2) (hraw : c.FirstBad raw)
      (ht : c.type = .binary) : Offends active before c (.invalidBinary c.name)

/-- Whether these are the names of the attributes on which there is a key condition already. -/
def AreTaken (active : Option KeySchema) (before : List Criterion) (taken : List String) : Prop :=
  ∀ name, name ∈ taken ↔ ∃ d ∈ before, (∃ b, d.Eligible active b) ∧ d.name = name

theorem areTaken_nil : AreTaken active [] [] := by
  intro name
  simp

theorem AreTaken.concat (h : AreTaken active before taken) (c : Criterion) :
    AreTaken active (before ++ [c]) (if c.suits active then c.name :: taken else taken) := by
  intro name
  simp only [List.mem_append, List.mem_singleton, or_and_right, exists_or, exists_eq_left]
  rw [← suits_iff, ← h name]
  split
  · next hs => simp [hs, or_comm, eq_comm]
  · next hs => simp [hs]

theorem fitsKey_iff (h : AreTaken active before taken) :
    c.FitsKey active before ↔ ∃ isKey, c.isKey active taken = .ok isKey := by
  simp only [isKey_eq_ok_iff, exists_and_left, exists_eq, and_true, isPlaceable_iff, h c.name]
  constructor
  · rintro ⟨horder, htype, hnew⟩
    refine ⟨horder, fun a ha => ⟨htype a ha, ?_⟩⟩
    rintro ⟨d, hd, ⟨b, hb⟩, hname⟩
    exact hnew a ha d hd b hb hname
  · rintro ⟨horder, hplace⟩
    exact ⟨horder, fun a ha => (hplace a ha).1,
      fun a ha d hd b hb hname => (hplace a ha).2 ⟨d, hd, ⟨b, hb⟩, hname⟩⟩

/-- A criterion offends exactly if it cannot be placed or else cannot be read. -/
theorem offends_iff (h : AreTaken active before taken) :
    c.Offends active before fault ↔
      c.isKey active taken = .error fault ∨
        (∃ isKey, c.isKey active taken = .ok isKey) ∧ c.operands = .error fault := by
  rw [isKey_eq_error_iff, ← fitsKey_iff h, operands_eq_error_iff, h c.name]
  constructor
  · intro hc
    cases hc with
    | order h => exact .inl (.inl ⟨h, rfl⟩)
    | type h ht => exact .inl (.inr ⟨_, h, .inl ⟨ht, rfl⟩⟩)
    | again h ht hd hb hname => exact .inl (.inr ⟨_, h, .inr ⟨ht, ⟨_, hd, ⟨_, hb⟩, hname⟩, rfl⟩⟩)
    | parts h ho hp => exact .inr ⟨h, .inl ⟨ho, hp, rfl⟩⟩
    | number h hp hraw ht => exact .inr ⟨h, .inr ⟨hp, _, hraw, .inl ⟨ht, rfl⟩⟩⟩
    | binary h hp hraw ht => exact .inr ⟨h, .inr ⟨hp, _, hraw, .inr ⟨ht, rfl⟩⟩⟩
  · rintro ((⟨horder, rfl⟩ | ⟨a, ha, hplace⟩) | ⟨hfits, hread⟩)
    · exact .order horder
    · rcases hplace with ⟨ht, rfl⟩ | ⟨ht, ⟨d, hd, ⟨b, hb⟩, hname⟩, rfl⟩
      · exact .type ha ht
      · exact .again ha ht hd hb hname
    · rcases hread with ⟨ho, hp, rfl⟩ | ⟨hp, raw, hraw, ⟨ht, rfl⟩ | ⟨ht, rfl⟩⟩
      · exact .parts hfits ho hp
      · exact .number hfits hp hraw ht
      · exact .binary hfits hp hraw ht

/-! ### The first offence -/

/-- Whether this is what is wrong with the criterion at a position behind those before it. -/
def OffendsAt (active : Option KeySchema) (criteria : List Criterion) (i : ℕ)
    (fault : InputError) : Prop :=
  ∃ c, criteria[i]? = some c ∧ c.Offends active (criteria.take i) fault

theorem offendsAt_length_iff {cs : List Criterion} :
    OffendsAt active (before ++ c :: cs) before.length fault ↔ c.Offends active before fault := by
  rw [OffendsAt, List.getElem?_append_right (Nat.le_refl _), Nat.sub_self, List.take_left]
  simp

/-- What follows a position is of no matter there. -/
theorem offendsAt_append_iff {criteria more : List Criterion} {i : ℕ} (hi : i < criteria.length) :
    OffendsAt active (criteria ++ more) i fault ↔ OffendsAt active criteria i fault := by
  rw [OffendsAt, OffendsAt, List.getElem?_append_left hi,
    List.take_append_of_le_length (Nat.le_of_lt hi)]

end Criterion

/-! ### Compilation -/

section

variable {active : Option KeySchema} {index : ℕ} {taken : List String} {before : List Criterion}
variable {c : Criterion} {cs : List Criterion} {fault : InputError}

theorem compileFrom_cons_of_offends (ht : Criterion.AreTaken active before taken)
    (h : c.Offends active before fault) :
    compileFrom active index taken (c :: cs) = .error fault := by
  rcases (Criterion.offends_iff ht).1 h with hk | ⟨⟨isKey, hk⟩, ho⟩
  · exact Except.bind_eq_error_iff.2 (.inl hk)
  · exact Except.bind_eq_error_iff.2 (.inr ⟨isKey, hk, Except.bind_eq_error_iff.2 (.inl ho)⟩)

/-- Behind a criterion that does not offend the others are compiled. -/
theorem compileFrom_cons_of_not_offends (ht : Criterion.AreTaken active before taken)
    (h : ∀ fault, ¬c.Offends active before fault) :
    compileFrom active index taken (c :: cs) = .error fault ↔
      compileFrom active (index + 1) (if c.suits active then c.name :: taken else taken) cs =
        .error fault := by
  simp only [Criterion.offends_iff ht, not_or, not_and] at h
  rcases hk : c.isKey active taken with e | isKey
  · exact absurd hk (h e).1
  · rcases ho : c.operands with e | operands
    · exact absurd ho ((h e).2 ⟨isKey, hk⟩)
    · obtain ⟨-, rfl⟩ := Criterion.isKey_eq_ok_iff.1 hk
      rw [compileFrom, hk, ho]
      exact Except.map_eq_error_iff

/-- Behind criteria that do not offend, what is told of others is the first offence among them. -/
theorem compileFrom_eq_error_iff (ht : Criterion.AreTaken active before taken) :
    compileFrom active index taken cs = .error fault ↔
      ∃ i, before.length ≤ i ∧ Criterion.OffendsAt active (before ++ cs) i fault ∧
        ∀ j, before.length ≤ j → j < i → ∀ f, ¬Criterion.OffendsAt active (before ++ cs) j f := by
  induction cs generalizing before taken index with
  | nil =>
    constructor
    · rintro ⟨⟩
    · rintro ⟨i, hi, ⟨c, hc, -⟩, -⟩
      rw [List.append_nil, List.getElem?_eq_none hi] at hc
      cases hc
  | cons c cs ih =>
    by_cases hoffends : ∃ f, c.Offends active before f
    · obtain ⟨f, hf⟩ := hoffends
      rw [compileFrom_cons_of_offends ht hf, Except.error.injEq]
      constructor
      · rintro rfl
        exact ⟨before.length, Nat.le_refl _, Criterion.offendsAt_length_iff.2 hf,
          fun j hj hlt => absurd hlt (Nat.not_lt.2 hj)⟩
      · rintro ⟨i, hi, hat, hnone⟩
        rcases Nat.eq_or_lt_of_le hi with rfl | hlt
        · have hfault : compileFrom active index taken (c :: cs) = .error fault :=
            compileFrom_cons_of_offends ht (Criterion.offendsAt_length_iff.1 hat)
          rw [compileFrom_cons_of_offends ht hf] at hfault
          exact Except.error.inj hfault
        · exact absurd (Criterion.offendsAt_length_iff.2 hf) (hnone _ (Nat.le_refl _) hlt f)
    · have hnot := not_exists.1 hoffends
      rw [compileFrom_cons_of_not_offends ht hnot, ih (ht.concat c), List.length_append,
        List.append_assoc, List.singleton_append, List.length_singleton]
      have hzero : ∀ f, ¬Criterion.OffendsAt active (before ++ c :: cs) before.length f :=
        fun f hat => hnot f (Criterion.offendsAt_length_iff.1 hat)
      constructor
      · rintro ⟨i, hi, hat, hnone⟩
        refine ⟨i, by omega, hat, fun j hj hlt => ?_⟩
        rcases Nat.eq_or_lt_of_le hj with rfl | hj
        · exact hzero
        · exact hnone j hj hlt
      · rintro ⟨i, hi, hat, hnone⟩
        rcases Nat.eq_or_lt_of_le hi with rfl | hi
        · exact absurd hat (hzero fault)
        · exact ⟨i, hi, hat, fun j hj hlt => hnone j (by omega) hlt⟩

theorem compile_eq_error_iff :
    compile cs active = .error fault ↔
      ∃ i, Criterion.OffendsAt active cs i fault ∧
        ∀ j < i, ∀ f, ¬Criterion.OffendsAt active cs j f := by
  rw [compile, Except.map_eq_error_iff, compileFrom_eq_error_iff Criterion.areTaken_nil]
  simp

/-- What is told of criteria is told of any criteria that begin with them. -/
theorem compile_append_of_error (h : compile cs active = .error fault) (more : List Criterion) :
    compile (cs ++ more) active = .error fault := by
  obtain ⟨i, ⟨c, hc, hoffends⟩, hnone⟩ := compile_eq_error_iff.1 h
  obtain ⟨hi, -⟩ := List.getElem?_eq_some_iff.1 hc
  refine compile_eq_error_iff.2 ⟨i, ?_, fun j hj f => ?_⟩
  · exact (Criterion.offendsAt_append_iff hi).2 ⟨c, hc, hoffends⟩
  · rw [Criterion.offendsAt_append_iff (Nat.lt_trans hj hi)]
    exact hnone j hj f

/-- Whether nothing is wrong with criteria for a reading by this key. The order of the criteria does
not matter. -/
structure Criterion.Compilable (active : Option KeySchema) (cs : List Criterion) : Prop where
  /-- The hash attribute is not compared by order. -/
  order : ∀ c ∈ cs, ¬c.OrdersHash active
  /-- What can be a key condition has the type of the key attribute. -/
  type : ∀ c ∈ cs, ∀ a, c.Eligible active a → a.type = c.type
  /-- What can be key conditions is about different attributes. -/
  distinct : cs.Pairwise fun c d =>
    (∃ a, c.Eligible active a) → (∃ b, d.Eligible active b) → c.name ≠ d.name
  /-- What asks for a value between two has two parts. -/
  parts : ∀ c ∈ cs, c.operator = .between → c.parts.length = 2
  /-- All operands are of the types in which they are meant. -/
  operands : ∀ c ∈ cs, ∀ raw ∈ c.raws, ∃ v, c.type.coerce? raw = some v

theorem compilable_iff : Criterion.Compilable active cs ↔ Compiles active [] cs := by
  have hnodup : ((cs.filter (·.suits active)).map Criterion.name).Nodup ↔
      cs.Pairwise fun c d =>
        (∃ a, c.Eligible active a) → (∃ b, d.Eligible active b) → c.name ≠ d.name := by
    rw [List.nodup_iff_pairwise_ne, List.pairwise_map, List.pairwise_filter]
    simp only [Criterion.suits_iff]
  constructor
  · rintro ⟨horder, htype, hdistinct, hparts, hoperands⟩
    refine ⟨fun c hc => ?_, fun c hc => ?_, hnodup.2 hdistinct⟩
    · exact Criterion.isPlaceable_iff.2
        ⟨horder c hc, fun a ha => ⟨htype c hc a ha, List.not_mem_nil⟩⟩
    · exact Criterion.exists_operands_iff.2 ⟨hparts c hc, hoperands c hc⟩
  · rintro ⟨hplaceable, hreadable, hn⟩
    have hplace := fun c hc => Criterion.isPlaceable_iff.1 (hplaceable c hc)
    have hread := fun c hc => Criterion.exists_operands_iff.1 (hreadable c hc)
    exact ⟨fun c hc => (hplace c hc).1, fun c hc a ha => ((hplace c hc).2 a ha).1, hnodup.1 hn,
      fun c hc => (hread c hc).1, fun c hc => (hread c hc).2⟩

theorem exists_compile_iff : (∃ e, compile cs active = .ok e) ↔ Criterion.Compilable active cs := by
  simp only [compilable_iff, compile_eq_ok_iff, exists_and_left, and_iff_left_iff_imp]
  exact fun _ => ⟨⟨_⟩, rfl⟩

end

namespace Criterion

/-- Criteria compile exactly if nothing is wrong with them, in whatever order they come. If they do
not, what is told is the first offence of the first criterion that offends behind those before it,
and the same is told of all criteria that begin with these. -/
theorem compiles_or_offends (active : Option KeySchema) (criteria : List Criterion) :
    ((∃ e, compile criteria active = .ok e) ↔ Compilable active criteria) ∧
      (∀ fault, compile criteria active = .error fault ↔
        ∃ i, OffendsAt active criteria i fault ∧ ∀ j < i, ∀ f, ¬OffendsAt active criteria j f) ∧
      ∀ fault more, compile criteria active = .error fault →
        compile (criteria ++ more) active = .error fault :=
  ⟨exists_compile_iff, fun _ => compile_eq_error_iff,
    fun _ more h => compile_append_of_error h more⟩

/-- Films by their year and title. -/
def filmKey : KeySchema := ⟨⟨"year", .number⟩, some ⟨"title", .text⟩⟩

/-- Criteria of which the third is a second key condition on the title and the fourth asks for a
rating that is no number. -/
def filmCriteria : List Criterion :=
  [⟨"year", .equal, "2013", .number⟩, ⟨"title", .beginsWith, "R", .text⟩,
    ⟨"title", .lessOrEqual, "Rush", .text⟩, ⟨"rating", .between, "high", .number⟩]

theorem compiles_or_offends_of_films :
    ¬Compilable (some filmKey) filmCriteria ∧ Compilable none (filmCriteria.take 3) ∧
      OffendsAt (some filmKey) filmCriteria 2 (.duplicateKeyCondition "title") ∧
      compile (filmCriteria.take 3) (some filmKey) = .error (.duplicateKeyCondition "title") ∧
      compile (filmCriteria.take 3 ++ filmCriteria.drop 3) (some filmKey) =
        .error (.duplicateKeyCondition "title") := by
  have hall : compile filmCriteria (some filmKey) = .error (.duplicateKeyCondition "title") := by
    decide +kernel
  have hthree : compile (filmCriteria.take 3) (some filmKey) =
    .error (.duplicateKeyCondition "title") := by decide +kernel
  obtain ⟨hok, -, -⟩ := compiles_or_offends (some filmKey) filmCriteria
  obtain ⟨-, -, hmore⟩ := compiles_or_offends (some filmKey) (filmCriteria.take 3)
  refine ⟨fun h => ?_, ?_, ?_, hthree, hmore _ (filmCriteria.drop 3) hthree⟩
  · obtain ⟨e, he⟩ := hok.2 h
    rw [hall] at he
    cases he
  · have hscan : compile (filmCriteria.take 3) none =
        .ok ⟨[⟨0, "year", .equal, .one (.number "2013"), false⟩,
          ⟨1, "title", .beginsWith, .one (.text "R"), false⟩,
          ⟨2, "title", .lessOrEqual, .one (.text "Rush"), false⟩]⟩ := by
      decide +kernel
    exact (compiles_or_offends none (filmCriteria.take 3)).1.1 ⟨_, hscan⟩
  · refine ⟨⟨"title", .lessOrEqual, "Rush", .text⟩, rfl, ?_⟩
    exact .again (a := ⟨"title", .text⟩) (b := ⟨"title", .text⟩)
      (d := ⟨"title", .beginsWith, "R", .text⟩)
      (.range rfl rfl (by decide) rfl (by decide)) rfl (by simp [filmCriteria])
      (.range rfl rfl (by decide) rfl (by decide)) rfl

end Criterion

end Tablescope
