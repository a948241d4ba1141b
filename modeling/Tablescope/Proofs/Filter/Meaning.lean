import Mathlib.Data.List.Forall2
import Tablescope.Attribute.Value
import Tablescope.Proofs.Filter.Compilation
import Tablescope.Proofs.Filter.Placeholder

/-!
# What compiled criteria mean

Compiled criteria say what the criteria say. To read an expression is to read its text as a row of
phrases, to put in what the placeholders stand for, and to ask whether all phrases hold; what the
operators mean does not matter. Compiled criteria are read so in two expressions, and both together
hold for an item exactly if every criterion does, with the operands that its value writes.
-/

namespace Tablescope

/-- What operators mean: whether they hold between the value of an attribute, if it has one, and
operands. -/
abbrev Interpretation := Operator → Option Value → List Scalar → Prop

/-- Whether a phrase holds for an item once its placeholders are replaced. -/
def Phrase.Holds (I : Interpretation) (names : NameMap String) (values : NameMap Scalar)
    (item : Item) (p : Phrase) : Prop :=
  ∃ name vs, names.get? p.name = some name ∧ p.operands.mapM values.get? = some vs ∧
    I p.operator (item.get? name) vs

/-- Whether an expression over the placeholders of a set holds for an item; no expression is
true. -/
def ExpressionSet.Holds (e : ExpressionSet) (I : Interpretation) (item : Item)
    (expression : Option String) : Prop :=
  ∀ text ∈ expression, ∃ ps, Phrase.Reads text ps ∧ ∀ p ∈ ps, p.Holds I e.names e.values item

/-- Whether a criterion holds for an item. -/
def Criterion.Holds (I : Interpretation) (item : Item) (c : Criterion) : Prop :=
  ∃ vs, c.Takes vs ∧ I c.operator (item.get? c.name) vs

/-! ### Conditions of criteria -/

/-- Whether a condition says what a criterion says. -/
structure Criterion.CompilesTo (c : Criterion) (d : Condition) : Prop where
  name : d.name = c.name
  operator : d.operator = c.operator
  operands : c.operands = .ok d.operands

theorem compileFrom_eq_ok_cases {active : Option KeySchema} {index : Nat} {taken : List String}
    {cs : List Criterion} {ds : List Condition} (h : compileFrom active index taken cs = .ok ds) :
    List.Forall₂ Criterion.CompilesTo cs ds ∧
      ds.map Condition.index = List.range' index cs.length := by
  induction cs generalizing index taken ds with
  | nil =>
    cases h
    exact ⟨.nil, rfl⟩
  | cons c cs ih =>
    obtain ⟨isKey, operands, rest, -, ho, hrest, rfl⟩ := compileFrom_cons_eq_ok_iff.1 h
    obtain ⟨hall, hindex⟩ := ih hrest
    refine ⟨.cons ⟨rfl, rfl, ho⟩ hall, ?_⟩
    rw [List.map_cons, hindex, List.length_cons, List.range'_succ]

/-- What holds of each criterion exactly if it does of its condition holds of all criteria exactly
if it does of all conditions. -/
theorem forall_criteria_iff {cs : List Criterion} {ds : List Condition}
    (h : List.Forall₂ Criterion.CompilesTo cs ds) {P : Criterion → Prop} {Q : Condition → Prop}
    (hpq : ∀ c, ∀ d ∈ ds, c.CompilesTo d → (P c ↔ Q d)) : (∀ c ∈ cs, P c) ↔ ∀ d ∈ ds, Q d := by
  induction h with
  | nil => simp
  | cons hcd _ ih =>
    rw [List.forall_mem_cons, List.forall_mem_cons, hpq _ _ (by simp) hcd,
      ih fun c d hd => hpq c d (.tail _ hd)]

namespace ExpressionSet

variable {e : ExpressionSet}

/-! ### Looking placeholders up -/

theorem get?_names (hn : (e.conditions.map Condition.index).Nodup) {d : Condition}
    (hd : d ∈ e.conditions) : e.names.get? (Clause.nameKey d.index) = some d.name := by
  refine NameMap.get?_ofList (fun x hx y hy hxy => ?_)
    (List.mem_map_of_mem (f := fun d : Condition => (Clause.nameKey d.index, d.name)) hd)
  obtain ⟨a, ha, rfl⟩ := List.mem_map.1 hx
  obtain ⟨b, hb, rfl⟩ := List.mem_map.1 hy
  rw [List.inj_on_of_nodup_map hn ha hb (Clause.nameKey_injective hxy)]

theorem mapM_get?_values (hn : (e.conditions.map Condition.index).Nodup) {d : Condition}
    (hd : d ∈ e.conditions) :
    (d.bindings.map Prod.fst).mapM e.values.get? = some (d.bindings.map Prod.snd) := by
  refine NameMap.mapM_get? fun b hb => ?_
  refine NameMap.get?_ofList (fun x hx y hy hxy => ?_) (List.mem_flatMap.2 ⟨d, hd, hb⟩)
  obtain ⟨a, ha, hx⟩ := List.mem_flatMap.1 hx
  obtain ⟨b, hb, hy⟩ := List.mem_flatMap.1 hy
  exact Condition.eq_of_mem_bindings hn ha hb hx hy hxy

/-- Whether a clause speaks of this attribute and these operands, its placeholders replaced by what
they stand for. -/
def Says (e : ExpressionSet) (c : Clause) (name : String) (vs : List Scalar) : Prop :=
  e.names.get? c.phrase.name = some name ∧ c.phrase.operands.mapM e.values.get? = some vs

/-- The clause of a condition says what the condition says. -/
theorem says_clause (hn : (e.conditions.map Condition.index).Nodup) {c : Criterion} {d : Condition}
    (hd : d ∈ e.conditions) (hc : c.CompilesTo d) : e.Says d.clause d.name d.operands.toList := by
  have harity : d.operands.arity = d.operator.arity := by
    rw [Criterion.arity_of_operands hc.operands, hc.operator]
  refine ⟨?_, ?_⟩
  · rw [Clause.name_phrase]
    exact get?_names hn hd
  · rw [Condition.operands_phrase harity, Condition.toList_operands]
    exact mapM_get?_values hn hd

theorem takes_iff_of_compilesTo {c : Criterion} {d : Condition} (hc : c.CompilesTo d)
    {vs : List Scalar} : c.Takes vs ↔ vs = d.operands.toList := by
  rw [Criterion.takes_iff, hc.operands]
  constructor
  · rintro ⟨o, ⟨⟩, rfl⟩
    rfl
  · rintro rfl
    exact ⟨_, rfl, rfl⟩

/-- The phrase of a condition holds if the criterion does. -/
theorem holds_phrase_iff (hn : (e.conditions.map Condition.index).Nodup) {c : Criterion}
    {d : Condition} (hd : d ∈ e.conditions) (hc : c.CompilesTo d) (I : Interpretation)
    (item : Item) :
    d.clause.phrase.Holds I e.names e.values item ↔ c.Holds I item := by
  obtain ⟨hname, hvalues⟩ := says_clause hn hd hc
  simp only [Phrase.Holds, Criterion.Holds, takes_iff_of_compilesTo hc, hname, hvalues,
    Option.some.injEq, exists_eq_left, Clause.operator_phrase]
  rw [← hc.name, ← hc.operator]
  constructor
  · rintro ⟨_, _, rfl, rfl, h⟩
    exact h
  · intro h
    exact ⟨_, _, rfl, rfl, h⟩

/-! ### Both expressions together -/

theorem reads_join {cs : List Clause} {text : String} (h : Clause.join? cs = some text) :
    Phrase.Reads text (cs.map Clause.phrase) := by
  cases cs with
  | nil => cases h
  | cons c cs =>
    cases h
    refine ⟨by simp, ?_⟩
    rw [List.map_map, show Phrase.text ∘ Clause.phrase = Clause.text from funext Clause.text_phrase]

/-- An expression of clauses holds exactly if their phrases do. -/
theorem holds_join_iff {cs : List Clause} (I : Interpretation) (item : Item) :
    e.Holds I item (Clause.join? cs) ↔ ∀ c ∈ cs, c.phrase.Holds I e.names e.values item := by
  rcases hj : Clause.join? cs with _ | text
  · cases cs with
    | nil => simp [Holds]
    | cons c cs => cases hj
  · have hreads := reads_join hj
    constructor
    · intro h c hc
      obtain ⟨ps, hps, hall⟩ := h text rfl
      rw [hps.unique hreads] at hall
      exact hall _ (List.mem_map_of_mem hc)
    · rintro h _ ⟨⟩
      refine ⟨_, hreads, fun p hp => ?_⟩
      obtain ⟨c, hc, rfl⟩ := List.mem_map.1 hp
      exact h c hc

theorem existsUnique_reads {cs : List Clause} {text : String} (h : text ∈ Clause.join? cs) :
    ∃! ps, Phrase.Reads text ps :=
  ⟨_, reads_join h, fun _ hps => hps.unique (reads_join h)⟩

/-- The key condition and the filter of compiled criteria can each be read in one way only, and read
so they both hold for an item exactly if every criterion does, with the one list of operands that
its value writes, whatever the operators mean and whatever characters are in names and values. -/
theorem holds_iff_criteria_hold {criteria : List Criterion} {active : Option KeySchema}
    (h : compile criteria active = .ok e) :
    (∀ text ∈ e.keyCondition?, ∃! ps, Phrase.Reads text ps) ∧
      (∀ text ∈ e.filter?, ∃! ps, Phrase.Reads text ps) ∧
      (∀ c ∈ criteria, ∃! vs, c.Takes vs) ∧
      ∀ (I : Interpretation) (item : Item),
        (e.Holds I item e.keyCondition? ∧ e.Holds I item e.filter?) ↔
          ∀ c ∈ criteria, c.Holds I item := by
  obtain ⟨ds, hds, rfl⟩ := Except.map_eq_ok_iff.1 h
  obtain ⟨hall, hindex⟩ := compileFrom_eq_ok_cases hds
  have hn : (ds.map Condition.index).Nodup := by
    rw [hindex]
    exact List.nodup_range'
  refine ⟨fun text ht => existsUnique_reads ht, fun text ht => existsUnique_reads ht, ?_, ?_⟩
  · refine (forall_criteria_iff hall (Q := fun _ => True) fun c d _ hc => ?_).2 fun _ _ => trivial
    refine iff_true_intro ⟨_, Criterion.takes_iff.2 ⟨_, hc.operands, rfl⟩, fun vs hvs => ?_⟩
    obtain ⟨o, ho, rfl⟩ := Criterion.takes_iff.1 hvs
    rw [hc.operands] at ho
    cases ho
    rfl
  · intro I item
    rw [keyCondition?, filter?, holds_join_iff, holds_join_iff, keyConditions, filters,
      List.forall_mem_map, List.forall_mem_map,
      forall_criteria_iff hall fun c d hd hc => (holds_phrase_iff (e := ⟨ds⟩) hn hd hc I item).symm]
    -- every condition is in one of the two expressions
    constructor
    · rintro ⟨hkey, hfilter⟩ d hd
      rcases hd' : d.isKey with _ | _
      · exact hfilter d (List.mem_filter.2 ⟨hd, by rw [hd']; rfl⟩)
      · exact hkey d (List.mem_filter.2 ⟨hd, hd'⟩)
    · intro hall
      exact ⟨fun d hd => hall d (List.mem_of_mem_filter hd),
        fun d hd => hall d (List.mem_of_mem_filter hd)⟩

/-- Criteria whose names and values look like parts of an expression. -/
def trickyCriteria : List Criterion :=
  [⟨"#key1 AND x", .between, ":key1 , \"", .text⟩, ⟨"id", .equal, ":key0_start", .text⟩,
    ⟨"id", .absent, ",", .number⟩]

theorem holds_iff_criteria_hold_of_tricky :
    let key : KeySchema := ⟨⟨"id", .text⟩, none⟩
    let e : ExpressionSet :=
      ⟨[⟨0, "#key1 AND x", .between, .pair (.text ":key1") (.text "\""), false⟩,
        ⟨1, "id", .equal, .one (.text ":key0_start"), true⟩, ⟨2, "id", .absent, .none, false⟩]⟩
    compile trickyCriteria (some key) = .ok e ∧
      (∀ text ∈ e.keyCondition?, ∃! ps, Phrase.Reads text ps) ∧
      (∀ text ∈ e.filter?, ∃! ps, Phrase.Reads text ps) ∧
      (∀ c ∈ trickyCriteria, ∃! vs, c.Takes vs) ∧
      ∀ (I : Interpretation) (item : Item),
        (e.Holds I item e.keyCondition? ∧ e.Holds I item e.filter?) ↔
          ∀ c ∈ trickyCriteria, c.Holds I item :=
  ⟨rfl, holds_iff_criteria_hold
    (show compile trickyCriteria (some ⟨⟨"id", .text⟩, none⟩) = .ok _ from rfl)⟩

end ExpressionSet

end Tablescope
