import Tablescope.Proofs.Filter.KeyCondition

/-!
# Placeholders occur where they are bound

A placeholder occurs in a text where its mark stands, `#` or `:`, with the longest word behind it.
The texts of compiled criteria contain the placeholders that are bound and no others, each once: the
clause of a criterion has its own name and its own operands, and nothing in between the clauses
looks like a placeholder.
-/

namespace Tablescope

/-! ### Marks in characters -/

/-- The words that begin with a mark, each as long as it can be. -/
def markedWords (mark : Char) : List Char → List (List Char)
  | [] => []
  | c :: cs =>
    if c = mark then (c :: cs.takeWhile isWordChar) :: markedWords mark cs
    else markedWords mark cs

/-- The placeholders with a mark that occur in a text, in order and with repetitions. -/
def occurrences (mark : Char) (text : String) : List String :=
  (markedWords mark text.toList).map String.ofList

section

variable {mark : Char} {cs ds : List Char}

theorem markedWords_append_of_not_mem (h : mark ∉ cs) :
    markedWords mark (cs ++ ds) = markedWords mark ds := by
  induction cs with
  | nil => rfl
  | cons c cs ih =>
    rw [List.mem_cons, not_or] at h
    rw [List.cons_append, markedWords, if_neg (Ne.symm h.1), ih h.2]

/-- Where no word goes on, the words on both sides are those of both together. -/
theorem markedWords_append (h : Text.Stops isWordChar ds) :
    markedWords mark (cs ++ ds) = markedWords mark cs ++ markedWords mark ds := by
  induction cs with
  | nil => rfl
  | cons c cs ih =>
    rw [List.cons_append, markedWords, markedWords, h.takeWhile_append, ih]
    split
    · rfl
    · rfl

theorem mark_not_mem_word (hm : isWordChar mark = false) (w : Word) : mark ∉ w.1 := by
  intro hw
  have hword := List.all_eq_true.1 w.2 mark hw
  rw [hm] at hword
  cases hword

theorem markedWords_cons_of_ne {c : Char} (hc : c ≠ mark) :
    markedWords mark (c :: cs) = markedWords mark cs :=
  if_neg hc

/-- One word behind its own mark. -/
theorem markedWords_word (hm : isWordChar mark = false) (w : Word) (h : Text.Stops isWordChar ds) :
    markedWords mark (mark :: (w.1 ++ ds)) = (mark :: w.1) :: markedWords mark ds := by
  rw [markedWords, if_pos rfl, Phrase.takeWhile_word w h,
    markedWords_append_of_not_mem (mark_not_mem_word hm w)]

/-- One word behind another mark. -/
theorem markedWords_word_of_ne {c : Char} (hc : c ≠ mark) (hm : isWordChar mark = false)
    (w : Word) : markedWords mark (c :: (w.1 ++ ds)) = markedWords mark ds := by
  rw [markedWords_cons_of_ne hc, markedWords_append_of_not_mem (mark_not_mem_word hm w)]

end

/-! ### Marks in phrases -/

namespace Phrase

theorem hash_not_mem_symbol (operator : Operator) : '#' ∉ operator.symbol.toList := by
  cases operator <;> decide

theorem colon_not_mem_symbol (operator : Operator) : ':' ∉ operator.symbol.toList := by
  cases operator <;> decide

/-- The attribute of a phrase is named once. -/
theorem markedWords_hash_chars (p : Phrase) : markedWords '#' p.chars = ['#' :: p.nameWord.1] := by
  have hword : isWordChar '#' = false := by decide
  cases p with
  | presence operator name ha =>
    rw [chars, markedWords_append_of_not_mem (hash_not_mem_symbol _),
      markedWords_cons_of_ne (by decide), markedWords_word hword _ (Text.stops_cons rfl _)]
    rfl
  | comparison operator name value ha =>
    rw [chars]
    split
    · rw [markedWords_append_of_not_mem (hash_not_mem_symbol _),
        markedWords_cons_of_ne (by decide), markedWords_word hword _ (Text.stops_cons rfl _),
        markedWords_cons_of_ne (by decide), markedWords_cons_of_ne (by decide),
        markedWords_word_of_ne (by decide) hword]
      rfl
    · rw [markedWords_word hword _ (Text.stops_cons rfl _), markedWords_cons_of_ne (by decide),
        markedWords_append_of_not_mem (hash_not_mem_symbol _), markedWords_cons_of_ne (by decide),
        ← List.append_nil value.1, markedWords_word_of_ne (by decide) hword]
      rfl
  | interval name low high =>
    have hstops : ∀ rest : List Char, Text.Stops isWordChar (" BETWEEN :".toList ++ rest) := fun _ =>
      Text.stops_cons (c := ' ') rfl _
    rw [chars, List.append_assoc, List.append_assoc, List.append_assoc,
      markedWords_word hword _ (hstops _), markedWords_append_of_not_mem (by decide),
      markedWords_append_of_not_mem (mark_not_mem_word hword low),
      markedWords_append_of_not_mem (by decide), ← List.append_nil high.1,
      markedWords_append_of_not_mem (mark_not_mem_word hword high)]
    rfl

/-- Every operand of a phrase occurs once, in order. -/
theorem markedWords_colon_chars (p : Phrase) :
    markedWords ':' p.chars = p.operandWords.map fun w => ':' :: w.1 := by
  have hword : isWordChar ':' = false := by decide
  have hbetween : ∀ rest : List Char,
      " BETWEEN :".toList ++ rest = " BETWEEN ".toList ++ ':' :: rest := fun _ => rfl
  have hand : ∀ rest : List Char, " AND :".toList ++ rest = " AND ".toList ++ ':' :: rest :=
    fun _ => rfl
  cases p with
  | presence operator name ha =>
    rw [chars, markedWords_append_of_not_mem (colon_not_mem_symbol _),
      markedWords_cons_of_ne (by decide), markedWords_word_of_ne (by decide) hword]
    rfl
  | comparison operator name value ha =>
    rw [chars]
    split
    · rw [markedWords_append_of_not_mem (colon_not_mem_symbol _),
        markedWords_cons_of_ne (by decide), markedWords_word_of_ne (by decide) hword,
        markedWords_cons_of_ne (by decide), markedWords_cons_of_ne (by decide),
        markedWords_word hword _ (Text.stops_cons rfl _)]
      rfl
    · rw [markedWords_word_of_ne (by decide) hword, markedWords_cons_of_ne (by decide),
        markedWords_append_of_not_mem (colon_not_mem_symbol _), markedWords_cons_of_ne (by decide),
        ← List.append_nil value.1, markedWords_word hword _ Text.stops_nil]
      rfl
  | interval name low high =>
    have hstops : ∀ rest : List Char, Text.Stops isWordChar (" AND ".toList ++ rest) := fun _ =>
      Text.stops_cons (c := ' ') rfl _
    rw [chars, List.append_assoc, List.append_assoc, List.append_assoc, hbetween, hand,
      markedWords_word_of_ne (by decide) hword, markedWords_append_of_not_mem (by decide),
      markedWords_word hword _ (hstops _), markedWords_append_of_not_mem (by decide),
      ← List.append_nil high.1, markedWords_word hword _ Text.stops_nil]
    rfl

theorem occurrences_hash_text (p : Phrase) : occurrences '#' p.text = [p.name] := by
  rw [occurrences, text, String.toList_ofList, markedWords_hash_chars]
  rfl

theorem occurrences_colon_text (p : Phrase) : occurrences ':' p.text = p.operands := by
  rw [occurrences, text, String.toList_ofList, markedWords_colon_chars, List.map_map]
  rfl

/-- Between the phrases of a row nothing is marked. -/
theorem markedWords_further {mark : Char} (hm : mark ∉ " AND ".toList) (ps : List Phrase) :
    markedWords mark (further ps) = ps.flatMap fun p => markedWords mark p.chars := by
  induction ps with
  | nil => rfl
  | cons p ps ih =>
    rw [further, List.flatMap_cons, ← further, markedWords_append (stops_further ps),
      markedWords_append_of_not_mem hm, ih, List.flatMap_cons]

/-- The placeholders of a row of phrases are those of the phrases. -/
theorem occurrences_row {mark : Char} (hm : mark ∉ " AND ".toList) (ps : List Phrase) :
    occurrences mark (" AND ".intercalate (ps.map text)) =
      ps.flatMap fun p => occurrences mark p.text := by
  cases ps with
  | nil => rfl
  | cons p ps =>
    rw [occurrences, toList_row, markedWords_append (stops_further ps), markedWords_further hm]
    simp only [occurrences, text, String.toList_ofList, List.flatMap_cons, List.map_append,
      List.map_flatMap]

end Phrase

/-! ### Marks in clauses -/

namespace Clause

/-- The placeholders of the operands of a clause, as many as its operator takes. -/
def valueKeys (c : Clause) : List String :=
  match c.operator.arity with
  | .none => []
  | .one => [valueKey c.index]
  | .two => [startKey c.index, endKey c.index]

theorem occurrences_hash_text (c : Clause) : occurrences '#' c.text = [nameKey c.index] := by
  rw [← text_phrase, Phrase.occurrences_hash_text, name_phrase]

/-- The placeholders of an expression are those of its clauses. -/
theorem occurrences_join? {mark : Char} (hm : mark ∉ " AND ".toList) (cs : List Clause) :
    occurrences mark ((join? cs).getD "") = cs.flatMap fun c => occurrences mark c.text := by
  cases cs with
  | nil => rfl
  | cons c cs =>
    have hrow := Phrase.occurrences_row hm ((c :: cs).map phrase)
    rw [List.map_map, show Phrase.text ∘ phrase = text from funext text_phrase,
      List.flatMap_map] at hrow
    simp only [text_phrase] at hrow
    exact hrow

end Clause

namespace Condition

variable {d : Condition}

theorem bindings_eq_zip (h : d.operands.arity = d.operator.arity) :
    d.bindings = d.clause.valueKeys.zip d.operands.toList := by
  unfold bindings Clause.valueKeys clause
  rw [← h]
  cases d.operands with
  | none => rfl
  | one v => rfl
  | pair low high => rfl

theorem occurrences_colon_text (h : d.operands.arity = d.operator.arity) :
    occurrences ':' d.clause.text = d.bindings.map Prod.fst := by
  rw [← Clause.text_phrase, Phrase.occurrences_colon_text, operands_phrase h]

end Condition

/-! ### Marks in compiled criteria -/

namespace ExpressionSet

variable {e : ExpressionSet} {criteria : List Criterion} {active : Option KeySchema}

theorem perm_names (hn : (e.conditions.map Condition.index).Nodup) :
    e.names.toList.Perm (e.conditions.map fun d => (Clause.nameKey d.index, d.name)) := by
  have hkeys := hn.map fun _ _ h => Clause.nameKey_injective h
  rw [List.map_map] at hkeys
  refine NameMap.perm_ofList ?_
  rw [List.map_map]
  exact hkeys

theorem perm_values (hn : (e.conditions.map Condition.index).Nodup) :
    e.values.toList.Perm (e.conditions.flatMap Condition.bindings) :=
  NameMap.perm_ofList (Condition.nodup_flatMap_bindings hn)

theorem perm_clauses (e : ExpressionSet) :
    (e.keyConditions ++ e.filters).Perm (e.conditions.map Condition.clause) := by
  rw [keyConditions, filters, ← List.map_append]
  exact (List.filter_append_perm _ _).map _

/-- The placeholders with a mark in all clauses of a set. -/
def placeholders (e : ExpressionSet) (mark : Char) : List String :=
  (e.keyConditions ++ e.filters).flatMap fun c => occurrences mark c.text

theorem perm_placeholders (e : ExpressionSet) (mark : Char) :
    (e.placeholders mark).Perm
      (e.conditions.flatMap fun d => occurrences mark d.clause.text) := by
  have hclauses := e.perm_clauses.flatMap_right fun c : Clause => occurrences mark c.text
  rwa [List.flatMap_map] at hclauses

theorem perm_placeholders_hash (hn : (e.conditions.map Condition.index).Nodup) :
    (e.placeholders '#').Perm e.names.names := by
  have hnames := (perm_names hn).map Prod.fst
  refine (perm_placeholders e '#').trans (List.Perm.trans (List.Perm.of_eq ?_) hnames.symm)
  simp only [Clause.occurrences_hash_text]
  rw [List.map_map, List.map_eq_flatMap]
  rfl

theorem perm_placeholders_colon (hn : (e.conditions.map Condition.index).Nodup)
    (ha : ∀ d ∈ e.conditions, d.operands.arity = d.operator.arity) :
    (e.placeholders ':').Perm e.values.names := by
  have hvalues := (perm_values hn).map Prod.fst
  refine (perm_placeholders e ':').trans (List.Perm.trans (List.Perm.of_eq ?_) hvalues.symm)
  rw [List.map_flatMap]
  exact List.flatMap_congr fun d hd => Condition.occurrences_colon_text (ha d hd)

/-- The placeholders in the two expressions are those of the clauses. -/
theorem occurrences_expressions {mark : Char} (hm : mark ∉ " AND ".toList) (e : ExpressionSet) :
    occurrences mark (e.keyCondition?.getD "") ++ occurrences mark (e.filter?.getD "") =
      e.placeholders mark := by
  rw [keyCondition?, filter?, Clause.occurrences_join? hm, Clause.occurrences_join? hm,
    placeholders, List.flatMap_append]

/-- Whether a set binds what it has to for its criteria, and uses all that it binds. -/
structure IsExact (e : ExpressionSet) (criteria : List Criterion) : Prop where
  /-- Each criterion has one name placeholder, for its attribute. -/
  names : e.names.toList.Perm (criteria.zipIdx.map fun p => (Clause.nameKey p.2, p.1.name))
  /-- Each criterion has as many operand placeholders as its operator takes operands, for those that
  its value writes. -/
  values : ∃ operands : Criterion → List Scalar, (∀ c ∈ criteria, c.Takes (operands c)) ∧
    e.values.toList.Perm (criteria.zipIdx.flatMap fun p =>
      (Criterion.clauseAt p).valueKeys.zip (operands p.1))
  /-- Each criterion has one clause. -/
  clauses : (e.keyConditions ++ e.filters).Perm (Criterion.clauses criteria)
  keyConditions : e.keyConditions.Sublist (Criterion.clauses criteria)
  filters : e.filters.Sublist (Criterion.clauses criteria)
  /-- Each name placeholder occurs once in all clauses, and nothing else occurs like it. -/
  hash : (e.placeholders '#').Perm e.names.names
  /-- Each operand placeholder occurs once in all clauses, and nothing else occurs like it. -/
  colon : (e.placeholders ':').Perm e.values.names

theorem arity_of_compile (h : compile criteria active = .ok e) :
    ∀ d ∈ e.conditions, d.operands.arity = d.operator.arity := by
  intro d hd
  rw [(compile_eq_ok_iff.1 h).2] at hd
  obtain ⟨p, hp, rfl⟩ := List.mem_map.1 hd
  exact Criterion.arity_of_operands (compilesTo_condition h hp).operands

theorem isExact_of_compile (h : compile criteria active = .ok e) : e.IsExact criteria where
  names := by
    have hnames := perm_names (nodup_index_of_compile h)
    rwa [(compile_eq_ok_iff.1 h).2, List.map_map] at hnames
  values := by
    refine ⟨fun c => (c.operands.toOption.getD .none).toList, fun c hc => ?_, ?_⟩
    · obtain ⟨operands, ho⟩ := (compile_eq_ok_iff.1 h).1.readable c hc
      simp only [ho]
      exact Criterion.takes_iff.2 ⟨operands, ho, rfl⟩
    · have hvalues := perm_values (nodup_index_of_compile h)
      rw [(compile_eq_ok_iff.1 h).2, List.flatMap_map] at hvalues
      refine hvalues.trans (List.Perm.of_eq (List.flatMap_congr fun p hp => ?_))
      exact Condition.bindings_eq_zip
        (Criterion.arity_of_operands (compilesTo_condition h hp).operands)
  clauses := perm_clauses_of_compile h
  keyConditions := keyConditions_sublist_clauses h
  filters := filters_sublist_clauses h
  hash := perm_placeholders_hash (nodup_index_of_compile h)
  colon := perm_placeholders_colon (nodup_index_of_compile h) (arity_of_compile h)

end ExpressionSet

end Tablescope
