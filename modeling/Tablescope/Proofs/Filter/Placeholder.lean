import Tablescope.Proofs.Filter.Criterion
import Tablescope.Proofs.Filter.Phrase
import Tablescope.Proofs.NameMap

/-!
# Placeholders stand for one thing each

The clause of a criterion is a phrase whose placeholders are numbered by the position of the
criterion. The digits of the number end where the placeholder ends or an underscore follows, so
`:key1` is neither `:key10` nor `:key1_start`, and every placeholder of compiled criteria is bound
once and looked up to what it was bound to.
-/

namespace Tablescope

namespace Clause

/-! ### Clauses as phrases -/

/-- The digits of a position. -/
def digits (index : Nat) : List Char := (toString index).toList

theorem isDigit_of_mem_digits {index : Nat} {c : Char} (h : c ∈ digits index) :
    c.isDigit = true := by
  rw [digits, Nat.toString_eq_repr, Nat.toList_repr] at h
  exact Nat.isDigit_of_mem_toDigits (by decide) (by decide) h

theorem digits_injective {i j : Nat} (h : digits i = digits j) : i = j := by
  rw [digits, digits, Nat.toString_eq_repr, Nat.toString_eq_repr, Nat.toList_repr,
    Nat.toList_repr] at h
  rw [← Nat.ofDigitChars_toDigits (b := 10) (n := i) (by decide) (by decide), h,
    Nat.ofDigitChars_toDigits (by decide) (by decide)]

/-- What follows the first character of a placeholder. -/
def stem (index : Nat) (ending : List Char) : List Char := "key".toList ++ digits index ++ ending

theorem all_stem {ending : List Char} (h : ending.all isWordChar = true) (index : Nat) :
    (stem index ending).all isWordChar = true := by
  have hdigits : (digits index).all isWordChar = true := by
    rw [List.all_eq_true]
    intro c hc
    simp only [isWordChar, Char.isAlphanum, isDigit_of_mem_digits hc, Bool.or_true, Bool.true_or]
  rw [stem, List.all_append, List.all_append, hdigits, h]
  rfl

/-- The word of the placeholders without an ending. -/
def word (index : Nat) : Word := ⟨stem index [], all_stem rfl index⟩

/-- The word of the placeholder of the lower operand. -/
def startWord (index : Nat) : Word := ⟨stem index "_start".toList, all_stem rfl index⟩

/-- The word of the placeholder of the upper operand. -/
def endWord (index : Nat) : Word := ⟨stem index "_end".toList, all_stem rfl index⟩

/-- The phrase that a clause is. -/
def phrase (c : Clause) : Phrase :=
  match h : c.operator.arity with
  | .none => .presence c.operator (word c.index) h
  | .one => .comparison c.operator (word c.index) (word c.index) h
  | .two => .interval (word c.index) (startWord c.index) (endWord c.index)

/-! ### Placeholders as characters -/

theorem toList_nameKey (index : Nat) : (nameKey index).toList = '#' :: stem index [] := by
  rw [nameKey, String.toList_append, stem, List.append_nil]
  rfl

theorem toList_valueKey (index : Nat) : (valueKey index).toList = ':' :: stem index [] := by
  rw [valueKey, String.toList_append, stem, List.append_nil]
  rfl

theorem toList_startKey (index : Nat) :
    (startKey index).toList = ':' :: stem index "_start".toList := by
  rw [startKey, String.toList_append, toList_valueKey, stem, stem, List.append_nil]
  rfl

theorem toList_endKey (index : Nat) :
    (endKey index).toList = ':' :: stem index "_end".toList := by
  rw [endKey, String.toList_append, toList_valueKey, stem, stem, List.append_nil]
  rfl

theorem toList_presence (symbol : String) (index : Nat) :
    (symbol ++ "(" ++ nameKey index ++ ")").toList =
      symbol.toList ++ '(' :: '#' :: (stem index [] ++ [')']) := by
  simp only [String.toList_append, toList_nameKey, List.append_assoc, List.cons_append]
  rfl

theorem toList_call (symbol : String) (index : Nat) :
    (symbol ++ "(" ++ nameKey index ++ ", " ++ valueKey index ++ ")").toList =
      symbol.toList ++
        '(' :: '#' :: (stem index [] ++ ',' :: ' ' :: ':' :: (stem index [] ++ [')'])) := by
  simp only [String.toList_append, toList_nameKey, toList_valueKey, List.append_assoc,
    List.cons_append]
  rfl

theorem toList_relation (symbol : String) (index : Nat) :
    (nameKey index ++ " " ++ symbol ++ " " ++ valueKey index).toList =
      '#' :: (stem index [] ++ ' ' :: (symbol.toList ++ ' ' :: ':' :: stem index [])) := by
  simp only [String.toList_append, toList_nameKey, toList_valueKey, List.append_assoc,
    List.cons_append]
  rfl

theorem toList_interval (index : Nat) :
    (nameKey index ++ " BETWEEN " ++ startKey index ++ " AND " ++ endKey index).toList =
      '#' :: (stem index [] ++ " BETWEEN :".toList ++ stem index "_start".toList ++
        " AND :".toList ++ stem index "_end".toList) := by
  simp only [String.toList_append, toList_nameKey, toList_startKey, toList_endKey,
    List.append_assoc, List.cons_append]
  rfl

/-- The phrase of a clause is written as the clause is. -/
theorem text_phrase (c : Clause) : c.phrase.text = c.text := by
  obtain ⟨index, operator⟩ := c
  apply String.toList_injective
  rw [Phrase.text, String.toList_ofList]
  cases operator with
  | present | absent => exact (toList_presence _ index).symm
  | beginsWith | contains => exact (toList_call _ index).symm
  | between => exact (toList_interval index).symm
  | equal | unequal | less | lessOrEqual | greater | greaterOrEqual =>
    exact (toList_relation _ index).symm

theorem operator_phrase (c : Clause) : c.phrase.operator = c.operator := by
  obtain ⟨index, operator⟩ := c
  cases operator <;> rfl

theorem name_phrase (c : Clause) : c.phrase.name = nameKey c.index := by
  apply String.toList_injective
  rw [toList_nameKey, Phrase.name, String.toList_ofList]
  obtain ⟨index, operator⟩ := c
  cases operator <;> rfl

/-! ### Positions -/

/-- The digits of a placeholder end where the ending begins. -/
theorem takeWhile_stem (index : Nat) {ending : List Char} (h : Text.Stops Char.isDigit ending) :
    ((stem index ending).drop 3).takeWhile Char.isDigit = digits index :=
  Text.takeWhile_run (fun _ hc => isDigit_of_mem_digits hc) h

theorem index_eq_of_stem_eq {i j : Nat} {xs ys : List Char} (hx : Text.Stops Char.isDigit xs)
    (hy : Text.Stops Char.isDigit ys) (h : stem i xs = stem j ys) : i = j := by
  apply digits_injective
  rw [← takeWhile_stem i hx, ← takeWhile_stem j hy, h]

theorem nameKey_injective {i j : Nat} (h : nameKey i = nameKey j) : i = j := by
  have hchars := congrArg String.toList h
  rw [toList_nameKey, toList_nameKey, List.cons.injEq] at hchars
  exact index_eq_of_stem_eq Text.stops_nil Text.stops_nil hchars.2

end Clause

namespace Condition

open Clause

/-- Every placeholder of an operand begins with the position of its condition. -/
theorem exists_stem_of_mem_bindings {d : Condition} {e : String × Scalar} (h : e ∈ d.bindings) :
    ∃ ending : List Char, e.1.toList = ':' :: stem d.index ending ∧
      Text.Stops Char.isDigit ending := by
  unfold bindings at h
  split at h
  · cases h
  · rw [List.mem_singleton] at h
    rw [h]
    exact ⟨[], toList_valueKey _, Text.stops_nil⟩
  · rw [List.mem_cons, List.mem_singleton] at h
    rcases h with rfl | rfl
    · exact ⟨"_start".toList, toList_startKey _, Text.stops_cons rfl _⟩
    · exact ⟨"_end".toList, toList_endKey _, Text.stops_cons rfl _⟩

theorem startKey_ne_endKey (index : Nat) : startKey index ≠ endKey index := by
  intro h
  have hchars := congrArg String.toList h
  rw [toList_startKey, toList_endKey, stem, stem, List.cons.injEq, List.append_cancel_left_eq]
    at hchars
  exact absurd hchars.2 (by decide)

/-- Conditions at different positions bind different placeholders. -/
theorem index_eq_of_mem_bindings {d d' : Condition} {e f : String × Scalar} (he : e ∈ d.bindings)
    (hf : f ∈ d'.bindings) (h : e.1 = f.1) : d.index = d'.index := by
  obtain ⟨xs, hx, hxs⟩ := exists_stem_of_mem_bindings he
  obtain ⟨ys, hy, hys⟩ := exists_stem_of_mem_bindings hf
  have hstem := congrArg String.toList h
  rw [hx, hy, List.cons.injEq] at hstem
  exact index_eq_of_stem_eq hxs hys hstem.2

/-- A condition binds different placeholders. -/
theorem nodup_bindings (d : Condition) : (d.bindings.map Prod.fst).Nodup := by
  unfold bindings
  split
  · exact List.nodup_nil
  · exact List.nodup_singleton _
  · rw [List.map_cons, List.map_cons, List.map_nil, List.nodup_cons, List.mem_singleton]
    exact ⟨startKey_ne_endKey _, List.nodup_singleton _⟩

theorem nodup_flatMap_bindings {ds : List Condition} (hn : (ds.map index).Nodup) :
    ((ds.flatMap bindings).map Prod.fst).Nodup := by
  rw [List.map_flatMap, List.nodup_flatMap]
  refine ⟨fun d _ => nodup_bindings d, ?_⟩
  refine (List.pairwise_map.1 (List.nodup_iff_pairwise_ne.1 hn)).imp fun hne k hk hk' => ?_
  obtain ⟨e, he, rfl⟩ := List.mem_map.1 hk
  obtain ⟨f, hf, hef⟩ := List.mem_map.1 hk'
  exact hne (index_eq_of_mem_bindings he hf hef.symm)

/-- A placeholder is bound once. -/
theorem eq_of_mem_bindings {ds : List Condition} (hn : (ds.map index).Nodup) {d d' : Condition}
    (hd : d ∈ ds) (hd' : d' ∈ ds) {e f : String × Scalar} (he : e ∈ d.bindings)
    (hf : f ∈ d'.bindings) (h : e.1 = f.1) : e = f := by
  obtain rfl := List.inj_on_of_nodup_map hn hd hd' (index_eq_of_mem_bindings he hf h)
  exact List.inj_on_of_nodup_map d.nodup_bindings he hf h

/-- The placeholders in a clause are those that its operands are bound to. -/
theorem operands_phrase {d : Condition} (h : d.operands.arity = d.operator.arity) :
    d.clause.phrase.operands = d.bindings.map Prod.fst := by
  obtain ⟨index, name, operator, operands, isKey⟩ := d
  have hvalue : String.ofList (':' :: stem index []) = valueKey index := by
    rw [← toList_valueKey, String.ofList_toList]
  have hstart : String.ofList (':' :: stem index "_start".toList) = startKey index := by
    rw [← toList_startKey, String.ofList_toList]
  have hend : String.ofList (':' :: stem index "_end".toList) = endKey index := by
    rw [← toList_endKey, String.ofList_toList]
  cases operands with
  | none =>
    cases operator <;> cases h <;> rfl
  | one v =>
    cases operator <;> cases h <;> exact congrArg (· :: []) hvalue
  | pair low high =>
    cases operator <;> cases h
    exact congrArg₂ (fun s t => [s, t]) hstart hend

theorem toList_operands (d : Condition) : d.operands.toList = d.bindings.map Prod.snd := by
  obtain ⟨index, name, operator, operands, isKey⟩ := d
  cases operands <;> rfl

end Condition

end Tablescope
