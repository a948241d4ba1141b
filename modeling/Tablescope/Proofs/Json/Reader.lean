import Mathlib.Data.List.Basic
import Tablescope.Json.Reader

/-!
# Values are read back from their tokens

The reader finds a value in its tokens, whatever is behind them, and leaves that alone. So the
tokens tell the value.
-/

namespace Tablescope.Json

variable {fuel : Nat}

/-- No value begins as an array ends. -/
theorem tokens_ne_closeArray (j : Json) (rest rest' : List Token) :
    j.tokens ++ rest ≠ .closeArray :: rest' := by
  intro h
  fun_cases tokens j <;> cases h

theorem tokens_ne_nil (j : Json) : j.tokens ≠ [] := by
  intro h
  fun_cases tokens j <;> cases h

theorem readValue_openArray {ts : List Token} (h : ∀ rest, ts ≠ .closeArray :: rest) :
    readValue (fuel + 1) (.openArray :: ts) =
      (readElements fuel ts).map fun r => (.array r.1, r.2) := by
  rw [readValue]
  · cases readElements fuel ts <;> rfl
  · rintro rest rfl
    exact h rest rfl

theorem readValue_openObject {ts : List Token} (h : ∀ rest, ts ≠ .closeObject :: rest) :
    readValue (fuel + 1) (.openObject :: ts) =
      (readMembers fuel ts).map fun r => (ofMembers r.1, r.2) := by
  rw [readValue]
  · cases readMembers fuel ts <;> rfl
  · rintro rest rfl
    exact h rest rfl

theorem ofMembers_some (ms : List (String × Json)) :
    ofMembers (ms.map fun m => (some m.1, m.2)) = .object ms := by
  have hnames : (ms.map fun m => (some m.1, m.2)).mapM
      (fun m : Option String × Json => m.1.map fun name => (name, m.2)) = some ms := by
    induction ms with
    | nil => rfl
    | cons m ms ih =>
      rw [List.map_cons, List.mapM_cons, ih]
      rfl
  rw [ofMembers, hnames]

mutual

/-- A value is read back from its tokens. -/
theorem readValue_tokens (j : Json) {fuel : Nat} (hfuel : 2 * j.tokens.length ≤ fuel)
    (rest : List Token) : readValue fuel (j.tokens ++ rest) = some (j, rest) := by
  match fuel, j, hfuel with
  | 0, j, hfuel =>
    have hpos := List.length_pos_iff.2 (tokens_ne_nil j)
    omega
  | fuel + 1, .null, _ => rfl
  | fuel + 1, .bool b, _ => rfl
  | fuel + 1, .number lexeme, _ => rfl
  | fuel + 1, .string s, _ => rfl
  | fuel + 1, .unreadable, _ => rfl
  | fuel + 1, .array [], _ => rfl
  | fuel + 1, .array (e :: es), hfuel =>
    simp only [tokens, List.length_cons, List.length_append, List.length_nil] at hfuel
    simp only [tokens, List.cons_append, List.append_assoc, List.nil_append]
    rw [readValue_openArray (tokens_ne_closeArray e _),
      readElements_tokens e es (by omega) rest, Option.map_some]
  | fuel + 1, .object [], _ => rfl
  | fuel + 1, .object ((name, value) :: ms), hfuel =>
    simp only [tokens, List.length_cons, List.length_append, List.length_nil] at hfuel
    simp only [tokens, List.cons_append, List.append_assoc, List.nil_append]
    rw [readValue_openObject (fun rest' h => by cases h),
      readMembers_tokens name value ms (by omega) rest, Option.map_some]
    exact congrArg (fun j => some (j, rest)) (ofMembers_some ((name, value) :: ms))
termination_by sizeOf j

/-- So are the elements of an array. -/
theorem readElements_tokens (e : Json) (es : List Json) {fuel : Nat}
    (hfuel : 2 * (e.tokens.length + (elementTokens es).length) + 1 ≤ fuel) (rest : List Token) :
    readElements fuel (e.tokens ++ (elementTokens es ++ .closeArray :: rest)) =
      some (e :: es, rest) := by
  match fuel, es, hfuel with
  | fuel + 1, [], hfuel =>
    rw [elementTokens, List.nil_append, readElements, readValue_tokens e (by omega)]
    rfl
  | fuel + 1, f :: es, hfuel =>
    simp only [elementTokens, List.length_cons, List.length_append] at hfuel
    rw [elementTokens, List.cons_append, List.append_assoc, readElements,
      readValue_tokens e (by omega)]
    simp only [Option.bind_eq_bind, Option.bind_some]
    rw [readElements_tokens f es (by omega) rest]
    rfl
termination_by sizeOf e + sizeOf es

/-- So are the members of an object. -/
theorem readMembers_tokens (name : String) (value : Json) (ms : List (String × Json)) {fuel : Nat}
    (hfuel : 2 * (value.tokens.length + (memberTokens ms).length) + 1 ≤ fuel)
    (rest : List Token) :
    readMembers fuel
        (.text name :: .colon :: (value.tokens ++ (memberTokens ms ++ .closeObject :: rest))) =
      some (((name, value) :: ms).map fun m => (some m.1, m.2), rest) := by
  match fuel, ms, hfuel with
  | fuel + 1, [], hfuel =>
    rw [memberTokens, List.nil_append, readMembers, readValue_tokens value (by omega)]
    rfl
  | fuel + 1, (next, value') :: ms, hfuel =>
    simp only [memberTokens, List.length_cons, List.length_append] at hfuel
    rw [memberTokens, readMembers]
    simp only [List.cons_append, List.append_assoc]
    rw [readValue_tokens value (by omega)]
    simp only [Token.name?, Option.bind_eq_bind, Option.bind_some]
    rw [readMembers_tokens next value' ms (by omega) rest]
    rfl
termination_by sizeOf value + sizeOf ms

end

theorem ofTokens?_tokens (j : Json) : ofTokens? j.tokens = some j := by
  have h := readValue_tokens j (Nat.le_succ (2 * j.tokens.length)) []
  rw [List.append_nil] at h
  rw [ofTokens?, h]

/-- Values with the same tokens are the same. -/
theorem tokens_injective {a b : Json} (h : a.tokens = b.tokens) : a = b := by
  have hread := ofTokens?_tokens a
  rw [h, ofTokens?_tokens, Option.some.injEq] at hread
  exact hread.symm

end Tablescope.Json
