import Tablescope.Filter.Expression
import Tablescope.Proofs.Text.Run
import Mathlib.Data.List.Basic

/-!
# Reading expressions

An expression is a row of phrases with ` AND ` between them. A phrase speaks of one attribute, by a
placeholder that begins with `#`, and of as many operands as its operator takes, by placeholders
that begin with `:`; the rest of a placeholder is a word of letters, digits and underscores.

Between the bounds of an interval there is an ` AND ` too, and one placeholder may begin with all of
another, so it is not plain that a text can be read in one way only. It can, because a phrase tells
by itself where it ends: a word goes on for as long as there are word characters, and what stands
behind a phrase is not one.
-/

namespace Tablescope

/-! ### Phrases -/

/-- The characters that placeholders are made of. -/
def isWordChar (c : Char) : Bool := c.isAlphanum || c = '_'

/-- A run of word characters. -/
abbrev Word := { cs : List Char // cs.all isWordChar = true }

/-- One clause of an expression: the words of its placeholders and the operator that decides its
form. -/
inductive Phrase where
  | presence (operator : Operator) (name : Word) (h : operator.arity = .none)
  | comparison (operator : Operator) (name value : Word) (h : operator.arity = .one)
  | interval (name low high : Word)

namespace Phrase

/-- The operator of a phrase. -/
def operator : Phrase → Operator
  | presence operator _ _ => operator
  | comparison operator _ _ _ => operator
  | interval _ _ _ => .between

/-- The word of the attribute name. -/
def nameWord : Phrase → Word
  | presence _ name _ => name
  | comparison _ name _ _ => name
  | interval name _ _ => name

/-- The words of the operands. -/
def operandWords : Phrase → List Word
  | presence _ _ _ => []
  | comparison _ _ value _ => [value]
  | interval _ low high => [low, high]

/-- The placeholder of the attribute name. -/
def name (p : Phrase) : String := String.ofList ('#' :: p.nameWord.1)

/-- The placeholders of the operands. -/
def operands (p : Phrase) : List String := p.operandWords.map fun w => String.ofList (':' :: w.1)

/-- A phrase as characters. -/
def chars : Phrase → List Char
  | presence operator name _ => operator.symbol.toList ++ '(' :: '#' :: (name.1 ++ [')'])
  | comparison operator name value _ =>
    if operator = .beginsWith ∨ operator = .contains then
      operator.symbol.toList ++
        '(' :: '#' :: (name.1 ++ ',' :: ' ' :: ':' :: (value.1 ++ [')']))
    else '#' :: (name.1 ++ ' ' :: (operator.symbol.toList ++ ' ' :: ':' :: value.1))
  | interval name low high =>
    '#' :: (name.1 ++ " BETWEEN :".toList ++ low.1 ++ " AND :".toList ++ high.1)

/-- A phrase as text. -/
def text (p : Phrase) : String := String.ofList p.chars

/-- Whether a text is a row of these phrases. -/
def Reads (text : String) (ps : List Phrase) : Prop :=
  ps ≠ [] ∧ text = " AND ".intercalate (ps.map Phrase.text)

/-! ### Where a phrase ends -/

/-- What is found of a phrase: its operator, the words of its placeholders, and the characters
behind it. -/
abbrev Found := Operator × List Char × List (List Char) × List Char

/-- What is found if some characters begin with a phrase that puts its operator first. -/
def readCall (cs : List Char) : Option Found :=
  let symbol := cs.takeWhile (· ≠ '(')
  let cs := (cs.dropWhile (· ≠ '(')).drop 2
  let name := cs.takeWhile isWordChar
  let cs := cs.dropWhile isWordChar
  (Operator.ofSymbol? (String.ofList symbol)).map fun operator =>
    match operator.arity with
    | .none => (operator, name, [], cs.drop 1)
    | _ =>
      let cs := cs.drop 3
      (operator, name, [cs.takeWhile isWordChar], (cs.dropWhile isWordChar).drop 1)

/-- What is found behind the first character of a phrase that puts its attribute first. -/
def readInfix (cs : List Char) : Option Found :=
  let name := cs.takeWhile isWordChar
  let cs := (cs.dropWhile isWordChar).drop 1
  let symbol := cs.takeWhile (· ≠ ' ')
  let cs := (cs.dropWhile (· ≠ ' ')).drop 2
  let value := cs.takeWhile isWordChar
  let cs := cs.dropWhile isWordChar
  if symbol = "BETWEEN".toList then
    let cs := cs.drop 6
    some (.between, name, [value, cs.takeWhile isWordChar], cs.dropWhile isWordChar)
  else (Operator.ofSymbol? (String.ofList symbol)).map fun operator => (operator, name, [value], cs)

/-- What is found if some characters begin with a phrase. -/
def read : List Char → Option Found
  | '#' :: cs => readInfix cs
  | cs => readCall cs

theorem takeWhile_word (w : Word) {cs : List Char} (h : Text.Stops isWordChar cs) :
    (w.1 ++ cs).takeWhile isWordChar = w.1 :=
  Text.takeWhile_run (List.all_eq_true.1 w.2) h

theorem dropWhile_word (w : Word) {cs : List Char} (h : Text.Stops isWordChar cs) :
    (w.1 ++ cs).dropWhile isWordChar = cs :=
  Text.dropWhile_run (List.all_eq_true.1 w.2) h

theorem ofSymbol?_symbol (operator : Operator) :
    Operator.ofSymbol? operator.symbol = some operator := by
  cases operator <;> rfl

theorem takeWhile_until {stop : Char} {xs : List Char} (h : stop ∉ xs) (cs : List Char) :
    (xs ++ stop :: cs).takeWhile (· ≠ stop) = xs :=
  Text.takeWhile_run (fun _ hc => decide_eq_true (ne_of_mem_of_not_mem hc h))
    (Text.stops_cons (by simp) cs)

theorem dropWhile_until {stop : Char} {xs : List Char} (h : stop ∉ xs) (cs : List Char) :
    (xs ++ stop :: cs).dropWhile (· ≠ stop) = stop :: cs :=
  Text.dropWhile_run (fun _ hc => decide_eq_true (ne_of_mem_of_not_mem hc h))
    (Text.stops_cons (by simp) cs)

theorem bracket_not_mem_symbol (operator : Operator) : '(' ∉ operator.symbol.toList := by
  cases operator <;> decide

theorem blank_not_mem_symbol (operator : Operator) : ' ' ∉ operator.symbol.toList := by
  cases operator <;> decide

/-! ### The three forms -/

theorem readCall_presence {operator : Operator} (ha : operator.arity = .none) (name : Word)
    (cs : List Char) :
    readCall (operator.symbol.toList ++ '(' :: '#' :: (name.1 ++ ')' :: cs)) =
      some (operator, name.1, [], cs) := by
  simp only [readCall, takeWhile_until (bracket_not_mem_symbol _),
    dropWhile_until (bracket_not_mem_symbol _), List.drop_succ_cons,
    List.drop_zero, takeWhile_word name (Text.stops_cons (c := ')') rfl cs),
    dropWhile_word name (Text.stops_cons (c := ')') rfl cs), String.ofList_toList, ofSymbol?_symbol,
    Option.map_some, ha]

theorem readCall_comparison {operator : Operator} (ha : operator.arity = .one) (name value : Word)
    (cs : List Char) :
    readCall (operator.symbol.toList ++
        '(' :: '#' :: (name.1 ++ ',' :: ' ' :: ':' :: (value.1 ++ ')' :: cs))) =
      some (operator, name.1, [value.1], cs) := by
  simp only [readCall, takeWhile_until (bracket_not_mem_symbol _),
    dropWhile_until (bracket_not_mem_symbol _), List.drop_succ_cons,
    List.drop_zero, takeWhile_word name (Text.stops_cons (c := ',') rfl _),
    dropWhile_word name (Text.stops_cons (c := ',') rfl _),
    takeWhile_word value (Text.stops_cons (c := ')') rfl cs),
    dropWhile_word value (Text.stops_cons (c := ')') rfl cs), String.ofList_toList, ofSymbol?_symbol,
    Option.map_some, ha]

theorem readInfix_comparison (operator : Operator) (name value : Word) {cs : List Char}
    (h : Text.Stops isWordChar cs) :
    readInfix (name.1 ++ ' ' :: (operator.symbol.toList ++ ' ' :: ':' :: (value.1 ++ cs))) =
      some (operator, name.1, [value.1], cs) := by
  have hsymbol : operator.symbol.toList ≠ "BETWEEN".toList := by
    cases operator <;> decide
  simp only [readInfix, takeWhile_word name (Text.stops_cons (c := ' ') rfl _),
    dropWhile_word name (Text.stops_cons (c := ' ') rfl _), List.drop_succ_cons, List.drop_zero,
    takeWhile_until (blank_not_mem_symbol _), dropWhile_until (blank_not_mem_symbol _),
    takeWhile_word value h,
    dropWhile_word value h, if_neg hsymbol, String.ofList_toList, ofSymbol?_symbol, Option.map_some]

theorem readInfix_interval (name low high : Word) {cs : List Char} (h : Text.Stops isWordChar cs) :
    readInfix (name.1 ++ (" BETWEEN :".toList ++ (low.1 ++ (" AND :".toList ++ (high.1 ++ cs))))) =
      some (.between, name.1, [low.1, high.1], cs) := by
  have hbetween : ∀ rest : List Char,
      " BETWEEN :".toList ++ rest = ' ' :: ("BETWEEN".toList ++ ' ' :: ':' :: rest) := fun _ => rfl
  have hand : ∀ rest : List Char,
      " AND :".toList ++ rest = ' ' :: 'A' :: 'N' :: 'D' :: ' ' :: ':' :: rest := fun _ => rfl
  have hblank : ' ' ∉ "BETWEEN".toList := by decide
  rw [hbetween, hand]
  simp only [readInfix, takeWhile_word name (Text.stops_cons (c := ' ') rfl _),
    dropWhile_word name (Text.stops_cons (c := ' ') rfl _), List.drop_succ_cons, List.drop_zero,
    takeWhile_until hblank, dropWhile_until hblank, if_true,
    takeWhile_word low (Text.stops_cons (c := ' ') rfl _),
    dropWhile_word low (Text.stops_cons (c := ' ') rfl _),
    takeWhile_word high h, dropWhile_word high h]

/-- No symbol begins as an attribute does. -/
theorem read_symbol (operator : Operator) (cs : List Char) :
    read (operator.symbol.toList ++ cs) = readCall (operator.symbol.toList ++ cs) := by
  obtain ⟨c, rest, hc, hne⟩ : ∃ c rest, operator.symbol.toList = c :: rest ∧ c ≠ '#' := by
    cases operator <;> exact ⟨_, _, rfl, by decide⟩
  rw [hc, List.cons_append, read]
  rintro _ ⟨⟩
  exact hne rfl

/-- Where some characters begin with a phrase, this phrase is what is found. -/
theorem read_chars (p : Phrase) {cs : List Char} (h : Text.Stops isWordChar cs) :
    read (p.chars ++ cs) =
      some (p.operator, p.nameWord.1, p.operandWords.map Subtype.val, cs) := by
  cases p with
  | presence operator name ha =>
    have hcall := readCall_presence ha name cs
    rw [chars, List.append_assoc, List.cons_append, List.cons_append, List.append_assoc,
      List.singleton_append, read_symbol, hcall]
    rfl
  | comparison operator name value ha =>
    rw [chars]
    split
    · rw [List.append_assoc, List.cons_append, List.cons_append, List.append_assoc,
        List.cons_append, List.cons_append, List.cons_append, List.append_assoc,
        List.singleton_append, read_symbol, readCall_comparison ha]
      rfl
    · rw [List.cons_append, List.append_assoc, List.cons_append, List.append_assoc,
        List.cons_append, List.cons_append, read, readInfix_comparison operator name value h]
      rfl
  | interval name low high =>
    rw [chars, List.cons_append, read, List.append_assoc, List.append_assoc, List.append_assoc,
      List.append_assoc, readInfix_interval name low high h]
    rfl

/-! ### Rows of phrases -/

/-- A phrase is known by its operator and its words. -/
theorem eq_of_words_eq {p q : Phrase} (ho : p.operator = q.operator)
    (hn : p.nameWord.1 = q.nameWord.1)
    (hv : p.operandWords.map Subtype.val = q.operandWords.map Subtype.val) : p = q := by
  have hn := Subtype.ext hn
  have hv := List.map_injective_iff.2 Subtype.val_injective hv
  cases p <;> cases q <;> simp_all [operator, nameWord, operandWords]

theorem eq_of_chars_append_eq {p q : Phrase} {cs ds : List Char}
    (hc : Text.Stops isWordChar cs) (hd : Text.Stops isWordChar ds)
    (h : p.chars ++ cs = q.chars ++ ds) : p = q ∧ cs = ds := by
  have hread := read_chars p hc
  rw [h, read_chars q hd] at hread
  simp only [Option.some.injEq, Prod.mk.injEq] at hread
  obtain ⟨ho, hn, hv, hcs⟩ := hread
  exact ⟨eq_of_words_eq ho.symm hn.symm hv.symm, hcs.symm⟩

/-- Further phrases of a row, as characters. -/
def further (ps : List Phrase) : List Char := ps.flatMap fun p => " AND ".toList ++ p.chars

theorem stops_further (ps : List Phrase) : Text.Stops isWordChar (further ps) := by
  cases ps with
  | nil => exact Text.stops_nil
  | cons p ps => exact Text.stops_cons (c := ' ') rfl _

theorem further_injective {ps qs : List Phrase} (h : further ps = further qs) : ps = qs := by
  induction ps generalizing qs with
  | nil =>
    cases qs with
    | nil => rfl
    | cons q qs => cases h
  | cons p ps ih =>
    cases qs with
    | nil => cases h
    | cons q qs =>
      rw [further, further, List.flatMap_cons, List.flatMap_cons, List.append_assoc,
        List.append_assoc, ← further, ← further] at h
      obtain ⟨rfl, hrest⟩ :=
        eq_of_chars_append_eq (stops_further ps) (stops_further qs) (List.append_cancel_left h)
      rw [ih hrest]

theorem toList_row (p : Phrase) (ps : List Phrase) :
    (" AND ".intercalate ((p :: ps).map text)).toList = p.chars ++ further ps := by
  induction ps generalizing p with
  | nil =>
    rw [List.map_cons, List.map_nil, String.intercalate_singleton, text, String.toList_ofList,
      further, List.flatMap_nil, List.append_nil]
  | cons q ps ih =>
    rw [List.map_cons, List.map_cons, String.intercalate_cons_cons, ← List.map_cons,
      String.toList_append, String.toList_append, ih, text, String.toList_ofList, further, further,
      List.flatMap_cons, List.append_assoc, List.append_assoc]

/-- A text is a row of phrases in one way at most. -/
theorem Reads.unique {text : String} {ps qs : List Phrase} (hp : Reads text ps)
    (hq : Reads text qs) : ps = qs := by
  obtain ⟨hpne, rfl⟩ := hp
  obtain ⟨hqne, h⟩ := hq
  obtain ⟨p, ps, rfl⟩ := List.exists_cons_of_ne_nil hpne
  obtain ⟨q, qs, rfl⟩ := List.exists_cons_of_ne_nil hqne
  have hchars := congrArg String.toList h
  rw [toList_row, toList_row] at hchars
  obtain ⟨rfl, hrest⟩ := eq_of_chars_append_eq (stops_further ps) (stops_further qs) hchars
  rw [further_injective hrest]

end Phrase

end Tablescope
