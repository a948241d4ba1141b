import Mathlib.Data.List.Chain
import Tablescope.Proofs.Json.Grammar
import Tablescope.Proofs.Numeral
import Tablescope.Proofs.Text.Run

/-!
# Words and numbers in a JSON text

A word or a number goes on as far as there are letters, digits, signs and points. So it is scanned as
it is written where another character follows, or the end. In the tokens of a value a word or a number
is never followed by another one, and what may follow it, a bracket, a comma, a colon or a blank, ends
it. Hence every text is scanned into the tokens of the value that it writes, and the reader finds this
value.
-/

namespace Tablescope

namespace Json

/-! ### The characters of words and numbers -/

theorem isRunChar_of_isNumeralChar {c : Char} (h : Numeral.IsNumeralChar c) :
    isRunChar c = true := by
  rcases h with h | rfl | rfl | rfl | rfl | rfl
  · simp only [isRunChar, Char.isAlphanum, h, Bool.or_true, Bool.true_or]
  all_goals decide

theorem isRunChar_of_isNumberLexeme {cs : List Char} (h : isNumberLexeme cs = true) {c : Char}
    (hc : c ∈ cs) : isRunChar c = true := by
  have hunsigned : ∀ {unsigned : List Char},
      (Numeral.exponent? (Numeral.splitPoint unsigned).2.2).isSome = true →
        ∀ c ∈ unsigned, isRunChar c = true := fun hexp c hc => by
    obtain ⟨e, he⟩ := Option.isSome_iff_exists.1 hexp
    refine isRunChar_of_isNumeralChar ?_
    exact (Numeral.mem_of_splitPoint hc).elim id (Numeral.isNumeralChar_of_exponent? he)
  unfold isNumberLexeme at h
  split at h
  · next rest =>
    rcases List.mem_cons.1 hc with rfl | hc
    · decide
    · exact hunsigned (Bool.and_eq_true _ _ ▸ h).2 c hc
  · exact hunsigned (Bool.and_eq_true _ _ ▸ h).2 c hc

/-- A blank ends a word or a number. -/
theorem isRunChar_of_isSpace {c : Char} (h : isSpace c = true) : isRunChar c = false := by
  simp only [isSpace, Bool.or_eq_true, decide_eq_true_eq] at h
  rcases h with ((rfl | rfl) | rfl) | rfl <;> decide

/-- So do brackets, commas, colons and quotes. -/
theorem stops_of_isDelimited {t : Token} {literal : List Char} (h : t.IsWritten literal)
    (hd : t.isDelimited = true) : literal ≠ [] ∧ Text.Stops isRunChar literal := by
  cases h with
  | fixed hfixed =>
    rcases Token.fixed_cases hfixed with ⟨-, c, hc, -, -, hstop⟩ | rfl | rfl | rfl
    · rw [hc]
      exact ⟨List.cons_ne_nil _ _, Text.stops_cons hstop _⟩
    · cases hd
    · cases hd
    · cases hd
  | number => cases hd
  | text => exact ⟨List.cons_ne_nil _ _, Text.stops_cons rfl _⟩

theorem Token.AreWritten.stops {ts : List Token} {cs : List Char} (h : AreWritten ts cs)
    (hd : ∀ t ∈ ts.head?, t.isDelimited = true) : Text.Stops isRunChar cs := by
  have hblanks : ∀ {blanks : List Char}, AreBlank blanks → Text.Stops isRunChar blanks :=
    fun hb c hc => isRunChar_of_isSpace (hb c (List.mem_of_mem_head? hc))
  cases h with
  | nil hb => exact hblanks hb
  | @cons blanks literal rest t ts hb ht _ =>
    by_cases hne : blanks = []
    · obtain ⟨hliteral, hstops⟩ := stops_of_isDelimited ht (hd t rfl)
      subst hne
      exact hstops.append_of_ne_nil hliteral _
    · exact (hblanks hb).append_of_ne_nil hne _

/-! ### Spelling -/

/-- Whether a token is written by its spelling. -/
def Token.isSpelled : Token → Bool
  | .number lexeme => isNumberLexeme lexeme.toList
  | .unpaired | .invalid => false
  | _ => true

theorem isWritten_spelling_of_isSpelled {t : Token} (h : t.isSpelled = true) :
    t.IsWritten t.spelling := by
  cases t with
  | number lexeme =>
    have hn := Token.IsWritten.number h
    rwa [String.ofList_toList] at hn
  | null => exact .fixed (by decide)
  | bool b => cases b <;> exact .fixed (by decide)
  | unpaired => cases h
  | invalid => cases h
  | _ => exact isWritten_spelling rfl

/-! ### Scanning words and numbers -/

theorem ofRun_of_isNumberLexeme {cs : List Char} (h : isNumberLexeme cs = true) :
    Token.ofRun Lexicon.strict.isNumber cs = .number (String.ofList cs) := by
  obtain ⟨c, rest, rfl, hc⟩ := exists_of_isNumberLexeme h
  have hword : ∀ first more, (first = '-' ∨ first.isDigit = true → False) →
      c :: rest ≠ first :: more := by
    rintro first more hfirst ⟨⟩
    exact hfirst hc
  rw [Token.ofRun, if_neg (hword _ _ (by decide)), if_neg (hword _ _ (by decide)),
    if_neg (hword _ _ (by decide))]
  exact if_pos h

/-- A word or a number is the run of its characters. -/
theorem ofRun_literal {t : Token} {literal : List Char} (h : t.IsWritten literal)
    (hd : t.isDelimited = false) :
    Token.ofRun Lexicon.strict.isNumber literal = t ∧ (∀ c ∈ literal, isRunChar c = true) ∧
      ∃ c rest, literal = c :: rest ∧ isSpace c = false ∧ Token.ofPunctuation? c = none ∧
        c ≠ '"' := by
  cases h with
  | fixed hfixed =>
    rcases Token.fixed_cases hfixed with ⟨hdelimited, -⟩ | rfl | rfl | rfl
    · cases hd.symm.trans hdelimited
    · exact ⟨rfl, List.all_eq_true.1 rfl, 'n', ['u', 'l', 'l'], rfl, by decide, rfl, by decide⟩
    · exact ⟨rfl, List.all_eq_true.1 rfl, 't', ['r', 'u', 'e'], rfl, by decide, rfl, by decide⟩
    · exact ⟨rfl, List.all_eq_true.1 rfl, 'f', ['a', 'l', 's', 'e'], rfl, by decide, rfl, by decide⟩
  | number hn =>
    obtain ⟨c, rest, hcs, hc⟩ := exists_of_isNumberLexeme hn
    exact ⟨ofRun_of_isNumberLexeme hn, fun c hc => isRunChar_of_isNumberLexeme hn hc, c, rest, hcs,
      not_delimiter hc⟩
  | text => cases hd

theorem scan_run {t : Token} {literal rest : List Char} (h : t.IsWritten literal)
    (hd : t.isDelimited = false) (hrest : Text.Stops isRunChar rest) :
    scan .strict (literal ++ rest) = t :: scan .strict rest := by
  obtain ⟨hrun, hchars, c, more, rfl, hs, hp, hq⟩ := ofRun_literal h hd
  have hmore := (List.forall_mem_cons.1 hchars).2
  have hvalid : t ≠ .invalid := by
    rintro rfl
    cases h
  rw [List.cons_append, scan, hs, if_neg Bool.false_ne_true, hp]
  simp only [hq, if_false]
  rw [Text.takeWhile_run hmore hrest, Text.dropWhile_run hmore hrest, hrun]
  cases t with
  | invalid => exact absurd rfl hvalid
  | _ => rfl

/-! ### The tokens of a value -/

/-- Whether no two words or numbers stand side by side. -/
def Spaced (ts : List Token) : Prop :=
  ts.IsChain fun t u => t.isDelimited = true ∨ u.isDelimited = true

theorem scan_of_areWritten {ts : List Token} {cs : List Char} (h : Token.AreWritten ts cs)
    (hs : Spaced ts) : scan .strict cs = ts := by
  induction h with
  | nil hb =>
    have hscan := scan_blanks hb .strict []
    rwa [List.append_nil, scan] at hscan
  | @cons blanks literal rest t ts hb ht hts ih =>
    obtain ⟨hnext, hs⟩ := List.isChain_cons.1 hs
    rw [scan_blanks hb]
    by_cases hd : t.isDelimited = true
    · rw [scan_literal ht hd, ih hs]
    · rw [scan_run ht (Bool.not_eq_true _ ▸ hd)
        (hts.stops fun u hu => (hnext u hu).resolve_left hd), ih hs]

theorem Spaced.cons {t : Token} {ts : List Token} (ht : t.isDelimited = true) (h : Spaced ts) :
    Spaced (t :: ts) :=
  List.isChain_cons.2 ⟨fun _ _ => .inl ht, h⟩

theorem Spaced.append {ts us : List Token} (hts : Spaced ts) (hus : Spaced us)
    (hd : ∀ u ∈ us.head?, u.isDelimited = true) : Spaced (ts ++ us) :=
  List.isChain_append.2 ⟨hts, hus, fun _ _ u hu => .inr (hd u hu)⟩

theorem spaced_singleton (t : Token) : Spaced [t] := .singleton t

theorem isDelimited_of_head_elementTokens (es : List Json) :
    ∀ t ∈ (elementTokens es).head?, t.isDelimited = true := by
  cases es with
  | nil => simp [elementTokens]
  | cons e es => simp [elementTokens, Token.isDelimited]

theorem isDelimited_of_head_memberTokens (ms : List (String × Json)) :
    ∀ t ∈ (memberTokens ms).head?, t.isDelimited = true := by
  cases ms with
  | nil => simp [memberTokens]
  | cons m ms => simp [memberTokens, Token.isDelimited]

mutual

/-- Between two words or numbers of a value there is a comma or a bracket. -/
theorem spaced_tokens : (j : Json) → Spaced j.tokens
  | .null | .bool _ | .number _ | .string _ | .unreadable => by
    rw [tokens]
    exact spaced_singleton _
  | .array [] | .object [] => by
    rw [tokens]
    exact .cons rfl (spaced_singleton _)
  | .array (e :: es) => by
    rw [tokens]
    have hes := (spaced_tokens e).append (spaced_elementTokens es)
      (isDelimited_of_head_elementTokens es)
    exact .cons rfl (hes.append (spaced_singleton _) (by simp [Token.isDelimited]))
  | .object ((name, value) :: ms) => by
    rw [tokens]
    have hms := (spaced_tokens value).append (spaced_memberTokens ms)
      (isDelimited_of_head_memberTokens ms)
    exact .cons rfl (.cons rfl (.cons rfl
      (hms.append (spaced_singleton _) (by simp [Token.isDelimited]))))

/-- So there is between those of further elements. -/
theorem spaced_elementTokens : (es : List Json) → Spaced (elementTokens es)
  | [] => by
    rw [elementTokens]
    exact .nil
  | e :: es => by
    rw [elementTokens]
    exact .cons rfl ((spaced_tokens e).append (spaced_elementTokens es)
      (isDelimited_of_head_elementTokens es))

/-- And between those of further members. -/
theorem spaced_memberTokens : (ms : List (String × Json)) → Spaced (memberTokens ms)
  | [] => by
    rw [memberTokens]
    exact .nil
  | (name, value) :: ms => by
    rw [memberTokens]
    exact .cons rfl (.cons rfl (.cons rfl ((spaced_tokens value).append (spaced_memberTokens ms)
      (isDelimited_of_head_memberTokens ms))))

end

/-- The reader finds the value that a text writes. -/
theorem parse?_of_isWritten {j : Json} {text : String} (h : j.IsWritten text) :
    parse? text = some j := by
  rw [parse?, scan_of_areWritten h (spaced_tokens j), ofTokens?_tokens]

end Json

end Tablescope
