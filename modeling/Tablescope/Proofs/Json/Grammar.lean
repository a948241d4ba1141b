import Tablescope.Proofs.Json.Reader
import Tablescope.Proofs.Json.Token

/-!
# What a JSON text writes

The tokens of a value stand in their order with any blanks before, between and behind them.

Scanning follows this grammar wherever a text has no words and numbers, as the text of a cursor: it
finds exactly the tokens that are written. So such a text writes one value at most.
-/

namespace Tablescope.Json

/-! ### Tokens -/

/-- The tokens that are written in one way only: punctuation and words. -/
def Token.fixed : List Token :=
  [.openObject, .closeObject, .openArray, .closeArray, .colon, .comma, .null, .bool true,
    .bool false]

/-- Whether a token is written by these characters. -/
inductive Token.IsWritten : Token → List Char → Prop
  | fixed {t : Token} (h : t ∈ fixed) : IsWritten t t.spelling
  | number {cs : List Char} (h : isNumberLexeme cs = true) : IsWritten (.number (String.ofList cs)) cs
  | text {us : List CodeUnit} {source cs : List Char} (hs : CodeUnit.AreWritten us source)
    (hc : CodeUnit.StandFor us cs) :
    IsWritten (.text (String.ofList cs)) ('"' :: (source ++ ['"']))

/-- Whether characters are blanks. -/
def AreBlank (cs : List Char) : Prop := ∀ c ∈ cs, isSpace c = true

/-- Whether tokens are written by these characters, in their order and with any blanks around. -/
inductive Token.AreWritten : List Token → List Char → Prop
  | nil {blanks : List Char} (h : AreBlank blanks) : AreWritten [] blanks
  | cons {blanks literal rest : List Char} {t : Token} {ts : List Token} (hb : AreBlank blanks)
    (ht : t.IsWritten literal) (hts : AreWritten ts rest) :
    AreWritten (t :: ts) (blanks ++ (literal ++ rest))

/-- A token that is written in one way only is a mark of punctuation, which stands by itself, or it
is a word. -/
theorem Token.fixed_cases {t : Token} (h : t ∈ fixed) :
    (t.isDelimited = true ∧ ∃ c, t.spelling = [c] ∧ ofPunctuation? c = some t ∧
      isSpace c = false ∧ isRunChar c = false) ∨ t = .null ∨ t = .bool true ∨ t = .bool false := by
  simp only [fixed, List.mem_cons, List.not_mem_nil, or_false] at h
  rcases h with rfl | rfl | rfl | rfl | rfl | rfl | hword
  · exact .inl ⟨rfl, _, rfl, rfl, rfl, rfl⟩
  · exact .inl ⟨rfl, _, rfl, rfl, rfl, rfl⟩
  · exact .inl ⟨rfl, _, rfl, rfl, rfl, rfl⟩
  · exact .inl ⟨rfl, _, rfl, rfl, rfl, rfl⟩
  · exact .inl ⟨rfl, _, rfl, rfl, rfl, rfl⟩
  · exact .inl ⟨rfl, _, rfl, rfl, rfl, rfl⟩
  · exact .inr hword

/-! ### Spelling -/

theorem isWritten_spelling {t : Token} (h : t.isDelimited = true) : t.IsWritten t.spelling := by
  cases t with
  | text s =>
    have ht := Token.IsWritten.text (areWritten_map_ofChar s.toList) (standFor_map_ofChar s.toList)
    rwa [String.ofList_toList] at ht
  | null => cases h
  | bool b => cases h
  | number lexeme => cases h
  | unpaired => cases h
  | invalid => cases h
  | _ => exact .fixed (by decide)

/-- Tokens are written by their spellings with nothing between them. -/
theorem areWritten_spell {ts : List Token} (h : ∀ t ∈ ts, t.IsWritten t.spelling) :
    Token.AreWritten ts (spell ts).toList := by
  rw [spell, String.toList_ofList]
  induction ts with
  | nil => exact .nil nofun
  | cons t ts ih =>
    obtain ⟨ht, hts⟩ := List.forall_mem_cons.1 h
    rw [List.flatMap_cons, ← List.nil_append (t.spelling ++ _)]
    exact .cons nofun ht (ih hts)

/-! ### Scanning what is written -/

theorem scan_blanks {blanks : List Char} (h : AreBlank blanks) (lexicon : Lexicon)
    (rest : List Char) : scan lexicon (blanks ++ rest) = scan lexicon rest := by
  induction blanks with
  | nil => rfl
  | cons c blanks ih =>
    obtain ⟨hc, hblanks⟩ := List.forall_mem_cons.1 h
    rw [List.cons_append, scan, if_pos hc, ih hblanks]

theorem scan_literal {t : Token} {literal : List Char} (h : t.IsWritten literal)
    (hd : t.isDelimited = true) (rest : List Char) :
    scan .strict (literal ++ rest) = t :: scan .strict rest := by
  cases h with
  | fixed hfixed =>
    rcases Token.fixed_cases hfixed with ⟨-, c, hc, hp, hs, -⟩ | rfl | rfl | rfl
    · rw [hc]
      exact scan_cons_punctuation hp hs _ _
    · cases hd
    · cases hd
    · cases hd
  | number => cases hd
  | text hs hc =>
    rw [List.cons_append, List.append_assoc, List.singleton_append,
      scan_string (string?_of_areWritten hs hc rest)]

theorem scan_append {ts : List Token} {before : List Char} (h : Token.AreWritten ts before)
    (hd : ∀ t ∈ ts, t.isDelimited = true) (rest : List Char) :
    scan .strict (before ++ rest) = ts ++ scan .strict rest := by
  induction h with
  | nil hb => rw [scan_blanks hb, List.nil_append]
  | cons hb ht _ ih =>
    obtain ⟨htd, htsd⟩ := List.forall_mem_cons.1 hd
    rw [List.append_assoc, List.append_assoc, scan_blanks hb, scan_literal ht htd, ih htsd,
      List.cons_append]

theorem isDelimited_ofRun (isNumber : List Char → Bool) (cs : List Char) :
    (Token.ofRun isNumber cs).isDelimited = false := by
  unfold Token.ofRun
  split
  · rfl
  split
  · rfl
  split
  · rfl
  split <;> rfl

/-- What begins with none of the characters that delimit tokens is scanned as a word, a number or
nothing that is JSON. -/
theorem exists_scan_run {c : Char} (hs : isSpace c = false) (hp : Token.ofPunctuation? c = none)
    (hq : c ≠ '"') (rest : List Char) :
    ∃ t more, scan .strict (c :: rest) = t :: more ∧ t.isDelimited = false := by
  have hrun := isDelimited_ofRun Lexicon.strict.isNumber (c :: rest.takeWhile isRunChar)
  rw [scan, hs, if_neg Bool.false_ne_true, hp]
  simp only [hq, if_false]
  split
  · exact ⟨_, _, rfl, rfl⟩
  · exact ⟨_, _, rfl, hrun⟩

/-- A number begins with its sign or a digit. -/
theorem exists_of_isNumberLexeme {cs : List Char} (h : isNumberLexeme cs = true) :
    ∃ c rest, cs = c :: rest ∧ (c = '-' ∨ c.isDigit = true) := by
  unfold isNumberLexeme at h
  split at h
  · next rest => exact ⟨'-', rest, rfl, .inl rfl⟩
  · rcases cs with _ | ⟨c, rest⟩
    · cases h
    · refine ⟨c, rest, rfl, .inr ?_⟩
      by_contra hc
      have hwhole : (Numeral.splitPoint (c :: rest)).1 = [] := by
        unfold Numeral.splitPoint
        simp only
        split <;> exact List.takeWhile_cons_of_neg hc
      rcases hsplit : Numeral.splitPoint (c :: rest) with ⟨whole, part, after⟩
      rw [hsplit] at hwhole
      cases hwhole
      simp [hsplit] at h

/-- Neither a sign nor a digit delimits a token. -/
theorem not_delimiter {c : Char} (h : c = '-' ∨ c.isDigit = true) :
    isSpace c = false ∧ Token.ofPunctuation? c = none ∧ c ≠ '"' := by
  refine ⟨?_, ?_, ?_⟩
  · by_contra hs
    simp only [isSpace, Bool.not_eq_false, Bool.or_eq_true, decide_eq_true_eq] at hs
    rcases hs with ((rfl | rfl) | rfl) | rfl <;> revert h <;> decide
  · unfold Token.ofPunctuation?
    split <;> first | rfl | (revert h; decide)
  · rintro rfl
    revert h
    decide

/-- Words and numbers are not mistaken for anything else. -/
theorem exists_scan_literal {t : Token} {literal : List Char} (h : t.IsWritten literal)
    (hd : t.isDelimited = false) (rest : List Char) :
    ∃ u more, scan .strict (literal ++ rest) = u :: more ∧ u.isDelimited = false := by
  cases h with
  | fixed hfixed =>
    rcases Token.fixed_cases hfixed with ⟨hdelimited, -⟩ | rfl | rfl | rfl
    · cases hd.symm.trans hdelimited
    · exact exists_scan_run (by decide) rfl (by decide) _
    · exact exists_scan_run (by decide) rfl (by decide) _
    · exact exists_scan_run (by decide) rfl (by decide) _
  | number hn =>
    obtain ⟨c, cs, rfl, hc⟩ := exists_of_isNumberLexeme hn
    obtain ⟨hs, hp, hq⟩ := not_delimiter hc
    exact exists_scan_run hs hp hq _
  | text => cases hd

/-- A text in which scanning finds only strings and punctuation is written with these tokens and
with no others. -/
theorem Token.AreWritten.eq_scan {ts : List Token} {cs : List Char} (h : AreWritten ts cs)
    (hd : ∀ t ∈ scan .strict cs, t.isDelimited = true) : ts = scan .strict cs := by
  induction h with
  | nil hb =>
    have hscan := scan_blanks hb .strict []
    rw [List.append_nil, scan] at hscan
    exact hscan.symm
  | @cons blanks literal rest t ts hb ht _ ih =>
    rw [scan_blanks hb] at hd ⊢
    by_cases htd : t.isDelimited = true
    · rw [scan_literal ht htd] at hd ⊢
      rw [ih (List.forall_mem_cons.1 hd).2]
    · rw [Bool.not_eq_true] at htd
      obtain ⟨u, more, hscan, hu⟩ := exists_scan_literal ht htd rest
      rw [hscan] at hd
      rw [(List.forall_mem_cons.1 hd).1] at hu
      cases hu

/-! ### What is written is what is scanned -/

theorem AreBlank.cons {c : Char} {blanks : List Char} (hc : isSpace c = true)
    (h : AreBlank blanks) : AreBlank (c :: blanks) :=
  List.forall_mem_cons.2 ⟨hc, h⟩

theorem ofPunctuation?_eq_some {c : Char} {t : Token} (h : Token.ofPunctuation? c = some t) :
    t ∈ Token.fixed ∧ t.spelling = [c] := by
  unfold Token.ofPunctuation? at h
  split at h <;> cases h <;> exact ⟨by decide, rfl⟩

theorem isWritten_of_string? {cs after : List Char} {t : Token}
    (h : Lexicon.strict.string? cs = some (t, after)) (hd : t.isDelimited = true) :
    ∃ source, t.IsWritten ('"' :: (source ++ ['"'])) ∧ cs = source ++ '"' :: after := by
  obtain ⟨⟨us, after⟩, hq, h⟩ := Option.map_eq_some_iff.1 h
  cases h
  obtain ⟨source, hs, rfl⟩ := quoted?_eq_some_iff.1 hq
  refine ⟨source, ?_, rfl⟩
  simp only [Token.ofUnits] at hd ⊢
  split at hd
  · next cs hc => exact .text hs (standFor_of_joinUnits? hs.escape_lt hc)
  · cases hd

theorem areBlank_of_scan_eq_nil {cs : List Char} (h : scan .strict cs = []) : AreBlank cs := by
  fun_induction scan .strict cs with
  | case1 => simp [AreBlank]
  | case2 c rest hs ih => exact (ih h).cons hs
  | case3 => cases h
  | case4 => cases h
  | case5 => cases h
  | case6 => cases h
  | case7 => cases h

/-- The first token that is scanned is written in front of what else is scanned. -/
theorem exists_of_scan_eq_cons {cs : List Char} {t : Token} {more : List Token}
    (h : scan .strict cs = t :: more) (hd : t.isDelimited = true) :
    ∃ blanks literal rest, cs = blanks ++ (literal ++ rest) ∧ AreBlank blanks ∧
      t.IsWritten literal ∧ scan .strict rest = more := by
  fun_induction scan .strict cs with
  | case1 => cases h
  | case2 c rest hs ih =>
    obtain ⟨blanks, literal, after, rfl, hb, ht, hmore⟩ := ih h
    exact ⟨c :: blanks, literal, after, rfl, hb.cons hs, ht, hmore⟩
  | case3 c rest hs t hp ih =>
    cases h
    obtain ⟨hfixed, hspelling⟩ := ofPunctuation?_eq_some hp
    have ht := Token.IsWritten.fixed hfixed
    rw [hspelling] at ht
    exact ⟨[], [c], rest, rfl, by simp [AreBlank], ht, rfl⟩
  | case4 cs t after hstring _ _ _ =>
    cases h
    obtain ⟨source, ht, rfl⟩ := isWritten_of_string? hstring hd
    exact ⟨[], _, after, by simp, by simp [AreBlank], ht, rfl⟩
  | case5 =>
    cases h
    cases hd
  | case6 =>
    cases h
    cases hd
  | case7 c rest =>
    have hrun := isDelimited_ofRun Lexicon.strict.isNumber (c :: rest.takeWhile isRunChar)
    cases h
    rw [hrun] at hd
    cases hd

/-- Whether a text begins with these tokens. -/
def Token.Begin (ts : List Token) (cs : List Char) : Prop :=
  ∃ before rest, cs = before ++ rest ∧ AreWritten ts before

theorem exists_of_scan_eq_append {cs : List Char} {ts more : List Token}
    (h : scan .strict cs = ts ++ more) (hd : ∀ t ∈ ts, t.isDelimited = true) :
    ∃ before rest, cs = before ++ rest ∧ Token.AreWritten ts before ∧ scan .strict rest = more := by
  induction ts generalizing cs with
  | nil => exact ⟨[], cs, rfl, .nil (by simp [AreBlank]), h⟩
  | cons t ts ih =>
    obtain ⟨ht, hts⟩ := List.forall_mem_cons.1 hd
    obtain ⟨blanks, literal, after, rfl, hb, hl, hafter⟩ := exists_of_scan_eq_cons h ht
    obtain ⟨before, rest, rfl, hbefore, hrest⟩ := ih hafter hts
    exact ⟨blanks ++ (literal ++ before), rest, by simp only [List.append_assoc],
      .cons hb hl hbefore, hrest⟩

theorem Token.AreWritten.append_blanks {ts : List Token} {cs blanks : List Char}
    (h : AreWritten ts cs) (hb : AreBlank blanks) : AreWritten ts (cs ++ blanks) := by
  induction h with
  | nil hb' => exact .nil fun c hc => (List.mem_append.1 hc).elim (hb' c) (hb c)
  | cons hb' ht _ ih =>
    rw [List.append_assoc, List.append_assoc]
    exact .cons hb' ht ih

/-- Scanning strings and punctuation is the grammar: it finds the tokens that a text begins with. -/
theorem begin_iff {ts : List Token} {cs : List Char} (hd : ∀ t ∈ ts, t.isDelimited = true) :
    Token.Begin ts cs ↔ ts <+: scan .strict cs := by
  constructor
  · rintro ⟨before, rest, rfl, h⟩
    exact ⟨_, (scan_append h hd rest).symm⟩
  · rintro ⟨more, h⟩
    obtain ⟨before, rest, hcs, hbefore, -⟩ := exists_of_scan_eq_append h.symm hd
    exact ⟨before, rest, hcs, hbefore⟩

theorem areWritten_iff {ts : List Token} {cs : List Char} (hd : ∀ t ∈ ts, t.isDelimited = true) :
    Token.AreWritten ts cs ↔ scan .strict cs = ts := by
  constructor
  · intro h
    have hscan := scan_append h hd []
    rwa [List.append_nil, scan, List.append_nil] at hscan
  · intro h
    rw [← List.append_nil ts] at h
    obtain ⟨before, rest, rfl, hbefore, hrest⟩ := exists_of_scan_eq_append h hd
    exact hbefore.append_blanks (areBlank_of_scan_eq_nil hrest)

/-! ### Values -/

/-- Whether a text writes a value and nothing else. -/
def IsWritten (j : Json) (text : String) : Prop := Token.AreWritten j.tokens text.toList

/-- A text in which scanning finds the strings and the punctuation of a value writes this value and
no other. -/
theorem isWritten_iff_eq {j other : Json} {text : String} (h : j.IsWritten text)
    (hd : ∀ t ∈ j.tokens, t.isDelimited = true) : other.IsWritten text ↔ other = j := by
  have hscan := (areWritten_iff hd).1 h
  constructor
  · intro hother
    have heq := hother.eq_scan (by rwa [hscan])
    rw [hscan] at heq
    exact tokens_injective heq
  · rintro rfl
    exact h

/-- The compact text of a value writes it. -/
theorem isWritten_compact {j : Json} (h : ∀ t ∈ j.tokens, t.IsWritten t.spelling) :
    j.IsWritten j.compact :=
  areWritten_spell h

end Tablescope.Json
