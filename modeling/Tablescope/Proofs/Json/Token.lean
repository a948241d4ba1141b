import Mathlib.Data.List.Basic
import Tablescope.Json.Token

/-!
# What tokens are written as

The grammar of strings in RFC 8259, told from the characters that are meant to the characters that
stand between the quotes. Each character is written as itself, as a short escape or as the numbers of
its UTF-16 units. Reading a literal undoes exactly this, and the literal that is spelled for a string
is one of those that write it.

Strings and punctuation end where they end whatever follows. So a token of these kinds is scanned
alone, and scanning goes on behind it.
-/

namespace Tablescope.Json

/-- The escapes of two characters: what stands behind the backslash, and what this stands for. -/
def shortEscapes : List (Char × Char) :=
  [('"', '"'), ('\\', '\\'), ('/', '/'), ('b', '\x08'), ('f', '\x0c'), ('n', '\n'), ('r', '\r'),
    ('t', '\t')]

/-- Whether characters between quotes are these items, one after another. -/
inductive CodeUnit.AreWritten : List CodeUnit → List Char → Prop
  | nil : AreWritten [] []
  /-- A character that needs no escape. -/
  | bare {c : Char} {us : List CodeUnit} {cs : List Char} (hquote : c ≠ '"') (hback : c ≠ '\\')
    (hc : 0x20 ≤ c.toNat) (h : AreWritten us cs) : AreWritten (.plain c :: us) (c :: cs)
  | short {e c : Char} {us : List CodeUnit} {cs : List Char} (he : (e, c) ∈ shortEscapes)
    (h : AreWritten us cs) : AreWritten (.plain c :: us) ('\\' :: e :: cs)
  /-- Four hexadecimal digits of either case. -/
  | number {a b c d : Char} {n : Nat} {us : List CodeUnit} {cs : List Char}
    (hn : hex4? a b c d = some n) (h : AreWritten us cs) :
    AreWritten (.escape n :: us) ('\\' :: 'u' :: a :: b :: c :: d :: cs)

/-- Whether items stand for these characters. The number of an escape is that of a character, or two
of them are the surrogates of one beyond `FFFF`. -/
inductive CodeUnit.StandFor : List CodeUnit → List Char → Prop
  | nil : StandFor [] []
  | plain {c : Char} {us : List CodeUnit} {cs : List Char} (h : StandFor us cs) :
    StandFor (.plain c :: us) (c :: cs)
  | single {c : Char} {us : List CodeUnit} {cs : List Char} (h : StandFor us cs) :
    StandFor (.escape c.toNat :: us) (c :: cs)
  | pair {c : Char} {us : List CodeUnit} {cs : List Char} (hc : 0x10000 ≤ c.toNat)
    (h : StandFor us cs) :
    StandFor (.escape (0xD800 + (c.toNat - 0x10000) / 0x400) ::
      .escape (0xDC00 + (c.toNat - 0x10000) % 0x400) :: us) (c :: cs)

/-! ### Reading a literal -/

theorem escaped?_eq_some_iff {e c : Char} : escaped? e = some c ↔ (e, c) ∈ shortEscapes := by
  constructor
  · intro h
    unfold escaped? at h
    split at h <;> cases h <;> decide
  · intro h
    simp only [shortEscapes, List.mem_cons, List.not_mem_nil, or_false, Prod.mk.injEq] at h
    rcases h with ⟨rfl, rfl⟩ | ⟨rfl, rfl⟩ | ⟨rfl, rfl⟩ | ⟨rfl, rfl⟩ | ⟨rfl, rfl⟩ | ⟨rfl, rfl⟩ |
      ⟨rfl, rfl⟩ | ⟨rfl, rfl⟩ <;> rfl

theorem quoted?_backslash {e c : Char} (h : escaped? e = some c) (rest : List Char) :
    quoted? ('\\' :: e :: rest) = (quoted? rest).map fun r => (.plain c :: r.1, r.2) := by
  have hu : e ≠ 'u' := by
    rintro rfl
    rw [show escaped? 'u' = none from rfl] at h
    cases h
  rw [quoted?]
  · rw [h]
    cases quoted? rest <;> rfl
  · rintro a b c d rest rfl
    exact absurd rfl hu

theorem quoted?_number {a b c d : Char} {n : Nat} (h : hex4? a b c d = some n) (rest : List Char) :
    quoted? ('\\' :: 'u' :: a :: b :: c :: d :: rest) =
      (quoted? rest).map fun r => (.escape n :: r.1, r.2) := by
  rw [quoted?, h]
  cases quoted? rest <;> rfl

theorem quoted?_bare {c : Char} (hq : c ≠ '"') (hb : c ≠ '\\') (h : 0x20 ≤ c.toNat)
    (rest : List Char) :
    quoted? (c :: rest) = (quoted? rest).map fun r => (.plain c :: r.1, r.2) := by
  rw [quoted?]
  · rw [if_neg (Nat.not_lt.2 h)]
    cases quoted? rest <;> rfl
  · exact hq
  · rintro a b c d rest rfl
    exact absurd rfl hb
  · rintro e rest rfl
    exact absurd rfl hb

/-- Reading up to the closing quote finds exactly the items that are written in front of it. -/
theorem quoted?_eq_some_iff {cs after : List Char} {us : List CodeUnit} :
    quoted? cs = some (us, after) ↔
      ∃ source, CodeUnit.AreWritten us source ∧ cs = source ++ '"' :: after := by
  constructor
  · intro h
    fun_induction quoted? cs generalizing us after with
    | case1 => cases h
    | case2 rest =>
      cases h
      exact ⟨[], .nil, rfl⟩
    | case3 a b c d rest ih =>
      simp only [Option.bind_eq_bind, Option.bind_eq_some_iff] at h
      obtain ⟨n, hn, ⟨us, after⟩, hq, h⟩ := h
      cases h
      obtain ⟨source, hsource, rfl⟩ := ih hq
      exact ⟨_, .number hn hsource, rfl⟩
    | case4 e rest _ ih =>
      simp only [Option.bind_eq_bind, Option.bind_eq_some_iff] at h
      obtain ⟨c, hc, ⟨us, after⟩, hq, h⟩ := h
      cases h
      obtain ⟨source, hsource, rfl⟩ := ih hq
      exact ⟨_, .short (escaped?_eq_some_iff.1 hc) hsource, rfl⟩
    | case5 => cases h
    | case6 c rest hquote _ hback hc ih =>
      simp only [Option.bind_eq_bind, Option.bind_eq_some_iff] at h
      obtain ⟨⟨us, after⟩, hq, h⟩ := h
      cases h
      obtain ⟨source, hsource, rfl⟩ := ih hq
      refine ⟨_, .bare hquote ?_ (Nat.not_lt.1 hc) hsource, rfl⟩
      rintro rfl
      rcases hs : source ++ '"' :: after with _ | ⟨e, rest⟩
      · simp at hs
      · exact hback e rest rfl hs
  · rintro ⟨source, h, rfl⟩
    induction h with
    | nil => rw [List.nil_append, quoted?]
    | bare hquote hback hc _ ih =>
      rw [List.cons_append, quoted?_bare hquote hback hc, ih]
      rfl
    | short he _ ih =>
      rw [List.cons_append, List.cons_append, quoted?_backslash (escaped?_eq_some_iff.2 he), ih]
      rfl
    | number hn _ ih =>
      simp only [List.cons_append]
      rw [quoted?_number hn, ih]
      rfl

/-! ### Joining units -/

theorem toNat_ofNat_of_valid {n : Nat} (h : n.isValidChar) : (Char.ofNat n).toNat = n := by
  rw [Char.ofNat, dif_pos h]
  rfl

/-- Characters are not surrogates. -/
theorem isHigh_toNat (c : Char) : isHigh c.toNat = false := by
  have hc : c.toNat.isValidChar := c.valid
  simp only [isHigh, Bool.and_eq_false_iff, decide_eq_false_iff_not]
  omega

theorem isLow_toNat (c : Char) : isLow c.toNat = false := by
  have hc : c.toNat.isValidChar := c.valid
  simp only [isLow, Bool.and_eq_false_iff, decide_eq_false_iff_not]
  omega

theorem standFor_of_joinUnits? {us : List CodeUnit} {cs : List Char}
    (hb : ∀ n, .escape n ∈ us → n < 0x10000) (h : joinUnits? us = some cs) :
    CodeUnit.StandFor us cs := by
  fun_induction joinUnits? us generalizing cs with
  | case1 =>
    cases h
    exact .nil
  | case2 c rest ih =>
    obtain ⟨cs, hcs, rfl⟩ := Option.map_eq_some_iff.1 h
    exact .plain (ih (fun n hn => hb n (List.mem_cons_of_mem _ hn)) hcs)
  | case3 n hhigh m rest hlow ih =>
    obtain ⟨cs, hcs, rfl⟩ := Option.map_eq_some_iff.1 h
    have hrest := ih (fun n hn => hb n (List.mem_cons_of_mem _ (List.mem_cons_of_mem _ hn))) hcs
    simp only [isHigh, Bool.and_eq_true, decide_eq_true_eq] at hhigh
    simp only [isLow, Bool.and_eq_true, decide_eq_true_eq] at hlow
    have hc : (Char.ofNat (0x10000 + (n - 0xD800) * 0x400 + (m - 0xDC00))).toNat =
        0x10000 + (n - 0xD800) * 0x400 + (m - 0xDC00) :=
      toNat_ofNat_of_valid (by rw [Nat.isValidChar]; omega)
    generalize Char.ofNat (0x10000 + (n - 0xD800) * 0x400 + (m - 0xDC00)) = c at hc
    have hn : n = 0xD800 + (c.toNat - 0x10000) / 0x400 := by omega
    have hm : m = 0xDC00 + (c.toNat - 0x10000) % 0x400 := by omega
    rw [hn, hm]
    exact .pair (by omega) hrest
  | case4 => cases h
  | case5 => cases h
  | case6 => cases h
  | case7 n rest hhigh hlow ih =>
    obtain ⟨cs, hcs, rfl⟩ := Option.map_eq_some_iff.1 h
    have hlt := hb n List.mem_cons_self
    simp only [isHigh, Bool.and_eq_true, decide_eq_true_eq] at hhigh
    simp only [isLow, Bool.and_eq_true, decide_eq_true_eq] at hlow
    have hc : (Char.ofNat n).toNat = n :=
      toNat_ofNat_of_valid (by rw [Nat.isValidChar]; omega)
    have hsingle := CodeUnit.StandFor.single (c := Char.ofNat n)
      (ih (fun n hn => hb n (List.mem_cons_of_mem _ hn)) hcs)
    rwa [hc] at hsingle

theorem joinUnits?_of_standFor {us : List CodeUnit} {cs : List Char}
    (h : CodeUnit.StandFor us cs) : joinUnits? us = some cs := by
  induction h with
  | nil => rfl
  | plain _ ih =>
    rw [joinUnits?, ih]
    rfl
  | @single c us cs _ ih =>
    rw [joinUnits?.eq_def]
    simp only [isHigh_toNat, isLow_toNat, Bool.false_eq_true, if_false]
    rw [ih, Char.ofNat_toNat, Option.map_some]
  | @pair c us cs hc _ ih =>
    have hvalid : c.toNat.isValidChar := c.valid
    rw [Nat.isValidChar] at hvalid
    have hhigh : isHigh (0xD800 + (c.toNat - 0x10000) / 0x400) = true := by
      simp only [isHigh, Bool.and_eq_true, decide_eq_true_eq]
      omega
    have hlow : isLow (0xDC00 + (c.toNat - 0x10000) % 0x400) = true := by
      simp only [isLow, Bool.and_eq_true, decide_eq_true_eq]
      omega
    rw [joinUnits?.eq_def]
    simp only [hhigh, hlow, if_true]
    rw [ih, Option.map_some, show 0x10000 + (0xD800 + (c.toNat - 0x10000) / 0x400 - 0xD800) * 0x400 +
      (0xDC00 + (c.toNat - 0x10000) % 0x400 - 0xDC00) = c.toNat by omega, Char.ofNat_toNat]

theorem lt_of_value? {c : Char} {n : Nat} (h : Text.Hex.value? c = some n) : n < 16 := by
  have hle : ∀ first last : Char, (first ≤ c && c ≤ last) = true → c.toNat ≤ last.toNat := by
    intro first last hc
    simp only [Bool.and_eq_true, decide_eq_true_eq] at hc
    exact hc.2
  unfold Text.Hex.value? at h
  split at h
  · next hc =>
    have hc : c.toNat ≤ 57 := hle _ _ hc
    cases h
    omega
  split at h
  · next hc =>
    have hc : c.toNat ≤ 70 := hle _ _ hc
    cases h
    omega
  split at h
  · next hc =>
    have hc : c.toNat ≤ 102 := hle _ _ hc
    cases h
    omega
  · cases h

theorem CodeUnit.AreWritten.escape_lt {us : List CodeUnit} {source : List Char}
    (h : AreWritten us source) : ∀ n, .escape n ∈ us → n < 0x10000 := by
  induction h with
  | nil => simp
  | bare _ _ _ _ ih => simpa using ih
  | short _ _ ih => simpa using ih
  | number hn _ ih =>
    simp only [hex4?, Option.bind_eq_bind, Option.bind_eq_some_iff, Option.some.injEq] at hn
    obtain ⟨w, hw, x, hx, y, hy, z, hz, rfl⟩ := hn
    have hw := lt_of_value? hw
    have hx := lt_of_value? hx
    have hy := lt_of_value? hy
    have hz := lt_of_value? hz
    intro n hn
    rcases List.mem_cons.1 hn with hn | hn
    · cases hn
      omega
    · exact ih n hn

/-! ### Writing a literal -/

/-- The item of a string literal that writes a character. -/
def CodeUnit.ofChar (c : Char) : CodeUnit :=
  if c = '"' ∨ c = '\\' ∨ c = '\x08' ∨ c = '\x0c' ∨ c = '\n' ∨ c = '\r' ∨ c = '\t' ∨
    0x20 ≤ c.toNat then .plain c else .escape c.toNat

theorem value?_lower {n : Nat} (h : n < 16) : Text.Hex.value? (Text.Hex.lower n) = some n := by
  revert n
  decide

theorem hex4?_lower {n : Nat} (h : n < 0x20) :
    hex4? '0' '0' (Text.Hex.lower (n / 16)) (Text.Hex.lower (n % 16)) = some n := by
  rw [hex4?, value?_lower (n := n / 16) (by omega), value?_lower (n := n % 16) (by omega),
    show Text.Hex.value? '0' = some 0 from rfl]
  simp only [Option.bind_eq_bind, Option.bind_some, Option.some.injEq]
  omega

theorem CodeUnit.AreWritten.escapeChar {us : List CodeUnit} {source : List Char}
    (h : AreWritten us source) (c : Char) :
    AreWritten (.ofChar c :: us) (escapeChar c ++ source) := by
  unfold Json.escapeChar CodeUnit.ofChar
  by_cases hquote : c = '"'
  · subst hquote
    exact .short (by decide) h
  by_cases hback : c = '\\'
  · subst hback
    exact .short (by decide) h
  by_cases hb : c = '\x08'
  · subst hb
    exact .short (by decide) h
  by_cases hf : c = '\x0c'
  · subst hf
    exact .short (by decide) h
  by_cases hn : c = '\n'
  · subst hn
    exact .short (by decide) h
  by_cases hr : c = '\r'
  · subst hr
    exact .short (by decide) h
  by_cases ht : c = '\t'
  · subst ht
    exact .short (by decide) h
  simp only [hquote, hback, hb, hf, hn, hr, ht, if_false, false_or]
  by_cases hc : c.toNat < 0x20
  · rw [if_pos hc, if_neg (Nat.not_le.2 hc)]
    exact .number (hex4?_lower hc) h
  · rw [if_neg hc, if_pos (Nat.not_lt.1 hc)]
    exact .bare hquote hback (Nat.not_lt.1 hc) h

theorem areWritten_map_ofChar (cs : List Char) :
    CodeUnit.AreWritten (cs.map .ofChar) (cs.flatMap escapeChar) := by
  induction cs with
  | nil => exact .nil
  | cons c cs ih => exact ih.escapeChar c

theorem standFor_map_ofChar (cs : List Char) : CodeUnit.StandFor (cs.map .ofChar) cs := by
  induction cs with
  | nil => exact .nil
  | cons c cs ih =>
    rw [List.map_cons, CodeUnit.ofChar]
    split
    · exact .plain ih
    · exact .single ih

/-! ### Scanning one token -/

/-- Whether a token ends where it ends, whatever is behind it. -/
def Token.isDelimited : Token → Bool
  | .openObject | .closeObject | .openArray | .closeArray | .colon | .comma | .text _ => true
  | _ => false

theorem scan_cons_punctuation {c : Char} {t : Token} (h : Token.ofPunctuation? c = some t)
    (hs : isSpace c = false) (lexicon : Lexicon) (rest : List Char) :
    scan lexicon (c :: rest) = t :: scan lexicon rest := by
  rw [scan, hs, h]
  rfl

theorem scan_string {cs after : List Char} {t : Token}
    (h : Lexicon.strict.string? cs = some (t, after)) :
    scan .strict ('"' :: cs) = t :: scan .strict after := by
  rw [scan, if_neg (by decide), show Token.ofPunctuation? '"' = none from rfl]
  simp only [if_true]
  split
  · next t' after' h' =>
    rw [h] at h'
    cases h'
    rfl
  · next h' =>
    rw [h] at h'
    cases h'

theorem string?_of_areWritten {us : List CodeUnit} {source cs : List Char}
    (hs : CodeUnit.AreWritten us source) (hc : CodeUnit.StandFor us cs) (rest : List Char) :
    Lexicon.strict.string? (source ++ '"' :: rest) = some (.text (String.ofList cs), rest) := by
  change (quoted? _).map _ = _
  rw [quoted?_eq_some_iff.2 ⟨source, hs, rfl⟩, Option.map_some, Token.ofUnits,
    joinUnits?_of_standFor hc]

end Tablescope.Json
