import Mathlib.Data.Nat.Digits.Lemmas
import Mathlib.Tactic.FieldSimp
import Mathlib.Tactic.Ring
import Tablescope.Proofs.Numeral
import Tablescope.Proofs.Text.Run

/-!
# What a numeral writes

A numeral is put together from a sign, a mantissa and a power of ten. What each of them may look like
and what number it stands for is told without the reader; their product is the number that the whole
numeral writes. The reader takes exactly the texts that are put together so, for the same numbers,
and so a text writes one number at most.
-/

namespace Tablescope.Numeral

variable {cs ds ps rest : List Char} {x y : ℚ}

/-! ### The grammar -/

/-- Whether all characters are digits. -/
def AreDigits (ds : List Char) : Prop := ∀ d ∈ ds, d.isDigit = true

/-- The number that digits write, the last of them in the place of the units. -/
def place (ds : List Char) : ℕ := Nat.ofDigits 10 (ds.reverse.map fun d => d.toNat - '0'.toNat)

/-- Whether characters are a sign, or none, and the factor that it stands for. -/
inductive IsSign : List Char → ℤ → Prop
  | absent : IsSign [] 1
  | plus : IsSign ['+'] 1
  | minus : IsSign ['-'] (-1)

/-- Whether characters are digits with at most one point among them, and their number. Digits stand
in front of the point or behind it. -/
inductive IsMantissa : List Char → ℚ → Prop
  | whole {ds : List Char} (hne : ds ≠ []) (hds : AreDigits ds) : IsMantissa ds (place ds)
  | pointed {ds ps : List Char} (hne : ds ≠ []) (hds : AreDigits ds) (hps : AreDigits ps) :
    IsMantissa (ds ++ '.' :: ps) (place ds + place ps / 10 ^ ps.length)
  | fraction {ps : List Char} (hne : ps ≠ []) (hps : AreDigits ps) :
    IsMantissa ('.' :: ps) (place ps / 10 ^ ps.length)

/-- Whether characters ask for a power of ten, and the exponent; nothing asks for the zeroth. -/
inductive IsExponent : List Char → ℤ → Prop
  | absent : IsExponent [] 0
  | given {e : Char} {sign ds : List Char} {σ : ℤ} (he : e = 'e' ∨ e = 'E') (hs : IsSign sign σ)
    (hne : ds ≠ []) (hds : AreDigits ds) : IsExponent (e :: (sign ++ ds)) (σ * place ds)

/-- Whether characters are a numeral without a sign, and its number. -/
inductive WritesUnsigned : List Char → ℚ → Prop
  | intro {mantissa exponent : List Char} {μ : ℚ} {ε : ℤ} (hm : IsMantissa mantissa μ)
    (he : IsExponent exponent ε) : WritesUnsigned (mantissa ++ exponent) (μ * 10 ^ ε)

/-- Whether characters are a numeral, and the number that it writes. -/
inductive Writes : List Char → ℚ → Prop
  | intro {sign unsigned : List Char} {σ : ℤ} {x : ℚ} (hs : IsSign sign σ)
    (hu : WritesUnsigned unsigned x) : Writes (sign ++ unsigned) (σ * x)

/-- The number that a numeral stands for, as it was read. -/
def value (n : Numeral) : ℚ := n.mantissa * 10 ^ n.exponent

/-! ### Digits -/

theorem ofDigitChars_eq_place (ds : List Char) : Nat.ofDigitChars 10 ds 0 = place ds := by
  induction ds using List.reverseRecOn with
  | nil => rfl
  | append_singleton ds d ih =>
    rw [Nat.ofDigitChars_append, Nat.ofDigitChars_cons, Nat.ofDigitChars_nil, ih, place, place,
      List.reverse_concat, List.map_cons, Nat.ofDigits_cons, Nat.add_comm]

theorem place_append (ds ps : List Char) :
    place (ds ++ ps) = place ds * 10 ^ ps.length + place ps := by
  rw [place, List.reverse_append, List.map_append, Nat.ofDigits_append, List.length_map,
    List.length_reverse, ← place, ← place, Nat.mul_comm, Nat.add_comm]

theorem digit_lt {d : Char} (h : d.isDigit = true) : d.toNat - '0'.toNat < 10 := by
  simp only [Char.isDigit_iff_toNat, Char.reduceToNat] at h ⊢
  omega

theorem place_lt (h : AreDigits ds) : place ds < 10 ^ ds.length := by
  have hlt := Nat.ofDigits_lt_base_pow_length (b := 10)
    (l := ds.reverse.map fun d => d.toNat - '0'.toNat) (by decide) fun n hn => by
      obtain ⟨d, hd, rfl⟩ := List.mem_map.1 hn
      exact digit_lt (h d (List.mem_reverse.1 hd))
  rwa [List.length_map, List.length_reverse] at hlt

theorem AreDigits.append (hds : AreDigits ds) (hps : AreDigits ps) : AreDigits (ds ++ ps) :=
  fun d hd => (List.mem_append.1 hd).elim (hds d) (hps d)

theorem areDigits_takeWhile (cs : List Char) : AreDigits (cs.takeWhile Char.isDigit) :=
  List.all_eq_true.1 List.all_takeWhile

/-! ### Signs -/

/-- The factor that a text begins with. -/
def sign (cs : List Char) : ℤ := if cs.head? = some '-' then -1 else 1

theorem exists_isSign (cs : List Char) : ∃ s, IsSign s (sign cs) ∧ cs = s ++ dropSign cs := by
  fun_cases dropSign cs with
  | case1 rest => exact ⟨['+'], .plus, rfl⟩
  | case2 rest => exact ⟨['-'], .minus, rfl⟩
  | case3 _ _ hminus =>
    have hs : sign cs = 1 := by
      cases cs with
      | nil => rfl
      | cons c rest =>
        refine if_neg fun h => ?_
        cases h
        exact hminus rest rfl
    exact ⟨[], hs ▸ .absent, rfl⟩

/-- The characters of signs. -/
def isSignChar (c : Char) : Bool := c = '+' || c = '-'

theorem dropSign_append {s : List Char} {σ : ℤ} (hs : IsSign s σ) (h : Text.Stops isSignChar cs) :
    dropSign (s ++ cs) = cs ∧ sign (s ++ cs) = σ := by
  cases hs with
  | plus => exact ⟨rfl, rfl⟩
  | minus => exact ⟨rfl, rfl⟩
  | absent =>
    cases cs with
    | nil => exact ⟨rfl, rfl⟩
    | cons c rest =>
      obtain ⟨hplus, hminus⟩ : c ≠ '+' ∧ c ≠ '-' := by simpa [isSignChar] using h c rfl
      constructor
      · rw [List.nil_append, dropSign]
        · rintro rest' ⟨⟩
          exact hplus rfl
        · rintro rest' ⟨⟩
          exact hminus rfl
      · exact if_neg fun h => hminus (Option.some.inj h)

theorem AreDigits.stops_sign (h : AreDigits ds) : Text.Stops isSignChar ds := by
  intro d hd
  have hdigit := h d (List.mem_of_mem_head? hd)
  by_contra hsign
  simp only [isSignChar, Bool.not_eq_false, Bool.or_eq_true, decide_eq_true_eq] at hsign
  rcases hsign with rfl | rfl <;> revert hdigit <;> decide

/-! ### Powers of ten -/

theorem exponent?_cons_eq_some_iff {e : Char} {ε : ℤ} :
    exponent? (e :: rest) = some ε ↔
      (e = 'e' ∨ e = 'E') ∧ dropSign rest ≠ [] ∧ AreDigits (dropSign rest) ∧
        ε = sign rest * place (dropSign rest) := by
  have hvalue : (if rest.head? = some '-' then -(Nat.ofDigitChars 10 (dropSign rest) 0 : ℤ)
      else Nat.ofDigitChars 10 (dropSign rest) 0) = sign rest * place (dropSign rest) := by
    rw [ofDigitChars_eq_place, sign]
    split
    · rw [neg_one_mul]
    · rw [one_mul]
  simp only [exponent?, hvalue, Option.ite_none_right_eq_some, Bool.and_eq_true, Bool.or_eq_true,
    decide_eq_true_eq, List.all_eq_true, Bool.not_eq_true', List.isEmpty_eq_false_iff,
    Option.some.injEq, and_assoc]
  rw [eq_comm (a := ε)]
  rfl

theorem exponent?_eq_some_iff {ε : ℤ} : exponent? cs = some ε ↔ IsExponent cs ε := by
  constructor
  · intro h
    cases cs with
    | nil =>
      cases h
      exact .absent
    | cons e rest =>
      obtain ⟨he, hne, hds, rfl⟩ := exponent?_cons_eq_some_iff.1 h
      obtain ⟨s, hs, hrest⟩ := exists_isSign rest
      have hexponent := IsExponent.given he hs hne hds
      rwa [← hrest] at hexponent
  · rintro (_ | ⟨he, hs, hne, hds⟩)
    · rfl
    · obtain ⟨hdrop, hsign⟩ := dropSign_append hs hds.stops_sign
      refine exponent?_cons_eq_some_iff.2 ⟨he, ?_⟩
      rw [hdrop, hsign]
      exact ⟨hne, hds, rfl⟩

/-- A power of ten begins with its letter. -/
theorem IsExponent.stops {ε : ℤ} (h : IsExponent cs ε) :
    Text.Stops Char.isDigit cs ∧ cs.head? ≠ some '.' := by
  rcases h with - | ⟨rfl | rfl, -, -, -⟩
  · exact ⟨Text.stops_nil, nofun⟩
  · exact ⟨Text.stops_cons rfl _, by simp⟩
  · exact ⟨Text.stops_cons rfl _, by simp⟩

/-! ### Points -/

theorem splitPoint_whole (hds : AreDigits ds) (h : Text.Stops Char.isDigit rest)
    (hpoint : rest.head? ≠ some '.') : splitPoint (ds ++ rest) = (ds, [], rest) := by
  rw [splitPoint, Text.takeWhile_run hds h, Text.dropWhile_run hds h]
  cases rest with
  | nil => rfl
  | cons c rest =>
    split
    · next heq =>
      cases heq
      exact absurd rfl hpoint
    · rfl

theorem splitPoint_pointed (hds : AreDigits ds) (hps : AreDigits ps)
    (h : Text.Stops Char.isDigit rest) :
    splitPoint (ds ++ '.' :: (ps ++ rest)) = (ds, ps, rest) := by
  have hpoint : Text.Stops Char.isDigit ('.' :: (ps ++ rest)) := Text.stops_cons rfl _
  rw [splitPoint, Text.takeWhile_run hds hpoint, Text.dropWhile_run hds hpoint]
  simp only [Text.takeWhile_run hps h, Text.dropWhile_run hps h]

/-- Nothing is lost at the point. -/
theorem splitPoint_cases (cs : List Char) :
    ∃ ds ps rest, splitPoint cs = (ds, ps, rest) ∧ AreDigits ds ∧ AreDigits ps ∧
      (cs = ds ++ '.' :: (ps ++ rest) ∨ ps = [] ∧ cs = ds ++ rest) := by
  have hsplit := List.takeWhile_append_dropWhile (p := Char.isDigit) (l := cs)
  unfold splitPoint
  simp only
  split
  · next rest hrest =>
    refine ⟨_, _, _, rfl, areDigits_takeWhile cs, areDigits_takeWhile rest, .inl ?_⟩
    rw [List.takeWhile_append_dropWhile, ← hrest, hsplit]
  · exact ⟨_, [], _, rfl, areDigits_takeWhile cs, nofun, .inr ⟨rfl, hsplit.symm⟩⟩

/-- Digits in front of a point and behind it are read as one number, which is then scaled down. -/
theorem value_digits (ds ps : List Char) (width : ℕ) (ε : ℤ) :
    value ⟨Nat.ofDigitChars 10 (ds ++ ps) 0, width, ε - ps.length⟩ =
      (place ds + place ps / 10 ^ ps.length) * 10 ^ ε := by
  rw [value, ofDigitChars_eq_place, place_append, zpow_sub₀ (by norm_num), zpow_natCast]
  push_cast
  field_simp

/-! ### Numerals -/

theorem ofUnsigned?_of_splitPoint (h : splitPoint cs = (ds, ps, rest)) :
    ofUnsigned? cs =
      if (ds ++ ps).isEmpty then none
      else (exponent? rest).map fun e =>
        ⟨Nat.ofDigitChars 10 (ds ++ ps) 0, (ds ++ ps).length, e - ps.length⟩ := by
  rw [ofUnsigned?, h]

theorem WritesUnsigned.exists_ofUnsigned? (h : WritesUnsigned cs x) :
    ∃ n, ofUnsigned? cs = some n ∧ n.value = x := by
  obtain ⟨hm, he⟩ := h
  have hexponent := exponent?_eq_some_iff.2 he
  obtain ⟨hstops, hpoint⟩ := he.stops
  rcases hm with ⟨hne, hds⟩ | ⟨hne, hds, hps⟩ | ⟨hne, hps⟩
  · rw [ofUnsigned?_of_splitPoint (splitPoint_whole hds hstops hpoint), if_neg (by simpa using hne),
      hexponent]
    refine ⟨_, rfl, ?_⟩
    rw [value_digits]
    simp [place]
  · rw [List.append_assoc, List.cons_append,
      ofUnsigned?_of_splitPoint (splitPoint_pointed hds hps hstops), if_neg (by simp [hne]), hexponent]
    exact ⟨_, rfl, value_digits _ _ _ _⟩
  · have hnil : AreDigits [] := nofun
    have hsplit := splitPoint_pointed hnil hps hstops
    rw [List.nil_append] at hsplit
    rw [List.cons_append, ofUnsigned?_of_splitPoint hsplit, if_neg (by simpa using hne), hexponent]
    refine ⟨_, rfl, ?_⟩
    rw [value_digits]
    simp [place]

theorem writesUnsigned_of_ofUnsigned? {n : Numeral} (h : ofUnsigned? cs = some n) :
    WritesUnsigned cs n.value ∧ n.mantissa < 10 ^ n.width := by
  obtain ⟨ds, ps, rest, hsplit, hds, hps, hcs⟩ := splitPoint_cases cs
  rw [ofUnsigned?_of_splitPoint hsplit, Option.ite_none_left_eq_some, Option.map_eq_some_iff] at h
  obtain ⟨hne, ε, he, rfl⟩ := h
  rw [exponent?_eq_some_iff] at he
  refine ⟨?_, ?_⟩
  · rw [value_digits]
    rcases hcs with rfl | ⟨rfl, rfl⟩
    · by_cases hd : ds = []
      · subst hd
        have hwrites := WritesUnsigned.intro (.fraction (by simpa using hne) hps) he
        simpa [place] using hwrites
      · have hwrites := WritesUnsigned.intro (.pointed hd hds hps) he
        rwa [List.append_assoc] at hwrites
    · have hwrites := WritesUnsigned.intro (.whole (by simpa using hne) hds) he
      simpa [place] using hwrites
  · change Nat.ofDigitChars 10 (ds ++ ps) 0 < 10 ^ (ds ++ ps).length
    rw [ofDigitChars_eq_place]
    exact place_lt (hds.append hps)

theorem WritesUnsigned.stops_sign (h : WritesUnsigned cs x) : Text.Stops isSignChar cs := by
  obtain ⟨hm, -⟩ := h
  rcases hm with ⟨hne, hds⟩ | ⟨hne, hds, -⟩ | -
  · exact hds.stops_sign.append_of_ne_nil hne _
  · rw [List.append_assoc]
    exact hds.stops_sign.append_of_ne_nil hne _
  · exact Text.stops_cons rfl _

/-- The reader takes a text exactly if it is a numeral, for the number that it writes up to its sign. -/
theorem writes_iff :
    Writes cs x ↔ ∃ n, ofChars? cs = some n ∧ x = sign cs * n.value := by
  constructor
  · rintro ⟨hs, hu⟩
    obtain ⟨hdrop, hsign⟩ := dropSign_append hs hu.stops_sign
    obtain ⟨n, hn, rfl⟩ := hu.exists_ofUnsigned?
    exact ⟨n, by rw [ofChars?, hdrop, hn], by rw [hsign]⟩
  · rintro ⟨n, hn, rfl⟩
    obtain ⟨s, hs, hcs⟩ := exists_isSign cs
    have hwrites := Writes.intro hs (writesUnsigned_of_ofUnsigned? hn).1
    rwa [← hcs] at hwrites

end Tablescope.Numeral
