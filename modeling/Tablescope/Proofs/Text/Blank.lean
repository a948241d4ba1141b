import Tablescope.Proofs.Text.Run
import Tablescope.Text.Blank

/-!
# What trimming leaves

A trimmed text is told by where it stands: between blanks, and with no blank at either end. There is
one such text in every text.
-/

namespace Tablescope.Text

/-- Whether a text stands in another with blanks before and behind it and no blank at its ends. -/
structure IsTrimmed (raw text : String) : Prop where
  exists_blanks : ∃ before behind, raw.toList = before ++ (text.toList ++ behind) ∧
    (∀ c ∈ before, isBlank c = true) ∧ ∀ c ∈ behind, isBlank c = true
  first : Stops isBlank text.toList
  last : Stops isBlank text.toList.reverse

theorem trimChars_blanks {before behind cs : List Char} (hbefore : ∀ c ∈ before, isBlank c = true)
    (hbehind : ∀ c ∈ behind, isBlank c = true) (hfirst : Stops isBlank cs)
    (hlast : Stops isBlank cs.reverse) : trimChars (before ++ (cs ++ behind)) = cs := by
  have hbehind' : ∀ c ∈ behind.reverse, isBlank c = true := fun c hc =>
    hbehind c (List.mem_reverse.1 hc)
  by_cases hne : cs = []
  · subst hne
    have hblank : ∀ c ∈ before ++ behind, isBlank c = true := fun c hc =>
      (List.mem_append.1 hc).elim (hbefore c) (hbehind c)
    have hdrop := dropWhile_run hblank stops_nil
    rw [List.append_nil] at hdrop
    rw [List.nil_append, trimChars, hdrop]
    rfl
  · rw [trimChars, dropWhile_run hbefore (hfirst.append_of_ne_nil hne behind), List.reverse_append,
      dropWhile_run hbehind' hlast, List.reverse_reverse]

theorem isTrimmed_trim (raw : String) : IsTrimmed raw (trim raw) := by
  -- what is left in front of the blanks at the end still begins as the text without those in front
  have hfront := List.takeWhile_append_dropWhile (p := isBlank) (l := raw.toList)
  have hback := List.takeWhile_append_dropWhile (p := isBlank)
    (l := (raw.toList.dropWhile isBlank).reverse)
  have htrim : (trim raw).toList =
      ((raw.toList.dropWhile isBlank).reverse.dropWhile isBlank).reverse := String.toList_ofList
  have hsplit : raw.toList.dropWhile isBlank =
      (trim raw).toList ++ ((raw.toList.dropWhile isBlank).reverse.takeWhile isBlank).reverse := by
    rw [htrim, ← List.reverse_append, hback, List.reverse_reverse]
  refine ⟨⟨_, _, by rw [← hsplit, hfront], List.all_eq_true.1 List.all_takeWhile, fun c hc => ?_⟩,
    fun c hc => ?_, ?_⟩
  · exact List.all_eq_true.1 List.all_takeWhile c (List.mem_reverse.1 hc)
  · refine stops_dropWhile isBlank raw.toList c ?_
    rw [hsplit, List.head?_append, hc]
    rfl
  · rw [htrim, List.reverse_reverse]
    exact stops_dropWhile _ _

/-- Trimming finds the one text that stands between the blanks. -/
theorem trim_eq_iff {raw text : String} : trim raw = text ↔ IsTrimmed raw text := by
  constructor
  · rintro rfl
    exact isTrimmed_trim raw
  · rintro ⟨⟨before, behind, hraw, hbefore, hbehind⟩, hfirst, hlast⟩
    rw [trim, hraw, trimChars_blanks hbefore hbehind hfirst hlast, String.ofList_toList]

/-- A text without blanks is left as it is. -/
theorem trim_eq_self {text : String} (h : ∀ c ∈ text.toList, isBlank c = false) :
    trim text = text := by
  refine trim_eq_iff.2 ⟨⟨[], [], by simp, nofun, nofun⟩, fun c hc => ?_, fun c hc => ?_⟩
  · exact h c (List.mem_of_mem_head? hc)
  · exact h c (List.mem_reverse.1 (List.mem_of_mem_head? hc))

end Tablescope.Text
