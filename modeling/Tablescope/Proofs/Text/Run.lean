import Mathlib.Data.List.TakeWhile

/-!
# Runs of characters

A text is often taken apart into a run of characters of one kind and what is behind it. The run that
is found is the one that was put there, whenever what is behind it stops the run.
-/

namespace Tablescope.Text

variable {p : Char → Bool} {run rest : List Char}

/-- Whether a run of characters of this kind stops here: at the end or at another character. -/
def Stops (p : Char → Bool) (rest : List Char) : Prop := ∀ c ∈ rest.head?, p c = false

instance (p : Char → Bool) (rest : List Char) : Decidable (Stops p rest) :=
  inferInstanceAs (Decidable (∀ c ∈ rest.head?, p c = false))

theorem stops_nil : Stops p [] := nofun

theorem stops_cons {c : Char} (h : p c = false) (rest : List Char) : Stops p (c :: rest) := by
  rintro _ ⟨⟩
  exact h

theorem Stops.append_of_ne_nil (h : Stops p run) (hne : run ≠ []) (rest : List Char) :
    Stops p (run ++ rest) := by
  cases run with
  | nil => exact absurd rfl hne
  | cons c run => exact stops_cons (h c rfl) _

/-- What stops a run has no part in it. -/
theorem Stops.takeWhile_append (h : Stops p rest) (cs : List Char) :
    (cs ++ rest).takeWhile p = cs.takeWhile p := by
  induction cs with
  | nil =>
    cases rest with
    | nil => rfl
    | cons c rest => exact List.takeWhile_cons_of_neg (by simp [h c rfl])
  | cons c cs ih => rw [List.cons_append, List.takeWhile_cons, List.takeWhile_cons, ih]

theorem takeWhile_run (hrun : ∀ c ∈ run, p c = true) (h : Stops p rest) :
    (run ++ rest).takeWhile p = run := by
  rw [h.takeWhile_append, List.takeWhile_eq_self_iff.2 hrun]

theorem dropWhile_run (hrun : ∀ c ∈ run, p c = true) (h : Stops p rest) :
    (run ++ rest).dropWhile p = rest := by
  rw [List.dropWhile_append_of_pos hrun]
  cases rest with
  | nil => rfl
  | cons c rest => rw [List.dropWhile_cons_of_neg (by simp [h c rfl])]

theorem stops_dropWhile (p : Char → Bool) (cs : List Char) : Stops p (cs.dropWhile p) := by
  intro c hc
  have h := List.head?_dropWhile_not p cs
  rw [hc] at h
  exact h

end Tablescope.Text
