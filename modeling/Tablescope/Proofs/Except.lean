import Mathlib.Data.List.Forall2

/-!
# Results

A computation in steps succeeds exactly if all of its steps do, and fails where the first of them
does. These lemmas take a success or a failure apart into those of the steps.
-/

namespace Except

variable {ε ε' α β : Type}

theorem bind_eq_ok_iff {x : Except ε α} {f : α → Except ε β} {b : β} :
    (x >>= f) = .ok b ↔ ∃ a, x = .ok a ∧ f a = .ok b := by
  cases x with
  | error e =>
    constructor
    · intro h
      cases h
    · rintro ⟨a, ha, -⟩
      cases ha
  | ok a =>
    constructor
    · exact fun h => ⟨a, rfl, h⟩
    · rintro ⟨a', ha, h⟩
      cases ha
      exact h

theorem bind_eq_error_iff {x : Except ε α} {f : α → Except ε β} {e : ε} :
    (x >>= f) = .error e ↔ x = .error e ∨ ∃ a, x = .ok a ∧ f a = .error e := by
  cases x with
  | error e' =>
    constructor
    · intro h
      cases h
      exact .inl rfl
    · rintro (h | ⟨a, ha, -⟩)
      · cases h
        rfl
      · cases ha
  | ok a =>
    constructor
    · exact fun h => .inr ⟨a, rfl, h⟩
    · rintro (h | ⟨a', ha, h⟩)
      · cases h
      · cases ha
        exact h

/-- What follows a check is had exactly if the check succeeds. -/
theorem check_eq_ok_iff {check : Except ε Unit} {a b : α} :
    (check >>= fun _ => pure a) = .ok b ↔ check = .ok () ∧ b = a := by
  cases check <;> simp [bind, Except.bind, pure, Except.pure, eq_comm]

theorem check_eq_error_iff {check : Except ε Unit} {a : α} {e : ε} :
    (check >>= fun _ => pure a) = .error e ↔ check = .error e := by
  cases check <;> simp [bind, Except.bind, pure, Except.pure]

theorem map_eq_ok_iff {x : Except ε α} {f : α → β} {b : β} :
    x.map f = .ok b ↔ ∃ a, x = .ok a ∧ f a = b := by
  cases x <;> simp [Except.map]

theorem map_eq_error_iff {x : Except ε α} {f : α → β} {e : ε} :
    x.map f = .error e ↔ x = .error e := by
  cases x <;> simp [Except.map]

@[simp] theorem mapError_ok (f : ε → ε') (a : α) : (ok a : Except ε α).mapError f = ok a := rfl

@[simp] theorem mapError_error (f : ε → ε') (e : ε) :
    (error e : Except ε α).mapError f = error (f e) := rfl

theorem mapError_eq_ok_iff {x : Except ε α} {f : ε → ε'} {a : α} :
    x.mapError f = .ok a ↔ x = .ok a := by
  cases x <;> simp

theorem mapError_eq_error_iff {x : Except ε α} {f : ε → ε'} {e : ε'} :
    x.mapError f = .error e ↔ ∃ d, x = .error d ∧ f d = e := by
  cases x <;> simp

/-- A list is gone through successfully exactly if each of its elements is. -/
theorem mapM_eq_ok_iff {f : α → Except ε β} {xs : List α} {ys : List β} :
    xs.mapM f = .ok ys ↔ List.Forall₂ (fun x y => f x = .ok y) xs ys := by
  induction xs generalizing ys with
  | nil =>
    rw [List.mapM_nil, List.forall₂_nil_left_iff]
    constructor
    · intro h
      cases h
      rfl
    · rintro rfl
      rfl
  | cons x xs ih =>
    rw [List.mapM_cons, bind_eq_ok_iff, List.forall₂_cons_left_iff]
    constructor
    · rintro ⟨y, hy, h⟩
      obtain ⟨ys', hys, h⟩ := bind_eq_ok_iff.1 h
      cases h
      exact ⟨y, ys', hy, ih.1 hys, rfl⟩
    · rintro ⟨y, ys', hy, hys, rfl⟩
      exact ⟨y, hy, bind_eq_ok_iff.2 ⟨ys', ih.2 hys, rfl⟩⟩

/-- Going through a list fails exactly where the first element that fails does. -/
theorem mapM_eq_error_iff {f : α → Except ε β} {xs : List α} {e : ε} :
    xs.mapM f = .error e ↔
      ∃ before x after, xs = before ++ x :: after ∧ (∀ y ∈ before, ∃ b, f y = .ok b) ∧
        f x = .error e := by
  induction xs with
  | nil =>
    rw [List.mapM_nil]
    constructor
    · intro h
      cases h
    · rintro ⟨before, x, after, h, -⟩
      cases before <;> cases h
  | cons x xs ih =>
    rw [List.mapM_cons, bind_eq_error_iff]
    constructor
    · rintro (hx | ⟨b, hx, h⟩)
      · exact ⟨[], x, xs, rfl, by simp, hx⟩
      · rcases bind_eq_error_iff.1 h with h | ⟨bs, -, h⟩
        · obtain ⟨before, y, after, rfl, hbefore, hy⟩ := ih.1 h
          exact ⟨x :: before, y, after, rfl, List.forall_mem_cons.2 ⟨⟨b, hx⟩, hbefore⟩, hy⟩
        · cases h
    · rintro ⟨_ | ⟨_, before⟩, y, after, h, hbefore, hy⟩
      · cases h
        exact .inl hy
      · cases h
        obtain ⟨⟨b, hx⟩, hbefore⟩ := List.forall_mem_cons.1 hbefore
        exact .inr ⟨b, hx, bind_eq_error_iff.2 (.inl (ih.2 ⟨before, y, after, rfl, hbefore, hy⟩))⟩

theorem exists_mapM_eq_ok {f : α → Except ε β} {xs : List α} (h : ∀ x ∈ xs, ∃ y, f x = .ok y) :
    ∃ ys, xs.mapM f = .ok ys := by
  induction xs with
  | nil => exact ⟨[], rfl⟩
  | cons x xs ih =>
    obtain ⟨⟨y, hy⟩, hxs⟩ := List.forall_mem_cons.1 h
    obtain ⟨ys, hys⟩ := ih hxs
    refine ⟨y :: ys, ?_⟩
    rw [List.mapM_cons, hy, hys]
    rfl

theorem exists_mapM_eq_ok_iff {f : α → Except ε β} {xs : List α} :
    (∃ ys, xs.mapM f = .ok ys) ↔ ∀ x ∈ xs, ∃ y, f x = .ok y := by
  refine ⟨?_, exists_mapM_eq_ok⟩
  rintro ⟨ys, h⟩
  have hall := mapM_eq_ok_iff.1 h
  induction hall with
  | nil => simp
  | cons hxy hrest ih =>
    exact List.forall_mem_cons.2 ⟨⟨_, hxy⟩, ih (mapM_eq_ok_iff.2 hrest)⟩

/-- A list is checked successfully exactly if each of its elements is. -/
theorem forM_eq_ok_iff {f : α → Except ε Unit} {xs : List α} :
    xs.forM f = .ok () ↔ ∀ x ∈ xs, f x = .ok () := by
  induction xs with
  | nil =>
    rw [List.forM]
    simp [pure, Except.pure]
  | cons x xs ih =>
    rw [List.forM, bind_eq_ok_iff, List.forall_mem_cons, ← ih]
    constructor
    · rintro ⟨⟨⟩, hx, hxs⟩
      exact ⟨hx, hxs⟩
    · exact fun ⟨hx, hxs⟩ => ⟨⟨⟩, hx, hxs⟩

/-- Checking a list fails exactly where the first element that fails does. -/
theorem forM_eq_error_iff {f : α → Except ε Unit} {xs : List α} {e : ε} :
    xs.forM f = .error e ↔
      ∃ before x after, xs = before ++ x :: after ∧ (∀ y ∈ before, f y = .ok ()) ∧
        f x = .error e := by
  induction xs with
  | nil =>
    rw [List.forM]
    constructor
    · intro h
      cases h
    · rintro ⟨before, x, after, h, -⟩
      cases before <;> cases h
  | cons x xs ih =>
    rw [List.forM, bind_eq_error_iff]
    constructor
    · rintro (hx | ⟨⟨⟩, hx, h⟩)
      · exact ⟨[], x, xs, rfl, by simp, hx⟩
      · obtain ⟨before, y, after, rfl, hbefore, hy⟩ := ih.1 h
        exact ⟨x :: before, y, after, rfl, List.forall_mem_cons.2 ⟨hx, hbefore⟩, hy⟩
    · rintro ⟨_ | ⟨_, before⟩, y, after, h, hbefore, hy⟩
      · cases h
        exact .inl hy
      · cases h
        obtain ⟨hx, hbefore⟩ := List.forall_mem_cons.1 hbefore
        exact .inr ⟨⟨⟩, hx, ih.2 ⟨before, y, after, rfl, hbefore, hy⟩⟩

end Except
