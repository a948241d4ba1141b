import Tablescope.Proofs.Paging.Readings

/-!
# Surplus items

When the last reading of a page gives more items than the page can take, the surplus is cut off. That
it was there matters, since the page then goes on behind the last item that was kept; what was in it
does not. So answers that are *alike* for a page, with the same extents and the same items up to its
size, make the same page of it or fail it in the same way.
-/

namespace Tablescope

/-- How many items a reading gave and how far it got, whatever the items are. -/
def Portion.extent {α κ : Type} (portion : Portion α κ) : ℕ × Option κ :=
  (portion.items.length, portion.last)

namespace Answers

variable {α κ : Type}

/-- Whether the first answers agree in their extents, and in their items up to a size. -/
structure Alike (size n : ℕ) (a b : Answers α κ) : Prop where
  extent : ∀ k < n, (a k).map Portion.extent = (b k).map Portion.extent
  kept : (a.items n).take size = (b.items n).take size

variable {a b : Answers α κ} {enough : ℕ → Prop} {size n k : ℕ} {portion : Portion α κ} {e : Error}

namespace Alike

theorem exists_of_ok (h : a.Alike size n b) (hk : k < n) (ha : a k = .ok portion) :
    ∃ other, b k = .ok other ∧ other.items.length = portion.items.length ∧
      other.last = portion.last := by
  have hextent := h.extent k hk
  rw [ha] at hextent
  obtain ⟨other, hb, hother⟩ := Except.map_eq_ok_iff.1 hextent.symm
  exact ⟨other, hb, congrArg Prod.fst hother, congrArg Prod.snd hother⟩

theorem error_iff (h : a.Alike size n b) (hk : k < n) : a k = .error e ↔ b k = .error e := by
  rw [← Except.map_eq_error_iff (f := Portion.extent), h.extent k hk, Except.map_eq_error_iff]

theorem length_itemsAt (h : a.Alike size n b) (hk : k < n) :
    (b.itemsAt k).length = (a.itemsAt k).length := by
  rcases ha : a k with e | portion
  · rw [itemsAt, itemsAt, ha, (h.error_iff hk).1 ha]
  · obtain ⟨other, hb, hlength, -⟩ := h.exists_of_ok hk ha
    rw [itemsAt_of_ok ha, itemsAt_of_ok hb, hlength]

theorem length_items (h : a.Alike size n b) (hk : k ≤ n) :
    (b.items k).length = (a.items k).length := by
  rw [items, items, List.length_flatMap, List.length_flatMap]
  refine congrArg List.sum (List.map_congr_left fun j hj => h.length_itemsAt ?_)
  exact lt_of_lt_of_le (List.mem_range.1 hj) hk

theorem ends_iff (h : a.Alike size n b) (hk : k < n) : b.Ends enough k ↔ a.Ends enough k := by
  rcases ha : a k with e | portion
  · rw [Ends, Ends, ha, (h.error_iff hk).1 ha]
  · obtain ⟨other, hb, -, hlast⟩ := h.exists_of_ok hk ha
    rw [ends_iff_of_ok ha, ends_iff_of_ok hb, hlast, h.length_items hk]

theorem endsFirst (h : a.Alike size n b) (hk : k < n) (hends : a.EndsFirst enough k) :
    b.EndsFirst enough k :=
  ⟨(h.ends_iff hk).2 hends.1, fun j hj => mt (h.ends_iff (Nat.lt_trans hj hk)).1 (hends.2 j hj)⟩

/-- Where nothing is cut off, the items are the same. -/
theorem items_eq (h : a.Alike size n b) (hle : (a.items n).length ≤ size) :
    b.items n = a.items n := by
  have hkept := h.kept
  rwa [List.take_of_length_le hle, List.take_of_length_le (by rwa [h.length_items le_rfl]),
    eq_comm] at hkept

/-- Where something is cut off, the last item that is kept is the same. -/
theorem getElem?_items (h : a.Alike size n b) (hpos : 1 ≤ size) :
    (b.items n)[size - 1]? = (a.items n)[size - 1]? := by
  have hlt : size - 1 < size := by omega
  rw [← List.getElem?_take_of_lt hlt, ← h.kept, List.getElem?_take_of_lt hlt]

end Alike

end Answers

namespace PageQuery

variable {σ σ' : Type} {q : PageQuery} {settings : PagingSettings} {size allowed n : ℕ}
variable {a b : Answers Item Cursor}

/-- Whether a page is cut behind an item that does not have all attributes of a continuation, and
this is what is wrong with the first of them that it does not have. -/
def LosesPlace (q : PageQuery) (size allowed : ℕ) (answers : Answers Item Cursor)
    (fault : InputError) : Prop :=
  1 ≤ size ∧ ∃ k < allowed, ∃ batch item, answers.EndsFirst (size ≤ ·) k ∧ answers k = .ok batch ∧
    size < (answers.items (k + 1)).length ∧ (answers.items (k + 1))[size - 1]? = some item ∧
    item.FirstFault q.cursorAttributes fault

/-- Answers that are alike for the readings that a page takes come to the same page. -/
theorem Outcome.of_alike (hpos : 1 ≤ size) (hn : a.Takes (size ≤ ·) allowed n)
    (h : a.Alike size n b) {result : Except Error Page} (ho : q.Outcome size allowed a result) :
    q.Outcome size allowed b result := by
  -- the answer that ends the page is the last one that is taken
  have hlast : ∀ {k}, k < allowed → a.EndsFirst (size ≤ ·) k → n = k + 1 := fun hk hends => by
    rw [hn.eq_min hends]
    omega
  cases ho with
  | limit hgoes =>
    have hall : n = allowed := by
      refine le_antisymm hn.le (Nat.le_of_not_lt fun hlt => ?_)
      obtain ⟨k, rfl, hends⟩ := hn.stops hlt
      exact hgoes k (by omega) hends
    subst hall
    rw [← h.length_items le_rfl]
    exact .limit fun k hk => mt (h.ends_iff hk).1 (hgoes k hk)
  | @failed k e hk hends he =>
    obtain rfl := hlast hk hends
    have hlt : k < k + 1 := Nat.lt_succ_self k
    exact .failed hk (h.endsFirst hlt hends) ((h.error_iff hlt).1 he)
  | @whole k batch hk hends hb hle =>
    obtain rfl := hlast hk hends
    have hlt : k < k + 1 := Nat.lt_succ_self k
    obtain ⟨other, hother, -, hnext⟩ := h.exists_of_ok hlt hb
    rw [← h.items_eq hle, ← hnext]
    exact .whole hk (h.endsFirst hlt hends) hother (by rwa [h.length_items le_rfl])
  | @cut k batch item c hk hends hb hsurplus hitem hc hhas =>
    obtain rfl := hlast hk hends
    have hlt : k < k + 1 := Nat.lt_succ_self k
    obtain ⟨other, hother, -, -⟩ := h.exists_of_ok hlt hb
    rw [h.kept]
    exact .cut hk (h.endsFirst hlt hends) hother (by rwa [h.length_items le_rfl])
      ((h.getElem?_items hpos).trans hitem) hc hhas
  | @fault k batch item fault hk hends hb hsurplus hitem hfault =>
    obtain rfl := hlast hk hends
    have hlt : k < k + 1 := Nat.lt_succ_self k
    obtain ⟨other, hother, -, -⟩ := h.exists_of_ok hlt hb
    exact .fault hk (h.endsFirst hlt hends) hother (by rwa [h.length_items le_rfl])
      ((h.getElem?_items hpos).trans hitem) hfault

/-- What is in the surplus of a page does not matter to the page. -/
theorem fetch_eq_of_alike {store : Store σ} {store' : Store σ'} {s : σ} {s' : σ'}
    (hn : (q.pageAnswers store settings s).Takes (q.size settings ≤ ·) settings.roundTrips n)
    (h : (q.pageAnswers store settings s).Alike (q.size settings) n
      (q.pageAnswers store' settings s')) :
    (q.fetch store' settings s').1 = (q.fetch store settings s).1 := by
  rcases Nat.eq_zero_or_pos (q.size settings) with hzero | hpos
  · simp only [fetch, if_pos hzero]
    rfl
  · rw [fetch_eq_iff q store' settings s' hpos]
    exact .of_alike hpos hn h ((fetch_eq_iff q store settings s hpos _).1 rfl)

/-- A page that loses its place fails. -/
theorem fetch_of_losesPlace {store : Store σ} {s : σ} {fault : InputError}
    (h : q.LosesPlace (q.size settings) settings.roundTrips (q.pageAnswers store settings s)
      fault) : (q.fetch store settings s).1 = .error (.input fault) := by
  obtain ⟨hpos, k, hk, batch, item, hends, hb, hlt, hitem, hfault⟩ := h
  exact fetch_of_outcome hpos (.fault hk hends hb hlt hitem hfault)

end PageQuery

end Tablescope
