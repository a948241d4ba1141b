import Tablescope.Proofs.Store.Action
import Tablescope.Store.Logged

/-!
# What actions log

Beside the state there is a log that only grows, such as the list of all calls of a store. An action
*makes* entries of a kind if all that it adds to the log are of this kind, whether or not it
succeeds; what one action makes and what another makes behind it is what both make.
-/

namespace Tablescope

/-! ### Calls -/

theorem StoreCall.mem_fetches {calls : List StoreCall} {request : FetchRequest} :
    request ∈ fetches calls ↔ StoreCall.fetch request ∈ calls := by
  rw [fetches, List.mem_filterMap]
  constructor
  · rintro ⟨call, hcall, h⟩
    cases call <;> cases h
    exact hcall
  · exact fun h => ⟨_, h, rfl⟩

namespace Action

variable {σ κ α β : Type} {P Q : κ → Prop} {s : σ × List κ}

/-- Whether all entries that an action adds to the log, from this state on, are of a kind. -/
def Makes (P : κ → Prop) (x : Action (σ × List κ) α) (s : σ × List κ) : Prop :=
  ∃ entries, (x s).2.2 = s.2 ++ entries ∧ ∀ k ∈ entries, P k

theorem Makes.imp {x : Action (σ × List κ) α} (h : x.Makes P s) (hpq : ∀ k, P k → Q k) :
    x.Makes Q s := by
  obtain ⟨entries, hlog, hentries⟩ := h
  exact ⟨entries, hlog, fun k hk => hpq k (hentries k hk)⟩

/-! ### Making entries -/

theorem makes_pure (a : α) : (pure a : Action (σ × List κ) α).Makes P s :=
  ⟨[], (List.append_nil _).symm, by simp⟩

theorem makes_fail (e : Error) : (fail e : Action (σ × List κ) α).Makes P s :=
  ⟨[], (List.append_nil _).symm, by simp⟩

theorem makes_ofExcept (r : Except Error α) : (ofExcept r : Action (σ × List κ) α).Makes P s :=
  ⟨[], (List.append_nil _).symm, by simp⟩

theorem makes_ofInput (r : Except InputError α) : (ofInput r : Action (σ × List κ) α).Makes P s :=
  makes_ofExcept _

/-- The second action has to make such entries only from where the first one has come to. -/
theorem makes_bind {x : Action (σ × List κ) α} {f : α → Action (σ × List κ) β}
    (hx : x.Makes P s) (hf : ∀ a t, x s = (.ok a, t) → (f a).Makes P t) : (x >>= f).Makes P s := by
  obtain ⟨entries, hlog, hentries⟩ := hx
  unfold Makes
  rw [bind_apply]
  rcases hs : x s with ⟨e | a, t⟩
  · rw [hs] at hlog
    exact ⟨entries, hlog, hentries⟩
  · rw [hs] at hlog
    obtain ⟨more, hmore, hmores⟩ := hf a t hs
    refine ⟨entries ++ more, ?_, fun k hk => ?_⟩
    · rw [← List.append_assoc, ← hlog]
      exact hmore
    · exact (List.mem_append.1 hk).elim (hentries k) (hmores k)

/-- What is in the log after the first action is still there after the second. -/
theorem mem_log_bind {x : Action (σ × List κ) α} {f : α → Action (σ × List κ) β} {k : κ}
    (h : k ∈ (x s).2.2) (hf : ∀ a t, (f a).Makes P t) : k ∈ ((x >>= f) s).2.2 := by
  rw [bind_apply]
  rcases hs : x s with ⟨e | a, t⟩
  · rwa [hs] at h
  · obtain ⟨entries, hlog, -⟩ := hf a t
    rw [hs] at h
    rw [hlog]
    exact List.mem_append_left _ h

/-! ### Noting calls -/

theorem makes_noting {P : StoreCall → Prop} {s : σ × List StoreCall} {call : StoreCall}
    (x : Action σ α) (h : P call) : (x.noting call).Makes P s :=
  ⟨[call], rfl, by simpa using h⟩

/-- A call that was noted has come to the result and the state that it comes to unnoted. -/
theorem noting_eq_iff {x : Action σ α} {call : StoreCall} {r : Except Error α}
    {s t : σ × List StoreCall} :
    x.noting call s = (r, t) ↔ x s.1 = (r, t.1) ∧ t.2 = s.2 ++ [call] := by
  obtain ⟨u, log⟩ := t
  unfold noting
  rcases x s.1 with ⟨r', u'⟩
  simp only [Prod.mk.injEq]
  constructor
  · rintro ⟨rfl, rfl, rfl⟩
    exact ⟨⟨rfl, rfl⟩, rfl⟩
  · rintro ⟨⟨rfl, rfl⟩, rfl⟩
    exact ⟨rfl, rfl, rfl⟩

end Action

end Tablescope
