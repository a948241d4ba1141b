import Mathlib.Data.Nat.Find
import Tablescope.Proofs.Store.Logged
import Tablescope.Store.Chain

/-!
# What chains of requests come to

What a chain of requests comes to is told by the answers to it, each to a request from where the
answer before it got to. The chain ends with the first answer that is a failure, has no place to go
on from or brings enough items, provided that it is among the requests that are allowed. So the
answers also tell how many requests are made and which.
-/

namespace Tablescope

/-! ### Answers -/

/-- What is answered to a chain of requests, one after another. -/
def Answers (α κ : Type) := ℕ → Except Error (Portion α κ)

namespace Answers

section

variable {α κ γ : Type}

/-- The items of the answer at a position. A failure has none. -/
def itemsAt (answers : Answers α κ) (k : ℕ) : List α :=
  match answers k with
  | .ok portion => portion.items
  | .error _ => []

/-- The items of the first answers. -/
def items (answers : Answers α κ) (n : ℕ) : List α := (List.range n).flatMap answers.itemsAt

/-- Where the answer at a position got to. A failure got nowhere. -/
def lastAt (answers : Answers α κ) (k : ℕ) : Option κ :=
  match answers k with
  | .ok portion => portion.last
  | .error _ => none

/-- Where the request at a position of a chain starts. -/
def startAt (answers : Answers α κ) (start : Option κ) : ℕ → Option κ
  | 0 => start
  | k + 1 => answers.lastAt k

/-- The first requests of a chain with the answers to them, each seen as something. -/
def along (answers : Answers α κ) (view : Option κ → Except Error (Portion α κ) → γ)
    (start : Option κ) (n : ℕ) : List γ :=
  (List.range n).map fun k => view (answers.startAt start k) (answers k)

/-- Whether the answer at a position ends a chain: it is a failure, has no place to go on from or
brings enough items. -/
def Ends (answers : Answers α κ) (enough : ℕ → Prop) (k : ℕ) : Prop :=
  match answers k with
  | .ok portion => portion.last = none ∨ enough (answers.items (k + 1)).length
  | .error _ => True

/-- Whether the answer at a position is the first that ends a chain. -/
def EndsFirst (answers : Answers α κ) (enough : ℕ → Prop) (k : ℕ) : Prop :=
  answers.Ends enough k ∧ ∀ j < k, ¬answers.Ends enough j

instance (answers : Answers α κ) (enough : ℕ → Prop) [DecidablePred enough] (k : ℕ) :
    Decidable (answers.Ends enough k) :=
  match h : answers k with
  | .ok portion =>
    decidable_of_iff (portion.last = none ∨ enough (answers.items (k + 1)).length)
      (by rw [Ends, h])
  | .error _ => .isTrue (by rw [Ends, h]; trivial)

instance (answers : Answers α κ) (enough : ℕ → Prop) [DecidablePred enough] (k : ℕ) :
    Decidable (answers.EndsFirst enough k) :=
  inferInstanceAs (Decidable (_ ∧ _))

/-- The answers behind the first. -/
def tail (answers : Answers α κ) : Answers α κ := fun k => answers (k + 1)

end

variable {α κ γ : Type} {answers : Answers α κ} {enough : ℕ → Prop} {k n : ℕ}
variable {portion : Portion α κ} {start : Option κ}

theorem itemsAt_of_ok (h : answers k = .ok portion) : answers.itemsAt k = portion.items := by
  rw [itemsAt, h]

theorem items_succ (answers : Answers α κ) (n : ℕ) :
    answers.items (n + 1) = answers.itemsAt 0 ++ answers.tail.items n := by
  rw [items, List.range_succ_eq_map, List.flatMap_cons, List.flatMap_map]
  rfl

theorem items_one (h : answers 0 = .ok portion) : answers.items 1 = portion.items := by
  rw [items_succ, itemsAt_of_ok h]
  exact List.append_nil _

theorem lastAt_of_ok (h : answers k = .ok portion) : answers.lastAt k = portion.last := by
  rw [lastAt, h]

/-- Behind its first request a chain is one that starts where the answer got to. -/
theorem startAt_succ (h : answers 0 = .ok portion) :
    answers.startAt start (k + 1) = answers.tail.startAt portion.last k := by
  cases k with
  | zero => exact lastAt_of_ok h
  | succ k => rfl

theorem length_along (answers : Answers α κ) (view : Option κ → Except Error (Portion α κ) → γ)
    (start : Option κ) (n : ℕ) : (answers.along view start n).length = n := by
  rw [along, List.length_map, List.length_range]

theorem along_succ (view : Option κ → Except Error (Portion α κ) → γ)
    (h : answers 0 = .ok portion) (n : ℕ) :
    answers.along view start (n + 1) =
      view start (.ok portion) :: answers.tail.along view portion.last n := by
  rw [along, List.range_succ_eq_map, List.map_cons, List.map_map, h]
  refine congrArg _ (List.map_congr_left fun k _ => ?_)
  simp only [Function.comp_apply, Nat.succ_eq_add_one, startAt_succ h]
  rfl

/-! ### The answer that ends a chain -/

theorem ends_iff_of_ok (h : answers k = .ok portion) :
    answers.Ends enough k ↔
      portion.last = none ∨ enough (answers.items (k + 1)).length := by
  rw [Ends, h]

theorem ends_of_error {e : Error} (h : answers k = .error e) : answers.Ends enough k := by
  rw [Ends, h]
  trivial

/-- Where nothing is enough, a chain ends where no answer tells to go on. -/
theorem ends_iff_lastAt : answers.Ends (fun _ => False) k ↔ answers.lastAt k = none := by
  rw [Ends, lastAt]
  split
  · rw [or_false]
  · exact iff_of_true trivial rfl

theorem endsFirst_iff_lastAt :
    answers.EndsFirst (fun _ => False) k ↔
      answers.lastAt k = none ∧ ∀ j < k, answers.lastAt j ≠ none := by
  simp only [EndsFirst, ends_iff_lastAt, ne_eq]

/-- An answer that does not end a chain goes on. -/
theorem exists_of_not_ends (h : ¬answers.Ends enough k) :
    ∃ portion, answers k = .ok portion ∧ portion.last ≠ none ∧
      ¬enough (answers.items (k + 1)).length := by
  rcases ha : answers k with e | portion
  · exact absurd (ends_of_error ha) h
  · rw [ends_iff_of_ok ha, not_or] at h
    exact ⟨portion, rfl, h⟩

/-- Behind the first answer fewer items are enough. -/
theorem ends_succ_iff (h : answers 0 = .ok portion) :
    answers.Ends enough (k + 1) ↔
      answers.tail.Ends (fun n => enough (n + portion.items.length)) k := by
  unfold Ends
  rw [items_succ, itemsAt_of_ok h, List.length_append, Nat.add_comm portion.items.length]
  rfl

theorem endsFirst_succ_iff (h : answers 0 = .ok portion) :
    answers.EndsFirst enough (k + 1) ↔
      ¬answers.Ends enough 0 ∧
        answers.tail.EndsFirst (fun n => enough (n + portion.items.length)) k := by
  unfold EndsFirst
  rw [ends_succ_iff h, Nat.forall_lt_succ_left]
  simp only [ends_succ_iff h]
  tauto

/-- Some answer ends a chain first if any ends it. -/
theorem exists_endsFirst {n : ℕ} (h : ∃ k < n, answers.Ends enough k) :
    ∃ k < n, answers.EndsFirst enough k := by
  classical
  obtain ⟨k, hk, hends⟩ := h
  have hex : ∃ k, answers.Ends enough k := ⟨k, hends⟩
  exact ⟨Nat.find hex, Nat.lt_of_le_of_lt (Nat.find_min' hex hends) hk, Nat.find_spec hex,
    fun _ hj => Nat.find_min hex hj⟩

/-! ### How many requests are made -/

/-- Whether a chain takes this many requests, if so many are allowed: no answer but the last ends
it, and if there are fewer than allowed, the last one does. -/
structure Takes (answers : Answers α κ) (enough : ℕ → Prop) (allowed n : ℕ) : Prop where
  le : n ≤ allowed
  goes : ∀ k, k + 1 < n → ¬answers.Ends enough k
  stops : n < allowed → ∃ k, n = k + 1 ∧ answers.Ends enough k

variable {allowed : ℕ}

/-- Up to the answer that ends it, if so many are allowed. -/
theorem EndsFirst.takes (h : answers.EndsFirst enough k) (hk : k < allowed) :
    answers.Takes enough allowed (k + 1) where
  le := hk
  goes j hj := h.2 j (by omega)
  stops _ := ⟨k, rfl, h.1⟩

/-- As many as are allowed, if none of these ends it. -/
theorem takes_of_not_ends (h : ∀ k < allowed, ¬answers.Ends enough k) :
    answers.Takes enough allowed allowed where
  le := le_rfl
  goes k hk := h k (by omega)
  stops hlt := absurd hlt (lt_irrefl _)

theorem exists_takes (answers : Answers α κ) (enough : ℕ → Prop) (allowed : ℕ) :
    ∃ n, answers.Takes enough allowed n := by
  by_cases h : ∃ k < allowed, answers.Ends enough k
  · obtain ⟨k, hk, hends⟩ := exists_endsFirst h
    exact ⟨k + 1, hends.takes hk⟩
  · simp only [not_exists, not_and] at h
    exact ⟨allowed, takes_of_not_ends h⟩

namespace Takes

/-- As many requests are made as it takes to end the chain, if so many are allowed. -/
theorem eq_min (h : answers.Takes enough allowed n) (hk : answers.EndsFirst enough k) :
    n = min (k + 1) allowed := by
  have hle := h.le
  rcases Nat.lt_or_ge (k + 1) n with hlt | hge
  · exact absurd hk.1 (h.goes k hlt)
  · rcases Nat.lt_or_ge n allowed with hlt | hallowed
    · obtain ⟨j, rfl, hj⟩ := h.stops hlt
      have hjk : ¬j < k := fun hjk => hk.2 j hjk hj
      omega
    · omega

/-- As many requests are made as are allowed, if none ends the chain. -/
theorem eq_allowed (h : answers.Takes enough allowed n) (hgoes : ∀ k, ¬answers.Ends enough k) :
    n = allowed := by
  have hle := h.le
  rcases Nat.lt_or_ge n allowed with hlt | hge
  · obtain ⟨k, -, hk⟩ := h.stops hlt
    exact absurd hk (hgoes k)
  · omega

/-- Nothing is asked for behind an answer that ends the chain. -/
theorem le_of_ends (h : answers.Takes enough allowed n) (hk : answers.Ends enough k) :
    n ≤ k + 1 :=
  Nat.le_of_not_lt fun hlt => h.goes k hlt hk

/-- A chain that goes on behind the first answer takes one request more than are left. -/
theorem tail (h : answers.Takes enough (allowed + 1) (n + 1)) (hb : answers 0 = .ok portion)
    (hgoes : ¬answers.Ends enough 0) :
    answers.tail.Takes (fun n => enough (n + portion.items.length)) allowed n where
  le := Nat.le_of_succ_le_succ h.le
  goes k hk := by
    rw [← ends_succ_iff hb]
    exact h.goes (k + 1) (by omega)
  stops hlt := by
    obtain ⟨k, hk, hends⟩ := h.stops (by omega)
    cases k with
    | zero => exact absurd hends hgoes
    | succ k => exact ⟨k, by omega, (ends_succ_iff hb).1 hends⟩

theorem exists_succ (h : answers.Takes enough (allowed + 1) n) : ∃ m, n = m + 1 := by
  rcases n with _ | n
  · obtain ⟨k, hk, -⟩ := h.stops (by omega)
    omega
  · exact ⟨n, rfl⟩

/-- If the first answer ends the chain, it is the only one. -/
theorem eq_one (h : answers.Takes enough (allowed + 1) n) (hends : answers.Ends enough 0) :
    n = 1 := by
  obtain ⟨m, rfl⟩ := h.exists_succ
  have hle := h.le_of_ends hends
  omega

end Takes

end Answers

namespace Action

variable {σ α κ γ : Type} {ask : Option κ → Action σ (Portion α κ)} {enough : ℕ → Prop}
variable {start : Option κ} {items : List α} {portion : Portion α κ} {e : Error}
variable {roundTrips trips k n : ℕ} {s t : σ}

/-! ### Requests, one after another -/

/-- The request at a position of a chain that begins at a place. Behind a failure, where a chain is
over, the next request is one from the beginning. -/
def follow (ask : Option κ → Action σ (Portion α κ)) : ℕ → Option κ → Action σ (Portion α κ)
  | 0, start => ask start
  | k + 1, start => fun s =>
    match ask start s with
    | (.ok portion, t) => follow ask k portion.last t
    | (.error _, t) => follow ask k none t

/-- The answers to a chain of requests that begins at a place. -/
def answers (ask : Option κ → Action σ (Portion α κ)) (start : Option κ) (s : σ) : Answers α κ :=
  fun k => (follow ask k start s).1

theorem follow_succ (h : ask start s = (.ok portion, t)) :
    follow ask (k + 1) start s = follow ask k portion.last t := by
  simp only [follow, h]

theorem answers_zero {answer : Except Error (Portion α κ)} (h : ask start s = (answer, t)) :
    answers ask start s 0 = answer := by
  rw [answers, follow, h]

theorem tail_answers (h : ask start s = (.ok portion, t)) :
    (answers ask start s).tail = answers ask portion.last t :=
  funext fun k => by rw [Answers.tail, answers, follow_succ h, answers]

theorem answers_succ (h : ask start s = (.ok portion, t)) :
    answers ask start s (k + 1) = answers ask portion.last t k :=
  congrFun (tail_answers h) k

theorem items_answers_succ (h : ask start s = (.ok portion, t)) :
    (answers ask start s).items (k + 1) =
      portion.items ++ (answers ask portion.last t).items k := by
  rw [Answers.items_succ, Answers.itemsAt_of_ok (answers_zero h), tail_answers h]

/-- A request whose answer does not end a chain succeeds. -/
theorem exists_ok_of_not_ends (h : ¬(answers ask start s).Ends enough 0) :
    ∃ portion t, ask start s = (.ok portion, t) := by
  obtain ⟨portion, hportion, -⟩ := Answers.exists_of_not_ends h
  exact ⟨portion, _, Prod.ext hportion rfl⟩

/-- An answer ends a chain for which some items are there already if there is no place to go on from
or they are enough together. -/
theorem ends_zero_iff (h : ask start s = (.ok portion, t)) :
    (answers ask start s).Ends (fun n => enough (n + items.length)) 0 ↔
      portion.last = none ∨ enough (items ++ portion.items).length := by
  rw [Answers.ends_iff_of_ok (answers_zero h), Answers.items_one (answers_zero h),
    List.length_append, Nat.add_comm]

/-! ### Gathering -/

/-- What is enough behind some items and more of them is what is enough behind all of these. -/
theorem enough_add (enough : ℕ → Prop) (items more : List α) :
    (fun n => enough (n + more.length + items.length)) =
      fun n => enough (n + (items ++ more).length) :=
  funext fun n => by rw [List.length_append, Nat.add_assoc, Nat.add_comm more.length]

section

variable [DecidablePred enough]

theorem gather_of_error (h : ask start s = (.error e, t)) :
    gather ask enough roundTrips (trips + 1) items start s = (.error e, t) := by
  rw [gather, bind_apply, h]

/-- After a portion the chain ends if there is no more or enough is there. -/
theorem gather_of_ok (h : ask start s = (.ok portion, t)) :
    gather ask enough roundTrips (trips + 1) items start s =
      if portion.last = none ∨ enough (items ++ portion.items).length then
        (.ok (items ++ portion.items, portion.last), t)
      else gather ask enough roundTrips trips (items ++ portion.items) portion.last t := by
  rw [gather, bind_of_ok h]
  by_cases hends : portion.last = none ∨ enough (items ++ portion.items).length
  · simp only [if_pos hends]
    rfl
  · simp only [if_neg hends]

theorem keeps_gather {view : σ → γ} (h : ∀ start, (ask start).Keeps view)
    (roundTrips trips : ℕ) (items : List α) (start : Option κ) :
    (gather ask enough roundTrips trips items start).Keeps view := by
  induction trips generalizing items start with
  | zero => exact keeps_fail _
  | succ trips ih =>
    refine keeps_bind (h start) fun portion => ?_
    simp only
    split
    · exact keeps_pure _
    · exact ih _ _

/-- If what each request leads to, in `J`, is where the next one may start, in `I`, a chain fails for
too many requests, fails with a request that started there, or gets to where one leads. -/
theorem gather_cases {I J : List α → Option κ → σ → Prop}
    (hstep : ∀ items start s portion t, I items start s → ask start s = (.ok portion, t) →
      J (items ++ portion.items) portion.last t)
    (hnext : ∀ items next t, J items (some next) t → I items (some next) t)
    {result : Except Error (List α × Option κ)} (hinit : I items start s)
    (h : gather ask enough roundTrips trips items start s = (result, t)) :
    (∃ n, result = .error (.roundTripLimit roundTrips n)) ∨
      (∃ items start s e, I items start s ∧ ask start s = (.error e, t) ∧ result = .error e) ∨
      ∃ items last, result = .ok (items, last) ∧ J items last t ∧
        (last = none ∨ enough items.length) := by
  induction trips generalizing items start s with
  | zero =>
    cases h
    exact .inl ⟨_, rfl⟩
  | succ trips ih =>
    rcases hask : ask start s with ⟨e | portion, u⟩
    · rw [gather_of_error hask] at h
      cases h
      exact .inr (.inl ⟨_, _, _, _, hinit, hask, rfl⟩)
    · have hportion := hstep _ _ _ _ _ hinit hask
      rw [gather_of_ok hask] at h
      split at h
      · next hends =>
        cases h
        exact .inr (.inr ⟨_, _, rfl, hportion, hends⟩)
      · next hgoes =>
        -- only a place to go on from is one where the next request may start
        obtain ⟨next, hlast⟩ := Option.ne_none_iff_exists'.1 (not_or.1 hgoes).1
        rw [hlast] at h hportion
        exact ih (hnext _ _ _ hportion) h

/-- As long as no answer ends the chain, it goes on, until no more requests are allowed. -/
theorem gather_of_not_ends
    (h : ∀ k < trips, ¬(answers ask start s).Ends (fun n => enough (n + items.length)) k) :
    (gather ask enough roundTrips trips items start s).1 =
      .error (.roundTripLimit roundTrips
        (items ++ (answers ask start s).items trips).length) := by
  induction trips generalizing items start s with
  | zero =>
    rw [Answers.items, List.range_zero, List.flatMap_nil, List.append_nil]
    rfl
  | succ trips ih =>
    have hgoes := h 0 (by omega)
    obtain ⟨portion, t, hask⟩ := exists_ok_of_not_ends hgoes
    rw [ends_zero_iff hask] at hgoes
    rw [gather_of_ok hask, if_neg hgoes, items_answers_succ hask, ← List.append_assoc]
    refine ih fun k hk => ?_
    -- what the first portion brings is at hand from now on, so fewer items are enough of the others
    have hrest := h (k + 1) (by omega)
    rwa [Answers.ends_succ_iff (answers_zero hask), tail_answers hask, enough_add] at hrest

/-- With the first answer that ends the chain it comes to what the answer says, and the state is the
one after it. -/
theorem gather_of_endsFirst (hk : k < trips)
    (h : (answers ask start s).EndsFirst (fun n => enough (n + items.length)) k) :
    gather ask enough roundTrips trips items start s =
      ((answers ask start s k).map fun portion =>
        (items ++ (answers ask start s).items (k + 1), portion.last),
        (follow ask k start s).2) := by
  induction trips generalizing items start s k with
  | zero => omega
  | succ trips ih =>
    cases k with
    | zero =>
      rcases hask : ask start s with ⟨e | portion, t⟩
      · rw [gather_of_error hask, answers_zero hask, follow, hask]
        rfl
      · have hzero := answers_zero hask
        rw [gather_of_ok hask, if_pos ((ends_zero_iff hask).1 h.1), Answers.items_one hzero, hzero,
          follow, hask]
        rfl
    | succ k =>
      obtain ⟨portion, t, hask⟩ := exists_ok_of_not_ends (h.2 0 (by omega))
      obtain ⟨hgoes, hrest⟩ := (Answers.endsFirst_succ_iff (answers_zero hask)).1 h
      rw [ends_zero_iff hask] at hgoes
      rw [tail_answers hask, enough_add] at hrest
      rw [gather_of_ok hask, if_neg hgoes, ih (by omega) hrest, follow_succ hask,
        answers_succ hask, items_answers_succ hask, List.append_assoc]

/-- A chain of requests comes to the same when each is logged with its answer, and the log has the
requests that the answers tell. -/
theorem gather_logged {logged : Option κ → Action (σ × List γ) (Portion α κ)}
    {view : Option κ → Except Error (Portion α κ) → γ}
    (hlogged : ∀ start s log answer t, ask start s = (answer, t) →
      logged start (s, log) = (answer, t, log ++ [view start answer])) (log : List γ)
    (h : (answers ask start s).Takes (fun n => enough (n + items.length)) trips n) :
    gather logged enough roundTrips trips items start (s, log) =
      ((gather ask enough roundTrips trips items start s).1,
        (gather ask enough roundTrips trips items start s).2,
        log ++ (answers ask start s).along view start n) := by
  induction trips generalizing n items start s log with
  | zero =>
    obtain rfl : n = 0 := Nat.le_zero.1 h.le
    rw [Answers.along, List.range_zero, List.map_nil, List.append_nil]
    rfl
  | succ trips ih =>
    rcases hask : ask start s with ⟨e | portion, t⟩
    · have hanswer := answers_zero hask
      obtain rfl := h.eq_one (Answers.ends_of_error hanswer)
      rw [gather_of_error hask, gather_of_error (hlogged _ _ log _ _ hask), ← hanswer]
      rfl
    · have hanswer := answers_zero hask
      rw [gather_of_ok hask, gather_of_ok (hlogged _ _ log _ _ hask)]
      by_cases hends : portion.last = none ∨ enough (items ++ portion.items).length
      · obtain rfl := h.eq_one ((ends_zero_iff hask).2 hends)
        rw [if_pos hends, if_pos hends, ← hanswer]
        rfl
      · obtain ⟨m, rfl⟩ := h.exists_succ
        have htail := h.tail hanswer (mt (ends_zero_iff hask).1 hends)
        rw [tail_answers hask, enough_add] at htail
        rw [if_neg hends, if_neg hends, ih _ htail, Answers.along_succ view hanswer,
          tail_answers hask, List.append_assoc, List.singleton_append]

end

/-! ### What chains log -/

section

variable {P : γ → Prop} {ask : Option κ → Action (σ × List γ) (Portion α κ)} [DecidablePred enough]

theorem makes_gather (h : ∀ start s, (ask start).Makes P s) (roundTrips trips : ℕ) (items : List α)
    (start : Option κ) (s : σ × List γ) :
    (gather ask enough roundTrips trips items start).Makes P s := by
  induction trips generalizing items start s with
  | zero => exact makes_fail _
  | succ trips ih =>
    refine makes_bind (h start s) fun portion t _ => ?_
    simp only
    split
    · exact makes_pure _
    · exact ih _ _ _

/-- If any request is allowed, the first is the one from the start. -/
theorem mem_log_gather (h : ∀ start s, (ask start).Makes P s) {entry : γ} {s : σ × List γ}
    (hfirst : entry ∈ (ask start s).2.2) :
    entry ∈ (gather ask enough roundTrips (trips + 1) items start s).2.2 := by
  refine mem_log_bind (P := P) hfirst fun portion t => ?_
  simp only
  split
  · exact makes_pure _
  · exact makes_gather h _ _ _ _ _

end

end Action

end Tablescope
