import Redlike.Store.Concurrent

/-!
# Locks and clock readings

What the locks guarantee in every reachable state: whoever writes the map is alone
with it, and no sweep has a clock reading from the future.
-/
namespace Redlike.Store

variable {ι : Type}

/-- Writers of the map are alone with it. -/
structure Exclusive (phase : ι → Phase) (sweeper : Sweeper) : Prop where
  writer : ∀ i j, (phase i).writesMap = true → (phase j).holdsMap = true → i = j
  sweeper : sweeper.holdsMap = true → ∀ j, (phase j).holdsMap = false

theorem writesMap_holdsMap {p : Phase} (h : p.writesMap = true) : p.holdsMap = true := by
  cases p <;> first | rfl | cases h

/-- The sweeper lets go of the map, or takes it while it is free. -/
theorem Exclusive.sweep {phase : ι → Phase} {w w' : Sweeper} (he : Exclusive phase w)
    (h : w'.holdsMap = true → ∀ j, (phase j).holdsMap = false) : Exclusive phase w' :=
  ⟨he.writer, h⟩

variable [DecidableEq ι]

section Exclusive

variable {phase : ι → Phase} {sweeper : Sweeper} {i : ι} {p : Phase}

/-- A call that moves without taking the map lock leaves the others alone with it. -/
theorem Exclusive.keep (he : Exclusive phase sweeper)
    (hh : p.holdsMap = true → (phase i).holdsMap = true)
    (hw : p.writesMap = true → (phase i).writesMap = true) :
    Exclusive (Function.update phase i p) sweeper where
  writer j k hj hk := by
    apply he.writer j k
    · by_cases hji : j = i
      · subst hji
        exact hw (by simpa using hj)
      · simpa [hji] using hj
    · by_cases hki : k = i
      · subst hki
        exact hh (by simpa using hk)
      · simpa [hki] using hk
  sweeper hs k := by
    by_cases hki : k = i
    · subst hki
      rw [Function.update_self]
      by_contra hn
      have hk := hh (by simpa using hn)
      rw [he.sweeper hs k] at hk
      cases hk
    · rw [Function.update_of_ne hki]
      exact he.sweeper hs k

/-- A call without the lock keeps nobody from it. -/
theorem Exclusive.release (he : Exclusive phase sweeper) (hh : p.holdsMap = false) :
    Exclusive (Function.update phase i p) sweeper := by
  have hw : p.writesMap ≠ true := fun h => by rw [writesMap_holdsMap h] at hh; cases hh
  exact he.keep (fun h => by rw [hh] at h; cases h) (fun h => absurd h hw)

/-- Taking the map lock requires that nobody is in the way. -/
theorem exclusive_acquire {c : Call}
    (hf : sweeper.holdsMap = false ∧
      ∀ j, (if c.isRead then (phase j).writesMap else (phase j).holdsMap) = false)
    (hw : p.writesMap = !c.isRead) : Exclusive (Function.update phase i p) sweeper where
  writer j k hj hk := by
    -- a reader lets no writer in, and a writer nobody
    have hread (m : ι) : (phase m).writesMap = false := by
      have hm := hf.2 m
      cases hc : c.isRead with
      | true => rwa [hc, if_pos rfl] at hm
      | false =>
        rw [hc, if_neg (by simp)] at hm
        by_contra hn
        rw [writesMap_holdsMap (by simpa using hn)] at hm
        cases hm
    by_cases hji : j = i
    · by_cases hki : k = i
      · rw [hji, hki]
      · subst hji
        rw [Function.update_self, hw, Bool.not_eq_true'] at hj
        rw [Function.update_of_ne hki] at hk
        have hm := hf.2 k
        rw [hj, if_neg (by simp), hk] at hm
        cases hm
    · rw [Function.update_of_ne hji, hread j] at hj
      cases hj
  sweeper hs := by rw [hf.1] at hs; cases hs

end Exclusive

/-- The guarantees, in one state. -/
structure Guarded (x : State ι) : Prop where
  exclusive : Exclusive x.phase x.sweeper
  swept : ∀ now, x.sweeper.reading = some now → now ≤ x.clock

omit [DecidableEq ι] in
theorem guarded_start (t : Instant) (s : Store) : Guarded (.start t s : State ι) where
  exclusive := ⟨by simp [State.start, Phase.writesMap], by simp [State.start, Sweeper.holdsMap]⟩
  swept := by simp [State.start, Sweeper.reading]

section Guarded

variable {x y : State ι}

omit [DecidableEq ι] in
theorem Guarded.sweepStep (hx : Guarded x) {a : Act ι} (hs : SweepStep x a y) : Guarded y := by
  -- a sweeper without the map lock and without a reading is harmless
  have quiet (s : Store) (w : Sweeper) (hm : w.holdsMap = false) (hr : w.reading = none) :
      Guarded { x with store := s, sweeper := w } :=
    ⟨hx.exclusive.sweep (by rw [hm]; nofun), by rw [hr]; nofun⟩
  cases hs with
  | lockHeap hs hf => exact quiet _ _ rfl rfl
  | remove hs => exact quiet _ _ rfl rfl
  | peek hs hf => exact quiet _ _ rfl rfl
  | permit hs hn => exact quiet _ _ rfl rfl
  | park hs hn ht => exact quiet _ _ rfl rfl
  | panic hs ht => exact quiet _ _ rfl rfl
  | wake hs hn => exact quiet _ _ rfl rfl
  | timeout hs ht => exact quiet _ _ rfl rfl
  | alarm hs ht => exact quiet _ _ rfl rfl
  | clock hs =>
    refine ⟨hx.exclusive.sweep nofun, ?_⟩
    intro now hn
    exact (Option.some.inj hn).ge
  | pop hs =>
    refine ⟨hx.exclusive.sweep nofun, ?_⟩
    intro now hn
    exact hx.swept now (by rw [hs]; exact hn)
  | lockMap hs hf =>
    refine ⟨hx.exclusive.sweep fun _ => hf.2, ?_⟩
    intro now hn
    exact hx.swept now (by rw [hs]; exact hn)

theorem Guarded.callStep (hx : Guarded x) {a : Act ι} (hs : CallStep x a y) : Guarded y := by
  cases hs with
  | invoke c hp => exact ⟨hx.exclusive.release rfl, hx.swept⟩
  | delClock hp => exact ⟨hx.exclusive.release rfl, hx.swept⟩
  | delLock hp hf => exact ⟨exclusive_acquire hf rfl, hx.swept⟩
  | expireHeap hp hf => exact ⟨hx.exclusive.release rfl, hx.swept⟩
  | expireLock hp hf => exact ⟨exclusive_acquire hf rfl, hx.swept⟩
  | lock hp hc hf => exact ⟨exclusive_acquire hf rfl, hx.swept⟩
  | clock hp hc =>
    exact ⟨hx.exclusive.keep (fun _ => by rw [hp]; rfl) (fun h => by rw [hp]; exact h), hx.swept⟩
  | set hp => exact ⟨hx.exclusive.release rfl, hx.swept⟩
  | finish hp hr => exact ⟨hx.exclusive.release rfl, hx.swept⟩
  | panic hp hr => exact ⟨hx.exclusive.release rfl, hx.swept⟩
  | respond hp => exact ⟨hx.exclusive.release rfl, hx.swept⟩
  | drop hp => exact ⟨hx.exclusive.release rfl, hx.swept⟩

theorem Guarded.step (hx : Guarded x) {a : Act ι} (hs : Step x a y) : Guarded y := by
  cases hs with
  | tick t ht => exact ⟨hx.exclusive, fun now hn => le_trans (hx.swept now hn) ht⟩
  | call hs => exact hx.callStep hs
  | sweep hs => exact hx.sweepStep hs

end Guarded

end Redlike.Store
