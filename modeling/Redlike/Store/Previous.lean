import Redlike.Store.Sweep

/-!
# The previous value that SET returns

`get`, `del`, `expire` and `ttl` look at the deadline of the entry they find and take an
expired one as absent. `set` takes what the insertion gives back: between the deadline
of a key and the sweep that removes it, its answer is a value that no other operation
still sees, and the sweep changes it.
-/
namespace Redlike.Store

open Resp

/-- The map holds no expired entry of `key`: there is none, or it is still alive. -/
def NoneExpired (now : Instant) (key : Key) (s : Store) : Prop :=
  ∀ v, s.hashmap.lookup key = some v → isExpired v now = false

/-- The value that `set` returns is the one `get` returns, and a sweep does not change it. -/
structure PreviousAsRead (now : Instant) (key : Key) (value : Bytes) (s : Store) : Prop where
  get : (s.set key value).1 = s.get now key
  sweep : ((s.sweepExpiredOnce now).set key value).1 = (s.set key value).1

theorem get_of_lookup {now : Instant} {key : Key} {s : Store} {v : StoreValue}
    (h : s.hashmap.lookup key = some v) :
    s.get now key = if isExpired v now then none else some v.value := by
  rw [get, h]

theorem set_previous {key : Key} {value : Bytes} {s : Store} {v : StoreValue}
    (h : s.hashmap.lookup key = some v) : (s.set key value).1 = some v.value := by
  rw [set, h]
  rfl

/-- The other operations at an expired entry. -/
theorem expired_absent {now : Instant} {key : Key} {s : Store} {v : StoreValue}
    (h : s.hashmap.lookup key = some v) (hv : isExpired v now = true) (ttl : UInt64) :
    s.get now key = none ∧ (s.del now key).1 = none ∧ (s.expire now key ttl).1 = some 0 ∧
      s.ttl now key = -2 := by
  have hread : (contents s).read now.val key = none := by
    rw [contents, read_of_stored h, if_pos hv]
  refine ⟨?_, ?_, ?_, ?_⟩
  · rw [get_eq, hread]; rfl
  · rw [del_eq, hread]; rfl
  · rw [expire, h]
    dsimp only
    rw [if_pos hv]
  · rw [Store.ttl, h]
    dsimp only
    rw [if_pos hv]

theorem previous_eq_get_iff (now : Instant) (key : Key) (value : Bytes) (s : Store) :
    (s.set key value).1 = s.get now key ↔ NoneExpired now key s := by
  unfold NoneExpired
  cases hl : s.hashmap.lookup key with
  | none => simp [set, get, hl]
  | some v =>
    rw [set_previous hl, get_of_lookup hl]
    cases hv : isExpired v now with
    | false => simp [hv]
    | true => simp [hv]

/-- A live entry of a key, or none, is what a sweep finds and what it leaves. -/
theorem NoneExpired.lookup_sweep {now : Instant} {key : Key} {s : Store}
    (h : NoneExpired now key s) :
    (s.sweepExpiredOnce now).hashmap.lookup key = s.hashmap.lookup key := by
  have hpop : (s.sweepPop now).2.hashmap = s.hashmap := rfl
  apply Option.ext
  intro v
  rw [sweepExpiredOnce, lookup_sweepRemove, hpop]
  exact ⟨fun hl => hl.1, fun hl => ⟨hl, fun _ => h v hl⟩⟩

theorem NoneExpired.sweep_previous {now : Instant} {key : Key} {s : Store}
    (h : NoneExpired now key s) (value : Bytes) :
    ((s.sweepExpiredOnce now).set key value).1 = (s.set key value).1 := by
  rw [set, set, h.lookup_sweep]

/-- Where the heap knows the deadlines, a sweep takes an expired entry out of the map. -/
theorem HeapCovers.lookup_sweep_expired {s : Store} (hs : HeapCovers s) {now : Instant} {key : Key}
    {v : StoreValue} (hl : s.hashmap.lookup key = some v) (hv : isExpired v now = true) :
    (s.sweepExpiredOnce now).hashmap.lookup key = none := by
  cases hl' : (s.sweepExpiredOnce now).hashmap.lookup key with
  | none => rfl
  | some v' =>
    -- what is left after the sweep was there before it and is alive
    obtain ⟨hbefore, halive⟩ := ((hs.swept now).map key v').mp hl'
    rw [hl] at hbefore
    cases hbefore
    rw [isExpired_eq_false.mpr halive] at hv
    cases hv

theorem HeapCovers.sweep_previous_iff {s : Store} (hs : HeapCovers s) (now : Instant) (key : Key)
    (value : Bytes) :
    ((s.sweepExpiredOnce now).set key value).1 = (s.set key value).1 ↔ NoneExpired now key s := by
  refine ⟨?_, fun h => h.sweep_previous value⟩
  intro heq v hl
  cases hv : isExpired v now with
  | false => rfl
  | true =>
    rw [set_previous hl, set, hs.lookup_sweep_expired hl hv] at heq
    cases heq

theorem previousAsRead_iff (now : Instant) (key : Key) (value : Bytes) (s : Store) :
    PreviousAsRead now key value s ↔ NoneExpired now key s := by
  refine ⟨fun h => (previous_eq_get_iff now key value s).mp h.get, ?_⟩
  intro h
  exact ⟨(previous_eq_get_iff now key value s).mpr h, h.sweep_previous value⟩

section Runs

variable {ι : Type} [DecidableEq ι]

/-- In every reachable state and at every reading of the clock, `set` answers as `get`,
and as it would after a sweep, exactly when no expired entry of its key waits in the map
for the sweeper. Outside a sweep each half alone fails with the condition. -/
theorem set_answers_previous_iff {G : State ι → Act ι → Prop} {t : Instant} {s : Store} {x : State ι}
    (hs : Started s) (hr : Run G (.start t s) x) (now : Instant) (key : Key) (value : Bytes) :
    (PreviousAsRead now key value x.store ↔ NoneExpired now key x.store) ∧
    ((x.store.set key value).1 = x.store.get now key ↔ NoneExpired now key x.store) ∧
    (x.sweeper.candidates = none →
      (((x.store.sweepExpiredOnce now).set key value).1 = (x.store.set key value).1 ↔
        NoneExpired now key x.store)) := by
  refine ⟨previousAsRead_iff now key value x.store, previous_eq_get_iff now key value x.store, ?_⟩
  intro hw
  exact ((covered_run hs hr).heapCovers hw).sweep_previous_iff now key value

/-- SET, EXPIRE of a second, and the clock two seconds on with no sweep yet. -/
theorem run_expired_unswept :
    ∃ x : State (Fin 2), Run (fun _ _ => True) (.start ⟨0, by decide⟩ .new) x ∧
      x.clock = ⟨2000000000, by decide⟩ ∧ x.sweeper.candidates = none ∧
      x.store.hashmap.lookup [1] = some ⟨[7], some ⟨1000000000, by decide⟩⟩ := by
  have h : Run (fun _ _ => True) (.start ⟨0, by decide⟩ .new) (.start ⟨0, by decide⟩ .new) :=
    .nil (ι := Fin 2) _
  have h := h.snoc trivial (.call (.invoke (i := 0) (.set [1] [7]) rfl))
  have h := h.snoc trivial (.call (.lock (i := 0) rfl (.inr ⟨_, _, rfl⟩) ⟨rfl, by decide⟩))
  have h := h.snoc trivial (.call (.set (i := 0) rfl))
  have h := h.snoc trivial (.call (.invoke (i := 1) (.expire [1] 1) rfl))
  have h := h.snoc trivial (.call (.expireHeap (i := 1) rfl ⟨rfl, by decide⟩))
  have h := h.snoc trivial (.call (.expireLock (i := 1) rfl ⟨rfl, by decide⟩))
  have h := h.snoc trivial (.call (.clock (i := 1) rfl (.inr ⟨_, _, rfl⟩)))
  have h := h.snoc trivial (.call (.finish (i := 1) (r := .flag 1) rfl rfl))
  have h := h.snoc trivial (.tick ⟨2000000000, by decide⟩ (by decide))
  exact ⟨_, h, rfl, rfl, rfl⟩

/-- The failing state satisfies what the theorem asks for, and there the answer of `set`
is neither the one of `get` nor the one after a sweep. -/
theorem set_answers_previous_iff_unswept :
    ∃ x : State (Fin 2), Run (fun _ _ => True) (.start ⟨0, by decide⟩ .new) x ∧
      ¬ PreviousAsRead x.clock [1] [8] x.store ∧
      PreviousAsRead ⟨0, by decide⟩ [1] [8] x.store := by
  obtain ⟨x, hr, hclock, -, hl⟩ := run_expired_unswept
  refine ⟨x, hr, ?_, ?_⟩
  · rw [(set_answers_previous_iff (.inl rfl) hr x.clock [1] [8]).1, hclock]
    intro h
    exact absurd (h _ hl) (by decide)
  · rw [(set_answers_previous_iff (.inl rfl) hr ⟨0, by decide⟩ [1] [8]).1]
    intro v hv
    rw [hl] at hv
    cases hv
    decide

/-- `set` hands out the expired value that the other operations no longer see; had the
sweeper come first, it would have found no value. -/
theorem set_answers_expired_value :
    ∃ x : State (Fin 2), Run (fun _ _ => True) (.start ⟨0, by decide⟩ .new) x ∧
      (x.store.set [1] [8]).1 = some [7] ∧
      (x.store.get x.clock [1] = none ∧ (x.store.del x.clock [1]).1 = none ∧
        (x.store.expire x.clock [1] 1).1 = some 0 ∧ x.store.ttl x.clock [1] = -2) ∧
      ((x.store.sweepExpiredOnce x.clock).set [1] [8]).1 = none := by
  obtain ⟨x, hr, hclock, hw, hl⟩ := run_expired_unswept
  have hexpired : isExpired ⟨[7], some ⟨1000000000, by decide⟩⟩ x.clock = true := by
    rw [hclock]
    decide
  refine ⟨x, hr, set_previous hl, expired_absent hl hexpired 1, ?_⟩
  have hs : HeapCovers x.store := (covered_run (.inl rfl) hr).heapCovers hw
  rw [set, hs.lookup_sweep_expired hl hexpired]
  rfl

end Runs
end Redlike.Store
