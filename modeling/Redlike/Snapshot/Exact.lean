import Redlike.Snapshot.Model

/-!
# Restoring an arbitrary snapshot

An archive may have been edited by hand: keys may repeat and a time may be any
number. With the clocks read once, `from_snapshot` refuses a repeated key before it
looks at any time, refuses a time it cannot express before it builds anything, and
otherwise restores the pending entries and nothing else, with one heap entry for each
deadline.
-/
namespace Redlike.Store

/-- An entry that is still pending at `now` and whose time cannot be made an instant. -/
def Overflows (now : SystemTime) (storeNow : Instant) (v : SnapshotValue) : Prop :=
  ∃ t, v.expirationTimeUnix = some t ∧ asMillis now.val < t ∧
    (2^64 ≤ t - asMillis now.val ∨
      instantLimit ≤ storeNow.val + (t - asMillis now.val) * nanosPerMilli)

/-- The entry of a restored map for an entry of a snapshot: the same value, and the time
that remains added to the clock of the process. -/
def RestoredAs (now : SystemTime) (storeNow : Instant) (sv : SnapshotValue) (v : StoreValue) : Prop :=
  v.value = sv.value ∧
    ((sv.expirationTimeUnix = none ∧ v.expirationTime = none) ∨
      ∃ t d, sv.expirationTimeUnix = some t ∧ asMillis now.val < t ∧ v.expirationTime = some d ∧
        d.val = storeNow.val + (t - asMillis now.val) * nanosPerMilli)

section

variable {now : SystemTime} {storeNow : Instant} {snapshot : Snapshot}

theorem overflows_iff {v : SnapshotValue} :
    Overflows now storeNow v ↔ isPending (asMillis now.val) v = true ∧
      ¬ ∃ w, StoreValue.tryFrom ⟨now, storeNow⟩ v = .ok w := by
  rw [tryFrom_ok_iff]
  unfold Overflows isPending
  cases v.expirationTimeUnix with
  | none => simp
  | some t =>
    simp only [Option.some.injEq, exists_eq_left', forall_eq', decide_eq_true_eq]
    omega

/-- A pending entry that can be converted is restored. -/
theorem restoredAs_iff {sv : SnapshotValue} {v : StoreValue} (ho : ¬ Overflows now storeNow sv) :
    (isPending (asMillis now.val) sv = true ∧ StoreValue.tryFrom ⟨now, storeNow⟩ sv = .ok v) ↔
      RestoredAs now storeNow sv v := by
  have hpend (t : Nat) (ht : sv.expirationTimeUnix = some t) :
      isPending (asMillis now.val) sv = true ↔ asMillis now.val < t := by
    simp [isPending, ht]
  constructor
  · rintro ⟨hp, hv⟩
    rcases tryFrom_ok hv with ⟨hvalue, hnone | ⟨t, d, ht, hd, hval⟩⟩
    · exact ⟨hvalue, .inl hnone⟩
    · exact ⟨hvalue, .inr ⟨t, d, ht, (hpend t ht).mp hp, hd, hval⟩⟩
  · rintro ⟨hvalue, h⟩
    have hp : isPending (asMillis now.val) sv = true := by
      rcases h with ⟨ht, -⟩ | ⟨t, d, ht, hlt, -⟩
      · simp [isPending, ht]
      · exact (hpend t ht).mpr hlt
    refine ⟨hp, ?_⟩
    obtain ⟨w, hw⟩ : ∃ w, StoreValue.tryFrom ⟨now, storeNow⟩ sv = .ok w := by
      by_contra hn
      exact ho (overflows_iff.mpr ⟨hp, hn⟩)
    -- the conversion is a function, so the value it yields is this one
    obtain ⟨hwvalue, hwtime⟩ := tryFrom_ok hw
    have htime : w.expirationTime = v.expirationTime := by
      rcases h with ⟨ht, hv⟩ | ⟨t, d, ht, -, hd, hval⟩
      · rcases hwtime with ⟨-, hw'⟩ | ⟨t', d', ht', -⟩
        · rw [hw', hv]
        · rw [ht] at ht'
          cases ht'
      · rcases hwtime with ⟨ht', -⟩ | ⟨t', d', ht', hd', hval'⟩
        · rw [ht] at ht'
          cases ht'
        · obtain rfl : t = t' := Option.some.inj (ht.symm.trans ht')
          rw [hd, hd', Fin.ext (hval'.trans hval.symm)]
    have hwv : w = v := by
      cases w
      cases v
      simp_all
    rw [hw, hwv]

end

theorem collectHeap_nodup (map : HashMap) : (collectHeap map).entries.Nodup := by
  rw [(collectHeap_perm map).nodup_iff]
  have hkeys : map.entries.Pairwise fun a b => a.1 ≠ b.1 := List.pairwise_map.mp map.nodupKeys
  refine List.Pairwise.filterMap _ ?_ hkeys
  intro a b hab e he e' he' heq
  obtain ⟨d, -, rfl⟩ := Option.map_eq_some_iff.mp he
  obtain ⟨d', -, rfl⟩ := Option.map_eq_some_iff.mp he'
  exact hab (Prod.mk.inj heq).2

/-- The heap of a restored store has each deadline of the map once. -/
theorem count_collectHeap (map : HashMap) (d : Instant) (k : Key) :
    (collectHeap map).entries.count (d, k) =
      if (map.lookup k).bind (·.expirationTime) = some d then 1 else 0 := by
  have hmem : (d, k) ∈ (collectHeap map).entries ↔
      (map.lookup k).bind (·.expirationTime) = some d := by
    rw [mem_collectHeap, Option.bind_eq_some_iff]
  split
  · rename_i h
    exact List.count_eq_one_of_mem (collectHeap_nodup map) (hmem.mpr h)
  · rename_i h
    exact List.count_eq_zero_of_not_mem (mt hmem.mp h)

/-- A restore of any snapshot: which error comes first, and otherwise exactly which store. -/
theorem restore_exact (now : SystemTime) (storeNow : Instant) (snapshot : Snapshot) :
    (fromSnapshot now (fun _ => ⟨now, storeNow⟩) snapshot = .error .duplicateKey ↔
      ¬ (snapshot.entries.map (·.key)).Nodup) ∧
    (fromSnapshot now (fun _ => ⟨now, storeNow⟩) snapshot = .error .durationOverflow ↔
      (snapshot.entries.map (·.key)).Nodup ∧
        ∃ e ∈ snapshot.entries, Overflows now storeNow e.value) ∧
    ((∃ s, fromSnapshot now (fun _ => ⟨now, storeNow⟩) snapshot = .ok s) ↔
      (snapshot.entries.map (·.key)).Nodup ∧
        ∀ e ∈ snapshot.entries, ¬ Overflows now storeNow e.value) ∧
    ∀ s, fromSnapshot now (fun _ => ⟨now, storeNow⟩) snapshot = .ok s →
      (∀ k v, s.hashmap.lookup k = some v ↔
        ∃ sv, ⟨k, sv⟩ ∈ snapshot.entries ∧ RestoredAs now storeNow sv v) ∧
      ∀ d k, s.expirationHeap.entries.count (d, k) =
        if (s.hashmap.lookup k).bind (·.expirationTime) = some d then 1 else 0 := by
  have hdup : fromSnapshot now (fun _ => ⟨now, storeNow⟩) snapshot = .error .duplicateKey ↔
      ¬ (snapshot.entries.map (·.key)).Nodup := by
    constructor
    · intro h hnd
      exact fromSnapshot_ne_duplicateKey hnd h
    · intro hnd
      have h : hasDuplicate snapshot.entries [] = true := by
        by_contra hn
        exact hnd (hasDuplicate_eq_false.mp (by simpa using hn)).1
      rw [fromSnapshot, h]
      rfl
  have hok : (∃ s, fromSnapshot now (fun _ => ⟨now, storeNow⟩) snapshot = .ok s) ↔
      (snapshot.entries.map (·.key)).Nodup ∧
        ∀ e ∈ snapshot.entries, ¬ Overflows now storeNow e.value := by
    by_cases hnd : (snapshot.entries.map (·.key)).Nodup
    · rw [fromSnapshot_ok_iff hnd, and_iff_right hnd]
      simp only [overflows_iff, not_and, not_not]
    · rw [hdup.mpr hnd]
      simp [hnd]
  refine ⟨hdup, ?_, hok, ?_⟩
  · -- what is neither accepted nor a repeated key is an overflow
    cases hr : fromSnapshot now (fun _ => ⟨now, storeNow⟩) snapshot with
    | ok s =>
      have h := (hok.mp ⟨s, hr⟩).2
      simp only [reduceCtorEq, false_iff, not_and, not_exists]
      exact fun _ e he => h e he
    | error err =>
      rw [hr] at hdup hok
      have hnot : ¬ ((snapshot.entries.map (·.key)).Nodup ∧
          ∀ e ∈ snapshot.entries, ¬ Overflows now storeNow e.value) := by
        rw [← hok]
        simp
      cases err with
      | duplicateKey =>
        have hnd := hdup.mp rfl
        simp [hnd]
      | durationOverflow =>
        have hnd : (snapshot.entries.map (·.key)).Nodup := by
          by_contra hn
          have h := hdup.mpr hn
          cases h
        refine ⟨fun _ => ⟨hnd, ?_⟩, fun _ => rfl⟩
        by_contra hn
        push Not at hn
        exact hnot ⟨hnd, hn⟩
  · intro s hs
    obtain ⟨hnd, hfit⟩ := hok.mp ⟨s, hs⟩
    constructor
    · intro k v
      rw [lookup_fromSnapshot hs hnd]
      refine exists_congr fun sv => and_congr_right fun hmem => ?_
      exact restoredAs_iff (hfit _ hmem)
    · intro d k
      rw [fromSnapshot_heap hs]
      exact count_collectHeap s.hashmap d k

end Redlike.Store
