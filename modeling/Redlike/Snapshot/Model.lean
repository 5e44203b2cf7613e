import Redlike.Store.Model

/-!
# Snapshots

What the store writes to its archive and reads back. A deadline is an instant of
the process that set it; in the archive it is a count of milliseconds since the
epoch. Every conversion of an entry reads both clocks again. A key is converted at
most once in a dump, and at most once in a restore, since a restore first refuses
snapshots that repeat a key: so the readings are given by key. The JSON text between
the two is not modelled.
-/
namespace Redlike.Store

open Resp

def nanosPerMilli : Nat := 10^6

/-- A wall-clock time, in nanoseconds since the epoch. An earlier one is a panic. -/
abbrev SystemTime := Fin instantLimit

/-- `Duration::as_millis`. -/
def asMillis (nanos : Nat) : Nat := nanos / nanosPerMilli

/-- What a conversion reads: the wall clock, and then the clock of the process. -/
structure Clocks where
  unix : SystemTime
  instant : Instant
  deriving DecidableEq

structure SnapshotValue where
  value : Bytes
  expirationTimeUnix : Option Nat
  deriving DecidableEq

structure SnapshotEntry where
  key : Key
  value : SnapshotValue
  deriving DecidableEq

structure Snapshot where
  entries : List SnapshotEntry
  deriving DecidableEq

inductive SnapshotError where
  | durationOverflow
  | duplicateKey
  deriving DecidableEq

/-- `SnapshotValue::from(&StoreValue)`. The sum is one of `u128`, which it cannot leave. -/
def SnapshotValue.from (c : Clocks) (v : StoreValue) : SnapshotValue where
  value := v.value
  expirationTimeUnix :=
    v.expirationTime.map fun t => asMillis (durationSince t c.instant) + asMillis c.unix.val

/-- The remaining time has to fit in the `u64` milliseconds that `Duration::from_millis` takes,
and the sum in an instant. -/
def StoreValue.tryFrom (c : Clocks) (v : SnapshotValue) : Except SnapshotError StoreValue :=
  match v.expirationTimeUnix with
  | none => .ok ⟨v.value, none⟩
  | some t =>
    let remaining := t - asMillis c.unix.val
    if remaining < 2^64 then
      match checkedAdd c.instant (remaining * nanosPerMilli) with
      | some expires => .ok ⟨v.value, some expires⟩
      | none => .error .durationOverflow
    else .error .durationOverflow

/-- The clock is read once for the filter, before the map is locked. -/
def toSnapshot (now : Instant) (clocks : Key → Clocks) (s : Store) : Snapshot where
  entries := (s.hashmap.entries.filter fun e => !isExpired e.2 now).map fun e =>
    ⟨e.1, .from (clocks e.1) e.2⟩

/-- The loop over `unique_keys`. -/
def hasDuplicate : List SnapshotEntry → List Key → Bool
  | [], _ => false
  | e :: rest, uniqueKeys => e.key ∈ uniqueKeys || hasDuplicate rest (e.key :: uniqueKeys)

/-- What the filter of `from_snapshot` keeps. -/
def isPending (nowUnixMillis : Nat) (v : SnapshotValue) : Bool :=
  match v.expirationTimeUnix with
  | none => true
  | some t => decide (nowUnixMillis < t)

/-- The `collect` into a map, which stops at the first entry that cannot be converted. -/
def collectValues (clocks : Key → Clocks) : List SnapshotEntry → HashMap →
    Except SnapshotError HashMap
  | [], map => .ok map
  | e :: rest, map =>
    match StoreValue.tryFrom (clocks e.key) e.value with
    | .ok v => collectValues clocks rest (map.insert e.key v)
    | .error err => .error err

/-- One heap entry for each deadline in the map. -/
def collectHeap (map : HashMap) : ExpirationHeap :=
  map.entries.foldl (fun heap e =>
    match e.2.expirationTime with
    | none => heap
    | some expires => heap.push (expires, e.1)) .new

def fromSnapshot (now : SystemTime) (clocks : Key → Clocks) (snapshot : Snapshot) :
    Except SnapshotError Store :=
  if hasDuplicate snapshot.entries [] then .error .duplicateKey
  else
    match collectValues clocks (snapshot.entries.filter fun e => isPending (asMillis now.val) e.value)
        ∅ with
    | .ok map => .ok (fromParts map (collectHeap map))
    | .error err => .error err

/-! ## What is in a snapshot -/

theorem mem_toSnapshot {now : Instant} {clocks : Key → Clocks} {s : Store} {k : Key}
    {v : SnapshotValue} :
    ⟨k, v⟩ ∈ (s.toSnapshot now clocks).entries ↔
      ∃ w, s.hashmap.lookup k = some w ∧ isExpired w now = false ∧ v = .from (clocks k) w := by
  simp only [toSnapshot, List.mem_map, List.mem_filter, SnapshotEntry.mk.injEq,
    Bool.not_eq_eq_eq_not, Bool.not_true]
  constructor
  · rintro ⟨⟨j, w⟩, ⟨hmem, hlive⟩, rfl, rfl⟩
    exact ⟨w, AList.mem_lookup_iff.mpr hmem, hlive, rfl⟩
  · rintro ⟨w, hl, hlive, rfl⟩
    exact ⟨⟨k, w⟩, ⟨AList.mem_lookup_iff.mp hl, hlive⟩, rfl, rfl⟩

theorem toSnapshot_nodup (now : Instant) (clocks : Key → Clocks) (s : Store) :
    ((s.toSnapshot now clocks).entries.map (·.key)).Nodup := by
  have hkeys : (s.hashmap.entries.map Sigma.fst).Nodup := s.hashmap.nodupKeys
  have hsub := (List.filter_sublist (p := fun e => !isExpired e.2 now) (l := s.hashmap.entries)).map
    Sigma.fst
  simpa [toSnapshot, Function.comp_def] using hkeys.sublist hsub

theorem hasDuplicate_eq_false {es : List SnapshotEntry} {seen : List Key} :
    hasDuplicate es seen = false ↔
      (es.map (·.key)).Nodup ∧ ∀ e ∈ es, e.key ∉ seen := by
  induction es generalizing seen with
  | nil => simp [hasDuplicate]
  | cons e es ih =>
    simp only [hasDuplicate, Bool.or_eq_false_iff, decide_eq_false_iff_not, ih, List.map_cons,
      List.nodup_cons, List.mem_cons, List.mem_map, not_exists, not_and, not_or,
      forall_eq_or_imp]
    constructor
    · rintro ⟨he, hnd, hrest⟩
      exact ⟨⟨fun a ha => (hrest a ha).1, hnd⟩, he, fun a ha => (hrest a ha).2⟩
    · rintro ⟨⟨hne, hnd⟩, he, hrest⟩
      exact ⟨he, hnd, fun a ha => ⟨hne a ha, hrest a ha⟩⟩

/-! ## What a restore makes of it -/

theorem tryFrom_ok_iff {c : Clocks} {v : SnapshotValue} :
    (∃ w, StoreValue.tryFrom c v = .ok w) ↔
      ∀ t, v.expirationTimeUnix = some t →
        t - asMillis c.unix.val < 2^64 ∧
          c.instant.val + (t - asMillis c.unix.val) * nanosPerMilli < instantLimit := by
  unfold StoreValue.tryFrom
  cases v.expirationTimeUnix with
  | none => simp
  | some t =>
    simp only [Option.some.injEq, forall_eq']
    by_cases hr : t - asMillis c.unix.val < 2^64
    · rw [if_pos hr]
      by_cases ha : c.instant.val + (t - asMillis c.unix.val) * nanosPerMilli < instantLimit
      · rw [checkedAdd_of_lt ha]
        exact ⟨fun _ => ⟨hr, ha⟩, fun _ => ⟨_, rfl⟩⟩
      · rw [checkedAdd, dif_neg ha]
        exact ⟨nofun, fun h => absurd h.2 ha⟩
    · rw [if_neg hr]
      exact ⟨nofun, fun h => absurd h.1 hr⟩

/-- A converted entry keeps its value, and its deadline if it has one. -/
theorem tryFrom_ok {c : Clocks} {sv : SnapshotValue} {v : StoreValue}
    (h : StoreValue.tryFrom c sv = .ok v) :
    v.value = sv.value ∧
      ((sv.expirationTimeUnix = none ∧ v.expirationTime = none) ∨
        ∃ t d, sv.expirationTimeUnix = some t ∧ v.expirationTime = some d ∧
          d.val = c.instant.val + (t - asMillis c.unix.val) * nanosPerMilli) := by
  unfold StoreValue.tryFrom at h
  cases ht : sv.expirationTimeUnix with
  | none =>
    rw [ht] at h
    obtain rfl := Except.ok.inj h
    exact ⟨rfl, .inl ⟨rfl, rfl⟩⟩
  | some t =>
    rw [ht] at h
    dsimp only at h
    split at h
    · split at h
      · rename_i expires hadd
        obtain rfl := Except.ok.inj h
        exact ⟨rfl, .inr ⟨t, expires, rfl, rfl, checkedAdd_val hadd⟩⟩
      · cases h
    · cases h

theorem tryFrom_error {c : Clocks} {v : SnapshotValue} {err : SnapshotError}
    (h : StoreValue.tryFrom c v = .error err) : err = .durationOverflow := by
  unfold StoreValue.tryFrom at h
  cases ht : v.expirationTimeUnix with
  | none => rw [ht] at h; cases h
  | some t =>
    rw [ht] at h
    dsimp only at h
    split at h
    · split at h <;> cases h; rfl
    · cases h; rfl

/-- The map that a `collect` returns. -/
theorem lookup_collectValues {clocks : Key → Clocks} {es : List SnapshotEntry} {map map' : HashMap}
    (h : collectValues clocks es map = .ok map') (hnd : (es.map (·.key)).Nodup) (k : Key)
    (v : StoreValue) :
    map'.lookup k = some v ↔
      (∃ sv, ⟨k, sv⟩ ∈ es ∧ StoreValue.tryFrom (clocks k) sv = .ok v) ∨
        ((∀ e ∈ es, e.key ≠ k) ∧ map.lookup k = some v) := by
  induction es generalizing map with
  | nil =>
    obtain rfl : map = map' := by simpa [collectValues] using h
    simp
  | cons e es ih =>
    obtain ⟨hne, hnd⟩ := List.nodup_cons.mp hnd
    rw [collectValues] at h
    cases hv : StoreValue.tryFrom (clocks e.key) e.value with
    | error err => rw [hv] at h; cases h
    | ok w =>
      rw [hv] at h
      rw [ih h hnd]
      by_cases hk : e.key = k
      · -- the keys are distinct, so nothing later touches this one
        subst hk
        have hkeys : ∀ a ∈ es, a.key ≠ e.key := by
          intro a ha he
          exact hne (List.mem_map.mpr ⟨a, ha, he⟩)
        have hnot : ∀ sv, ⟨e.key, sv⟩ ∉ es := fun sv hm => hkeys _ hm rfl
        have hhead : ∀ sv, (⟨e.key, sv⟩ : SnapshotEntry) = e ↔ sv = e.value := by
          intro sv
          cases e
          simp
        have hfree : w = v → ∀ a ∈ es, ¬ a.key = e.key := fun _ => hkeys
        simpa [hnot, hhead, hv] using hfree
      · have hhead : ∀ sv, (⟨k, sv⟩ : SnapshotEntry) ≠ e := by
          rintro sv rfl
          exact hk rfl
        simp [hhead, hk, Ne.symm hk]

theorem collectValues_ok_iff {clocks : Key → Clocks} {es : List SnapshotEntry} {map : HashMap} :
    (∃ map', collectValues clocks es map = .ok map') ↔
      ∀ e ∈ es, ∃ v, StoreValue.tryFrom (clocks e.key) e.value = .ok v := by
  induction es generalizing map with
  | nil => simp [collectValues]
  | cons e es ih =>
    rw [collectValues, List.forall_mem_cons]
    cases hv : StoreValue.tryFrom (clocks e.key) e.value with
    | error err => simp
    | ok v => simp [ih]

theorem collectValues_error {clocks : Key → Clocks} {es : List SnapshotEntry} {map : HashMap}
    {err : SnapshotError} (h : collectValues clocks es map = .error err) :
    err = .durationOverflow := by
  induction es generalizing map with
  | nil => cases h
  | cons e es ih =>
    rw [collectValues] at h
    cases hv : StoreValue.tryFrom (clocks e.key) e.value with
    | error err' =>
      rw [hv] at h
      cases h
      exact tryFrom_error hv
    | ok v =>
      rw [hv] at h
      exact ih h

/-- The heap entry that an entry of the map calls for. -/
def deadlineOf (e : Sigma fun _ : Key => StoreValue) : Option (Instant × Key) :=
  e.2.expirationTime.map fun d => (d, e.1)

/-- A fold that adds at most one entry a round. -/
theorem foldl_perm {f : ExpirationHeap → (Sigma fun _ : Key => StoreValue) → ExpirationHeap}
    (hf : ∀ heap e, (f heap e).entries.Perm ((deadlineOf e).toList ++ heap.entries))
    (l : List (Sigma fun _ : Key => StoreValue)) (heap : ExpirationHeap) :
    (l.foldl f heap).entries.Perm (l.filterMap deadlineOf ++ heap.entries) := by
  induction l generalizing heap with
  | nil => exact .rfl
  | cons e l ih =>
    have hcons : (e :: l).filterMap deadlineOf = (deadlineOf e).toList ++ l.filterMap deadlineOf := by
      cases hd : deadlineOf e <;> simp [hd]
    rw [List.foldl_cons, hcons]
    refine (ih (f heap e)).trans (((hf heap e).append_left _).trans ?_)
    rw [← List.append_assoc]
    exact List.perm_append_comm.append_right _

/-- The heap has one entry for each deadline of the map. -/
theorem collectHeap_perm (map : HashMap) :
    (collectHeap map).entries.Perm (map.entries.filterMap deadlineOf) := by
  unfold collectHeap
  refine (foldl_perm ?_ map.entries .new).trans (by simp [ExpirationHeap.new])
  intro heap e
  unfold deadlineOf
  cases e.2.expirationTime with
  | none => exact .rfl
  | some d => exact List.perm_orderedInsert _ _ _

theorem mem_collectHeap {map : HashMap} {k : Key} {d : Instant} :
    (d, k) ∈ (collectHeap map).entries ↔
      ∃ v, map.lookup k = some v ∧ v.expirationTime = some d := by
  rw [(collectHeap_perm map).mem_iff, List.mem_filterMap]
  constructor
  · rintro ⟨⟨j, v⟩, hmem, he⟩
    obtain ⟨d', hd, he⟩ := Option.map_eq_some_iff.mp he
    obtain ⟨rfl, rfl⟩ := Prod.mk.inj he
    exact ⟨v, AList.mem_lookup_iff.mpr hmem, hd⟩
  · rintro ⟨v, hl, hd⟩
    exact ⟨⟨k, v⟩, AList.mem_lookup_iff.mp hl, by simp [deadlineOf, hd]⟩

section FromSnapshot

variable {now : SystemTime} {clocks : Key → Clocks} {snapshot : Snapshot}

theorem fromSnapshot_of_nodup (hnd : (snapshot.entries.map (·.key)).Nodup) :
    fromSnapshot now clocks snapshot =
      match collectValues clocks
          (snapshot.entries.filter fun e => isPending (asMillis now.val) e.value) ∅ with
      | .ok map => .ok (fromParts map (collectHeap map))
      | .error err => .error err := by
  have hdup : hasDuplicate snapshot.entries [] = false :=
    hasDuplicate_eq_false.mpr ⟨hnd, by simp⟩
  rw [fromSnapshot, hdup]
  rfl

theorem fromSnapshot_ok_iff (hnd : (snapshot.entries.map (·.key)).Nodup) :
    (∃ s, fromSnapshot now clocks snapshot = .ok s) ↔
      ∀ e ∈ snapshot.entries, isPending (asMillis now.val) e.value = true →
        ∃ v, StoreValue.tryFrom (clocks e.key) e.value = .ok v := by
  rw [fromSnapshot_of_nodup hnd]
  have h : (∃ map, collectValues clocks
      (snapshot.entries.filter fun e => isPending (asMillis now.val) e.value) ∅ = .ok map) ↔ _ :=
    collectValues_ok_iff
  simp only [List.mem_filter, and_imp] at h
  rw [← h]
  cases collectValues clocks _ ∅ <;> simp

theorem fromSnapshot_ne_duplicateKey (hnd : (snapshot.entries.map (·.key)).Nodup) :
    fromSnapshot now clocks snapshot ≠ .error .duplicateKey := by
  rw [fromSnapshot_of_nodup hnd]
  cases h : collectValues clocks
      (snapshot.entries.filter fun e => isPending (asMillis now.val) e.value) ∅ with
  | ok map => simp
  | error err => simp [collectValues_error h]

theorem fromSnapshot_heap {s : Store} (h : fromSnapshot now clocks snapshot = .ok s) :
    s.expirationHeap = collectHeap s.hashmap := by
  unfold fromSnapshot at h
  split at h
  · cases h
  · split at h
    · obtain rfl := Except.ok.inj h
      rfl
    · cases h

theorem fromSnapshot_wakeup {s : Store} (h : fromSnapshot now clocks snapshot = .ok s) :
    s.wakeup = .new := by
  unfold fromSnapshot at h
  split at h
  · cases h
  · split at h
    · obtain rfl := Except.ok.inj h
      rfl
    · cases h

/-- The entries of a restored store are those of the snapshot that were pending. -/
theorem lookup_fromSnapshot {s : Store} (h : fromSnapshot now clocks snapshot = .ok s)
    (hnd : (snapshot.entries.map (·.key)).Nodup) (k : Key) (v : StoreValue) :
    s.hashmap.lookup k = some v ↔
      ∃ sv, ⟨k, sv⟩ ∈ snapshot.entries ∧ isPending (asMillis now.val) sv = true ∧
        StoreValue.tryFrom (clocks k) sv = .ok v := by
  rw [fromSnapshot_of_nodup hnd] at h
  cases hc : collectValues clocks
      (snapshot.entries.filter fun e => isPending (asMillis now.val) e.value) ∅ with
  | error err => rw [hc] at h; cases h
  | ok map =>
    rw [hc] at h
    obtain rfl := Except.ok.inj h
    have hsub : ((snapshot.entries.filter fun e => isPending (asMillis now.val) e.value).map
        (·.key)).Nodup := hnd.sublist (List.filter_sublist.map _)
    rw [show (fromParts map (collectHeap map)).hashmap = map from rfl,
      lookup_collectValues hc hsub k v]
    simp [List.mem_filter, and_assoc]

end FromSnapshot

end Redlike.Store
