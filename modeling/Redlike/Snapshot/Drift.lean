import Redlike.Snapshot.Restore

/-!
# Restarts do not wear deadlines away

A process is restarted any number of times, each time from the snapshot that the one
before it dumped. Time is one line: the wall clock shows it, and the clock of a
process shows it up to a constant of the process. Between a restore and the next dump
there is no client, but the sweeper runs as it likes.

A deadline loses less than 2 ms when it is first written. A restore puts it back
into the same millisecond, so that each further dump loses 1 ms at most.
-/
namespace Redlike.Store

open Resp Lib

/-- Both clocks are read at the same moment by a process with this offset. -/
def Clocks.At (offset : Int) (c : Clocks) : Prop := (c.unix.val : Int) = c.instant.val + offset

instance (offset : Int) (c : Clocks) : Decidable (c.At offset) :=
  inferInstanceAs (Decidable (_ = _))

/-- A deadline of a process with this offset, on the wall time line. -/
def onWall (offset : Int) (d : Instant) : Int := d.val + offset

/-- Milliseconds since the epoch, on the same line. -/
def millis (t : Nat) : Int := t * nanosPerMilli

/-- What is persisted for a deadline. -/
def persisted (c : Clocks) (d : Instant) : Nat :=
  asMillis (durationSince d c.instant) + asMillis c.unix.val

/-! ## Truncations -/

/-- Writing a deadline truncates twice. -/
theorem persisted_bounds {offset : Int} {c : Clocks} (hc : c.At offset) {d : Instant}
    (hd : c.instant < d) :
    onWall offset d - millis 2 < millis (persisted c d) ∧
      millis (persisted c d) ≤ onWall offset d := by
  have hlt : c.instant.val < d.val := hd
  simp only [Clocks.At, onWall, millis, persisted, asMillis, durationSince, nanosPerMilli] at *
  omega

/-- Reading it back restores its millisecond: what is added is the part of a millisecond
that the wall clock did not show. -/
theorem tryFrom_deadline {offset : Int} {c : Clocks} (hc : c.At offset) {value : Bytes} {t : Nat}
    (ht : asMillis c.unix.val < t) {v : StoreValue}
    (h : StoreValue.tryFrom c ⟨value, some t⟩ = .ok v) :
    ∃ d, v = ⟨value, some d⟩ ∧ millis t ≤ onWall offset d ∧ onWall offset d < millis (t + 1) := by
  rcases tryFrom_ok h with ⟨rfl, ⟨ht', -⟩ | ⟨t', d, ht', hd, hval⟩⟩
  · cases ht'
  · obtain rfl : t = t' := Option.some.inj ht'
    refine ⟨d, by rw [← hd], ?_⟩
    simp only [Clocks.At, onWall, millis, asMillis, nanosPerMilli] at *
    omega

/-- Writing a deadline from within a millisecond loses at most that one. -/
theorem persisted_again {offset : Int} {c : Clocks} (hc : c.At offset) {d : Instant}
    (hd : c.instant < d) {t : Nat} (hlo : millis t ≤ onWall offset d)
    (hhi : onWall offset d < millis (t + 1)) : persisted c d ≤ t ∧ t ≤ persisted c d + 1 := by
  have hlt : c.instant.val < d.val := hd
  simp only [Clocks.At, onWall, millis, persisted, asMillis, durationSince, nanosPerMilli] at *
  omega

/-! ## A process without clients -/

def Event.Quiet (e : Event) : Prop := ∀ c, e ≠ .call c

theorem Spec.run_quiet {es : List Event} (h : ∀ e ∈ es, e.Quiet) (y : Spec) :
    y.AdmitsAll es ∧ (y.run es).2.map = y.map ∧ y.clock ≤ (y.run es).2.clock := by
  induction es generalizing y with
  | nil => exact ⟨trivial, rfl, le_refl _⟩
  | cons e es ih =>
    obtain ⟨hhead, htail⟩ := List.forall_mem_cons.mp h
    obtain ⟨hadm, hmap, hclock⟩ := ih htail (y.step e).2
    cases e with
    | call c => exact absurd rfl (hhead c)
    | advance t => exact ⟨⟨trivial, hadm⟩, hmap, le_trans (le_max_left _ _) hclock⟩
    | pop now => exact ⟨⟨trivial, hadm⟩, hmap, hclock⟩
    | remove => exact ⟨⟨trivial, hadm⟩, hmap, hclock⟩

/-- All that can happen to an entry is that the sweeper takes it once it has expired. -/
theorem quiet_run {t : Instant} {s : Store} {es : List Event} (h : ∀ e ∈ es, e.Quiet) :
    let x := ((⟨t, s, none⟩ : System).run es).2
    t ≤ x.clock ∧ TtlMap.Agree x.clock.val (contents x.store) (contents s) := by
  intro x
  obtain ⟨hadm, hmap, hclock⟩ := Spec.run_quiet h ⟨t, contents s⟩
  have hstart : System.Simulates ⟨t, s, none⟩ ⟨t, contents s⟩ :=
    ⟨rfl, .refl _ _, by intro _ _ hn; cases hn⟩
  obtain ⟨-, hsim⟩ := hstart.run hadm
  have hagree := hsim.agree
  rw [hmap, ← hsim.clock_eq] at hagree
  exact ⟨hsim.clock_eq ▸ hclock, hagree⟩

/-! ## Restarts -/

/-- The process dumps when the wall clock shows `dumpAt`, and ends; the next one restores
the snapshot at the clocks `restoreAt`, and its sweeper starts. -/
def restart (dumpAt : SystemTime) (restoreAt : Clocks) (x : System) :
    Except SnapshotError System :=
  match fromSnapshot restoreAt.unix (fun _ => restoreAt)
      (x.store.toSnapshot x.clock fun _ => ⟨dumpAt, x.clock⟩) with
  | .ok s => .ok ⟨restoreAt.instant, s, none⟩
  | .error err => .error err

theorem restart_ok {dumpAt : SystemTime} {restoreAt : Clocks} {x y : System}
    (h : restart dumpAt restoreAt x = .ok y) :
    ∃ s, fromSnapshot restoreAt.unix (fun _ => restoreAt)
        (x.store.toSnapshot x.clock fun _ => ⟨dumpAt, x.clock⟩) = .ok s ∧
      y = ⟨restoreAt.instant, s, none⟩ := by
  unfold restart at h
  split at h
  · rename_i s hs
    exact ⟨s, hs, (Except.ok.inj h).symm⟩
  · cases h

/-- `n` restarts. Process `i` starts as `begun i`, goes through `events i`, and is
restarted as process `i + 1`, which succeeds. Process 0 is any, with any clients; from
then on there are none. -/
structure Restarts (n : Nat) where
  offset : Nat → Int
  begun : Nat → System
  events : Nat → List Event
  dumpAt : Nat → SystemTime
  restoreAt : Nat → Clocks
  quiet : ∀ i, 0 < i → ∀ e ∈ events i, e.Quiet
  dump_at : ∀ i < n, Clocks.At (offset i) ⟨dumpAt i, ((begun i).run (events i)).2.clock⟩
  restore_at : ∀ i < n, Clocks.At (offset (i + 1)) (restoreAt i)
  ordered : ∀ i < n, dumpAt i ≤ (restoreAt i).unix
  restarted : ∀ i < n,
    restart (dumpAt i) (restoreAt i) ((begun i).run (events i)).2 = .ok (begun (i + 1))

namespace Restarts

variable {n : Nat} (R : Restarts n)

/-- Process `i` when it dumps. -/
def held (i : Nat) : System := ((R.begun i).run (R.events i)).2

def dumpClocks (i : Nat) : Clocks := ⟨R.dumpAt i, (R.held i).clock⟩

def snapshot (i : Nat) : Snapshot :=
  (R.held i).store.toSnapshot (R.held i).clock fun _ => R.dumpClocks i

theorem mem_snapshot {i : Nat} {k : Key} {v : SnapshotValue} :
    ⟨k, v⟩ ∈ (R.snapshot i).entries ↔
      ∃ w, (R.held i).store.hashmap.lookup k = some w ∧ isExpired w (R.held i).clock = false ∧
        v = .from (R.dumpClocks i) w := mem_toSnapshot

theorem snapshot_unique {i : Nat} {k : Key} {v v' : SnapshotValue}
    (h : ⟨k, v⟩ ∈ (R.snapshot i).entries) (h' : ⟨k, v'⟩ ∈ (R.snapshot i).entries) : v = v' := by
  obtain ⟨w, hw, -, rfl⟩ := R.mem_snapshot.mp h
  obtain ⟨w', hw', -, rfl⟩ := R.mem_snapshot.mp h'
  rw [Option.some.inj (hw.symm.trans hw')]

theorem lookup_begun {i : Nat} (hi : i < n) (k : Key) (v : StoreValue) :
    (R.begun (i + 1)).store.hashmap.lookup k = some v ↔
      ∃ sv, ⟨k, sv⟩ ∈ (R.snapshot i).entries ∧
        isPending (asMillis (R.restoreAt i).unix.val) sv = true ∧
        StoreValue.tryFrom (R.restoreAt i) sv = .ok v := by
  obtain ⟨s, hs, hbegun⟩ := restart_ok (R.restarted i hi)
  rw [hbegun]
  exact lookup_fromSnapshot hs (toSnapshot_nodup _ _ _) k v

/-- From a restore to the next dump, readers see the same. -/
theorem held_agree {i : Nat} (hi : i < n) :
    TtlMap.Agree (R.held (i + 1)).clock.val (contents (R.held (i + 1)).store)
      (contents (R.begun (i + 1)).store) := by
  obtain ⟨s, -, hbegun⟩ := restart_ok (R.restarted i hi)
  rw [held, hbegun]
  exact (quiet_run (R.quiet (i + 1) (Nat.succ_pos i))).2

theorem lookup_held {i : Nat} (hi : i < n) {k : Key} {v : StoreValue}
    (hlive : isExpired v (R.held (i + 1)).clock = false) :
    (R.held (i + 1)).store.hashmap.lookup k = some v ↔
      (R.begun (i + 1)).store.hashmap.lookup k = some v :=
  ⟨fun h => System.lookup_of_agree (R.held_agree hi).symm h hlive,
    fun h => System.lookup_of_agree (R.held_agree hi) h hlive⟩

/-! ## One restart -/

theorem live_of_deadline {d now : Instant} {value : Bytes}
    (h : isExpired ⟨value, some d⟩ now = false) : now < d :=
  lt_of_not_ge (of_decide_eq_false h)

/-- A deadline in a snapshot is one of the process that dumped it. -/
theorem deadline_of_snapshot {i : Nat} {k : Key} {value : Bytes} {t : Nat}
    (h : ⟨k, ⟨value, some t⟩⟩ ∈ (R.snapshot i).entries) :
    ∃ d, (R.held i).store.hashmap.lookup k = some ⟨value, some d⟩ ∧ (R.held i).clock < d ∧
      t = persisted (R.dumpClocks i) d := by
  rcases R.mem_snapshot.mp h with ⟨⟨value', _ | d⟩, hl, hlive, hv⟩
  · cases hv
  · obtain ⟨rfl, ht⟩ := SnapshotValue.mk.inj hv
    exact ⟨d, hl, live_of_deadline hlive, Option.some.inj ht⟩

theorem restored_deadline {i : Nat} (hi : i < n) {k : Key} {value : Bytes} {t : Nat}
    (h : ⟨k, ⟨value, some t⟩⟩ ∈ (R.snapshot i).entries) {v : StoreValue}
    (hl : (R.begun (i + 1)).store.hashmap.lookup k = some v) :
    ∃ d, v = ⟨value, some d⟩ ∧ millis t ≤ onWall (R.offset (i + 1)) d ∧
      onWall (R.offset (i + 1)) d < millis (t + 1) := by
  obtain ⟨sv, hmem, hp, hok⟩ := (R.lookup_begun hi k v).mp hl
  obtain rfl := R.snapshot_unique h hmem
  exact tryFrom_deadline (R.restore_at i hi) (of_decide_eq_true hp) hok

theorem dropped_iff {i : Nat} (hi : i < n) {k : Key} {value : Bytes} {t : Nat}
    (h : ⟨k, ⟨value, some t⟩⟩ ∈ (R.snapshot i).entries) :
    (R.begun (i + 1)).store.hashmap.lookup k = none ↔ t ≤ asMillis (R.restoreAt i).unix.val := by
  constructor
  · intro hnone
    by_contra hlt
    have hp : isPending (asMillis (R.restoreAt i).unix.val) ⟨value, some t⟩ = true :=
      decide_eq_true (not_le.mp hlt)
    obtain ⟨s, hs, -⟩ := restart_ok (R.restarted i hi)
    obtain ⟨v, hv⟩ := (fromSnapshot_ok_iff (toSnapshot_nodup _ _ _)).mp ⟨s, hs⟩ _ h hp
    rw [(R.lookup_begun hi k v).mpr ⟨_, h, hp, hv⟩] at hnone
    cases hnone
  · intro hle
    cases hl : (R.begun (i + 1)).store.hashmap.lookup k with
    | none => rfl
    | some v =>
      obtain ⟨sv, hmem, hp, -⟩ := (R.lookup_begun hi k v).mp hl
      obtain rfl := R.snapshot_unique h hmem
      exact absurd (of_decide_eq_true hp) (not_lt.mpr hle)

theorem omitted_iff {i : Nat} {k : Key} {value : Bytes} {d : Instant}
    (hl : (R.held i).store.hashmap.lookup k = some ⟨value, some d⟩) :
    (∀ v, ⟨k, v⟩ ∉ (R.snapshot i).entries) ↔ d ≤ (R.held i).clock := by
  constructor
  · intro hnot
    by_contra hlt
    have hlive : isExpired ⟨value, some d⟩ (R.held i).clock = false := decide_eq_false hlt
    exact hnot _ (R.mem_snapshot.mpr ⟨_, hl, hlive, rfl⟩)
  · intro hle v hmem
    obtain ⟨w, hw, hlive, -⟩ := R.mem_snapshot.mp hmem
    obtain rfl : _ = w := Option.some.inj (hl.symm.trans hw)
    exact absurd hle (not_le.mpr (live_of_deadline hlive))

/-- The same for the deadline as it was restored, swept away or not. -/
theorem omitted_iff_begun {i : Nat} (hi : i < n) {k : Key} {value : Bytes} {d : Instant}
    (hl : (R.begun (i + 1)).store.hashmap.lookup k = some ⟨value, some d⟩) :
    (∀ v, ⟨k, v⟩ ∉ (R.snapshot (i + 1)).entries) ↔ d ≤ (R.held (i + 1)).clock := by
  constructor
  · intro hnot
    by_contra hlt
    have hlive : isExpired ⟨value, some d⟩ (R.held (i + 1)).clock = false := decide_eq_false hlt
    exact hnot _ (R.mem_snapshot.mpr ⟨_, (R.lookup_held hi hlive).mpr hl, hlive, rfl⟩)
  · intro hle v hmem
    obtain ⟨w, hw, hlive, -⟩ := R.mem_snapshot.mp hmem
    rw [R.lookup_held hi hlive] at hw
    obtain rfl : _ = w := Option.some.inj (hl.symm.trans hw)
    exact absurd hle (not_le.mpr (live_of_deadline hlive))

/-- From one dump to the next. -/
theorem persisted_step {i : Nat} (hi : i + 1 < n) {k : Key} {value : Bytes} {t : Nat}
    (h : ⟨k, ⟨value, some t⟩⟩ ∈ (R.snapshot (i + 1)).entries) :
    ∃ t', ⟨k, ⟨value, some t'⟩⟩ ∈ (R.snapshot i).entries ∧ t ≤ t' ∧ t' ≤ t + 1 := by
  obtain ⟨d, hl, hlt, rfl⟩ := R.deadline_of_snapshot h
  have hin : i < n := Nat.lt_of_succ_lt hi
  have hlive : isExpired ⟨value, some d⟩ (R.held (i + 1)).clock = false :=
    decide_eq_false (not_le.mpr hlt)
  have hbegun := (R.lookup_held hin hlive).mp hl
  rcases (R.lookup_begun hin k _).mp hbegun with ⟨⟨value', _ | t'⟩, hmem, hp, hok⟩
  · cases hok
  · obtain ⟨d', hv, hlo, hhi⟩ := tryFrom_deadline (R.restore_at i hin) (of_decide_eq_true hp) hok
    obtain ⟨rfl, hd⟩ := StoreValue.mk.inj hv
    obtain rfl := Option.some.inj hd
    exact ⟨t', hmem, persisted_again (R.dump_at (i + 1) hi) hlt hlo hhi⟩

/-- What a restart finds was there before, and alive. -/
theorem origin_step {i : Nat} (hi : i < n) {k : Key} {v : StoreValue}
    (hl : (R.begun (i + 1)).store.hashmap.lookup k = some v) :
    ∃ w, (R.held i).store.hashmap.lookup k = some w ∧ isExpired w (R.held i).clock = false ∧
      w.value = v.value := by
  obtain ⟨sv, hmem, -, hok⟩ := (R.lookup_begun hi k v).mp hl
  obtain ⟨w, hw, hlive, rfl⟩ := R.mem_snapshot.mp hmem
  exact ⟨w, hw, hlive, (tryFrom_ok hok).1.symm⟩

/-- An entry without a deadline passes through a dump and a restore as it is. -/
theorem permanent_step {i : Nat} (hi : i < n) {k : Key} {value : Bytes}
    (hl : (R.held i).store.hashmap.lookup k = some ⟨value, none⟩) :
    (R.begun (i + 1)).store.hashmap.lookup k = some ⟨value, none⟩ :=
  (R.lookup_begun hi k _).mpr ⟨_, R.mem_snapshot.mpr ⟨_, hl, rfl, rfl⟩, rfl, rfl⟩

/-! ## Any number of restarts -/

theorem origin {i : Nat} (hi : i < n) {k : Key} {v : StoreValue}
    (hl : (R.begun (i + 1)).store.hashmap.lookup k = some v) :
    ∃ w, (R.held 0).store.hashmap.lookup k = some w ∧ isExpired w (R.held 0).clock = false ∧
      w.value = v.value := by
  induction i generalizing v with
  | zero => exact R.origin_step hi hl
  | succ i ih =>
    obtain ⟨w, hw, hlive, hvalue⟩ := R.origin_step hi hl
    have hin : i < n := Nat.lt_of_succ_lt hi
    obtain ⟨u, hu, hulive, huvalue⟩ := ih hin ((R.lookup_held hin hlive).mp hw)
    exact ⟨u, hu, hulive, huvalue.trans hvalue⟩

theorem permanent {i : Nat} (hi : i < n) {k : Key} {value : Bytes}
    (hl : (R.held 0).store.hashmap.lookup k = some ⟨value, none⟩) :
    (R.begun (i + 1)).store.hashmap.lookup k = some ⟨value, none⟩ := by
  induction i with
  | zero => exact R.permanent_step hi hl
  | succ i ih =>
    have hin : i < n := Nat.lt_of_succ_lt hi
    exact R.permanent_step hi ((R.lookup_held hin rfl).mpr (ih hin))

/-- The losses of the dumps after the first add up to less than a millisecond for each. -/
theorem persisted_since {i : Nat} (hi : i < n) {k : Key} {value : Bytes} {t : Nat}
    (h : ⟨k, ⟨value, some t⟩⟩ ∈ (R.snapshot i).entries) :
    ∃ t₀, ⟨k, ⟨value, some t₀⟩⟩ ∈ (R.snapshot 0).entries ∧ t ≤ t₀ ∧ t₀ ≤ t + i := by
  induction i generalizing t with
  | zero => exact ⟨t, h, le_refl _, le_refl _⟩
  | succ i ih =>
    obtain ⟨t', hmem, hle, hge⟩ := R.persisted_step hi h
    obtain ⟨t₀, h₀, hle₀, hge₀⟩ := ih (Nat.lt_of_succ_lt hi) hmem
    exact ⟨t₀, h₀, by omega, by omega⟩

/-- What `n` restarts do to the store of the first process. -/
theorem restarts_preserve (hn : 0 < n) :
    (∀ k value, (R.held 0).store.hashmap.lookup k = some ⟨value, none⟩ →
      (R.begun n).store.hashmap.lookup k = some ⟨value, none⟩) ∧
    (∀ k v, (R.begun n).store.hashmap.lookup k = some v →
      ∃ w, (R.held 0).store.hashmap.lookup k = some w ∧ isExpired w (R.held 0).clock = false ∧
        w.value = v.value) ∧
    (∀ k value t, ⟨k, ⟨value, some t⟩⟩ ∈ (R.snapshot 0).entries →
      ∃ d, (R.held 0).store.hashmap.lookup k = some ⟨value, some d⟩ ∧
        onWall (R.offset 0) d - millis 2 < millis t ∧ millis t ≤ onWall (R.offset 0) d) ∧
    (∀ i, i + 1 < n → ∀ k value t, ⟨k, ⟨value, some t⟩⟩ ∈ (R.snapshot (i + 1)).entries →
      ∃ t', ⟨k, ⟨value, some t'⟩⟩ ∈ (R.snapshot i).entries ∧ t ≤ t' ∧ t' ≤ t + 1) ∧
    (∀ i < n, ∀ k value t, ⟨k, ⟨value, some t⟩⟩ ∈ (R.snapshot i).entries →
      (∃ t₀, ⟨k, ⟨value, some t₀⟩⟩ ∈ (R.snapshot 0).entries ∧ t ≤ t₀ ∧ t₀ ≤ t + i) ∧
      ((R.begun (i + 1)).store.hashmap.lookup k = none ↔
        t ≤ asMillis (R.restoreAt i).unix.val) ∧
      ∀ v, (R.begun (i + 1)).store.hashmap.lookup k = some v →
        ∃ d, v = ⟨value, some d⟩ ∧ millis t ≤ onWall (R.offset (i + 1)) d ∧
          onWall (R.offset (i + 1)) d < millis (t + 1)) ∧
    (∀ i k value d, (R.held i).store.hashmap.lookup k = some ⟨value, some d⟩ →
      ((∀ v, ⟨k, v⟩ ∉ (R.snapshot i).entries) ↔ d ≤ (R.held i).clock)) ∧
    ∀ i < n, ∀ k value d,
      (R.begun (i + 1)).store.hashmap.lookup k = some ⟨value, some d⟩ →
      ((∀ v, ⟨k, v⟩ ∉ (R.snapshot (i + 1)).entries) ↔ d ≤ (R.held (i + 1)).clock) := by
  obtain ⟨m, rfl⟩ : ∃ m, n = m + 1 := Nat.exists_eq_succ_of_ne_zero (Nat.pos_iff_ne_zero.mp hn)
  refine ⟨?_, ?_, ?_, ?_, ?_, ?_, ?_⟩
  · intro k value hl
    exact R.permanent (Nat.lt_succ_self m) hl
  · intro k v hl
    exact R.origin (Nat.lt_succ_self m) hl
  · intro k value t h
    obtain ⟨d, hl, hlt, rfl⟩ := R.deadline_of_snapshot h
    exact ⟨d, hl, persisted_bounds (R.dump_at 0 hn) hlt⟩
  · intro i hi k value t h
    exact R.persisted_step hi h
  · intro i hi k value t h
    exact ⟨R.persisted_since hi h, R.dropped_iff hi h, fun v hl => R.restored_deadline hi h hl⟩
  · intro i k value d hl
    exact R.omitted_iff hl
  · intro i hi k value d hl
    exact R.omitted_iff_begun hi hl

theorem ok_of_isOk {ε α : Type} {r : Except ε α} (h : r.isOk = true) (a : α) :
    r = .ok (r.toOption.getD a) := by
  cases r with
  | ok b => rfl
  | error e => cases h

/-- Two restarts, the second after a sweep. -/
theorem restarts_preserve_twice :
    ∃ R : Restarts 2, (R.held 0).store.hashmap.lookup [1] = some ⟨[7], none⟩ ∧
      (R.begun 2).store.hashmap.lookup [1] = some ⟨[7], none⟩ := by
  let es : List Event := [.call (.set [1] [7]), .call (.set [2] [8]), .call (.expire [2] 60)]
  let quiet : List Event := [.advance ⟨61 * 10^9, by decide⟩, .pop ⟨61 * 10^9, by decide⟩, .remove]
  let restore₁ : Clocks := ⟨⟨10^18 + 2345678, by decide⟩, ⟨5, by decide⟩⟩
  let restore₂ : Clocks := ⟨⟨10^18 + 10^12, by decide⟩, ⟨10^12, by decide⟩⟩
  let dump₁ : SystemTime := ⟨10^18 + 1234567, by decide⟩
  let dump₂ : SystemTime := ⟨10^18 + 2345673 + 61 * 10^9, by decide⟩
  let x := System.start ⟨0, by decide⟩
  let y := (restart dump₁ restore₁ (x.run es).2).toOption.getD x
  let z := (restart dump₂ restore₂ (y.run quiet).2).toOption.getD x
  have hy : restart dump₁ restore₁ (x.run es).2 = .ok y := ok_of_isOk (by decide) x
  have hz : restart dump₂ restore₂ (y.run quiet).2 = .ok z := ok_of_isOk (by decide) x
  have hx : (x.run es).2.store.hashmap.lookup [1] = some ⟨[7], none⟩ := by decide
  let R : Restarts 2 := {
    offset := fun i => if i = 0 then 10^18 + 1234567 else if i = 1 then 10^18 + 2345673 else 10^18
    begun := fun i => if i = 0 then x else if i = 1 then y else z
    events := fun i => if i = 0 then es else quiet
    dumpAt := fun i => if i = 0 then dump₁ else dump₂
    restoreAt := fun i => if i = 0 then restore₁ else restore₂
    quiet := by
      intro i hi e he c
      rw [if_neg (Nat.pos_iff_ne_zero.mp hi)] at he
      obtain rfl | rfl | rfl := by simpa [quiet] using he
      all_goals exact nofun
    dump_at := by
      intro i hi
      obtain rfl | rfl : i = 0 ∨ i = 1 := by omega
      all_goals decide
    restore_at := by
      intro i hi
      obtain rfl | rfl : i = 0 ∨ i = 1 := by omega
      all_goals decide
    ordered := by
      intro i hi
      obtain rfl | rfl : i = 0 ∨ i = 1 := by omega
      all_goals decide
    restarted := by
      intro i hi
      obtain rfl | rfl : i = 0 ∨ i = 1 := by omega
      · exact hy
      · exact hz }
  have hl : (R.held 0).store.hashmap.lookup [1] = some ⟨[7], none⟩ := hx
  exact ⟨R, hl, (R.restarts_preserve (by decide)).1 _ _ hl⟩

end Restarts
end Redlike.Store
