import Redlike.Snapshot.Model
import Redlike.Store.Refinement

/-!
# Which dumps can be restored

A dump writes a deadline in `u128` milliseconds. A restore takes what is left of it
through `u64` milliseconds and back to an instant, and one entry that does not pass
makes it refuse the whole snapshot. Between the two, the checked addition is
harmless, as long as the clock of the restoring process reads no later than that of
the dumping one; the narrowing to `u64` is not.
-/
namespace Redlike.Store

open Resp

/-- The restore finds the entry past its time, or has less than `2^64` milliseconds of it
left, counting from the readings of the two conversions. -/
def Readable (wall : SystemTime) (dump restore : Clocks) (d : Instant) : Prop :=
  let t := asMillis (durationSince d dump.instant) + asMillis dump.unix.val
  t ≤ asMillis wall.val ∨ t < asMillis restore.unix.val + 2^64

instance (wall : SystemTime) (dump restore : Clocks) (d : Instant) :
    Decidable (Readable wall dump restore d) := inferInstanceAs (Decidable (_ ∨ _))

theorem asMillis_mono {a b : Nat} (h : a ≤ b) : asMillis a ≤ asMillis b := Nat.div_le_div_right h

/-- Truncation never lengthens a deadline, so no restored deadline leaves the instants. -/
theorem restored_lt_limit {dump restore : Clocks} (hunix : dump.unix ≤ restore.unix)
    (hinstant : restore.instant ≤ dump.instant) (d : Instant) :
    restore.instant.val + (asMillis (durationSince d dump.instant) + asMillis dump.unix.val -
      asMillis restore.unix.val) * nanosPerMilli < instantLimit := by
  have hwall := asMillis_mono (Fin.val_le_of_le hunix)
  have hleft : asMillis (durationSince d dump.instant) * nanosPerMilli ≤ d.val - dump.instant.val :=
    Nat.div_mul_le_self _ _
  have hle : (asMillis (durationSince d dump.instant) + asMillis dump.unix.val -
      asMillis restore.unix.val) * nanosPerMilli ≤ d.val - dump.instant.val := by
    refine le_trans (Nat.mul_le_mul_right _ ?_) hleft
    omega
  have hr := restore.instant.isLt
  have hd := d.isLt
  have hi := Fin.val_le_of_le hinstant
  omega

theorem tryFrom_from_ok_iff {dump restore : Clocks} (hunix : dump.unix ≤ restore.unix)
    (hinstant : restore.instant ≤ dump.instant) (v : StoreValue) :
    (∃ w, StoreValue.tryFrom restore (.from dump v) = .ok w) ↔
      ∀ d, v.expirationTime = some d →
        asMillis (durationSince d dump.instant) + asMillis dump.unix.val <
          asMillis restore.unix.val + 2^64 := by
  rw [tryFrom_ok_iff]
  rcases v with ⟨value, _ | d⟩
  · simp [SnapshotValue.from]
  · simp only [SnapshotValue.from, Option.map_some, Option.some.injEq, forall_eq',
      restored_lt_limit hunix hinstant d, and_true]
    omega

theorem isPending_from {wall : SystemTime} {dump : Clocks} {v : StoreValue} :
    isPending (asMillis wall.val) (.from dump v) = true ↔
      ∀ d, v.expirationTime = some d →
        asMillis wall.val < asMillis (durationSince d dump.instant) + asMillis dump.unix.val := by
  rcases v with ⟨value, _ | d⟩ <;> simp [isPending, SnapshotValue.from]

/-- A store, dumped and restored: every entry that is alive at the dump and still pending at
the restore has to be converted. -/
theorem fromSnapshot_toSnapshot_ok_iff_converts {now : Instant} {dump restore : Key → Clocks}
    {wall : SystemTime} {s : Store} :
    (∃ s', fromSnapshot wall restore (s.toSnapshot now dump) = .ok s') ↔
      ∀ k v, s.hashmap.lookup k = some v → isExpired v now = false →
        isPending (asMillis wall.val) (.from (dump k) v) = true →
        ∃ w, StoreValue.tryFrom (restore k) (.from (dump k) v) = .ok w := by
  rw [fromSnapshot_ok_iff (toSnapshot_nodup now dump s)]
  constructor
  · intro h k v hl hlive hp
    exact h ⟨k, .from (dump k) v⟩ (mem_toSnapshot.mpr ⟨v, hl, hlive, rfl⟩) hp
  · rintro h ⟨k, sv⟩ hmem hp
    obtain ⟨v, hl, hlive, rfl⟩ := mem_toSnapshot.mp hmem
    exact h k v hl hlive hp

theorem fromSnapshot_toSnapshot_ok_iff {now : Instant} {dump restore : Key → Clocks}
    (hunix : ∀ k, (dump k).unix ≤ (restore k).unix)
    (hinstant : ∀ k, (restore k).instant ≤ (dump k).instant) (wall : SystemTime) (s : Store) :
    (∃ s', fromSnapshot wall restore (s.toSnapshot now dump) = .ok s') ↔
      ∀ k v d, s.hashmap.lookup k = some v → isExpired v now = false →
        v.expirationTime = some d → Readable wall (dump k) (restore k) d := by
  rw [fromSnapshot_toSnapshot_ok_iff_converts]
  constructor
  · intro h k v d hl hlive hd
    by_cases hp : isPending (asMillis wall.val) (.from (dump k) v) = true
    · exact .inr ((tryFrom_from_ok_iff (hunix k) (hinstant k) v).mp (h k v hl hlive hp) d hd)
    · rw [isPending_from] at hp
      push Not at hp
      obtain ⟨d', hd', hle⟩ := hp
      obtain rfl : d = d' := Option.some.inj (hd.symm.trans hd')
      exact .inl hle
  · intro h k v hl hlive hp
    refine (tryFrom_from_ok_iff (hunix k) (hinstant k) v).mpr ?_
    intro d hd
    rcases h k v d hl hlive hd with hle | hlt
    · exact absurd (isPending_from.mp hp d hd) (not_lt.mpr hle)
    · exact hlt

/-! ## Runs whose deadlines stay near -/

/-- Every deadline in the map is less than `2^64` milliseconds away. -/
def Near (clock : Instant) (s : Store) : Prop :=
  ∀ k v d, s.hashmap.lookup k = some v → v.expirationTime = some d →
    d.val < clock.val + 2^64 * nanosPerMilli

theorem Near.mono {clock later : Instant} {s : Store} (h : Near clock s) (hle : clock ≤ later) :
    Near later s := by
  intro k v d hl hd
  have hnear := h k v d hl hd
  have hval := Fin.val_le_of_le hle
  omega

/-- The event sets no deadline that is `2^64` milliseconds away or more. -/
def Event.Near (e : Event) : Prop :=
  ∀ key secs, e = .call (.expire key secs) → secs.toNat * 1000 < 2^64

theorem near_step {x : System} (h : Near x.clock x.store) {e : Event} (he : e.Near) :
    Near (x.step e).2.clock (x.step e).2.store := by
  cases e with
  | advance t => exact h.mono (le_max_left _ _)
  | call c =>
    intro k v d hl hd
    rcases c.lookup_run hl with hold | hnone | ⟨secs, d', rfl, hd', hval, -⟩
    · exact h k v d hold hd
    · rw [hnone] at hd; cases hd
    · obtain rfl : d = d' := Option.some.inj (hd.symm.trans hd')
      have hsecs := he k secs rfl
      change d.val < x.clock.val + _
      simp only [hval, nanosPerSec, nanosPerMilli]
      omega
  | pop now =>
    simp only [System.step]
    split <;> exact h
  | remove =>
    simp only [System.step]
    split
    · exact h
    · intro k v d hl hd
      exact h k v d (lookup_sweepRemove.mp hl).1 hd

theorem near_run {x : System} (h : Near x.clock x.store) {es : List Event} (he : ∀ e ∈ es, e.Near) :
    Near (x.run es).2.clock (x.run es).2.store := by
  induction es generalizing x with
  | nil => exact h
  | cons e es ih =>
    obtain ⟨hhead, htail⟩ := List.forall_mem_cons.mp he
    exact ih (near_step h hhead) htail

/-- A deadline that is near when the entry is dumped can be read back. -/
theorem readable_of_near {clock : Instant} {s : Store} (h : Near clock s) {k : Key} {v : StoreValue}
    {d : Instant} (hl : s.hashmap.lookup k = some v) (hd : v.expirationTime = some d)
    {dump restore : Clocks} (hclock : clock ≤ dump.instant) (hunix : dump.unix ≤ restore.unix)
    (wall : SystemTime) : Readable wall dump restore d := by
  have hnear := h k v d hl hd
  have hval := Fin.val_le_of_le hclock
  have hwall := asMillis_mono (Fin.val_le_of_le hunix)
  have hleft : asMillis (durationSince d dump.instant) < 2^64 := by
    simp only [asMillis, durationSince, nanosPerMilli] at hnear ⊢
    omega
  exact .inr (by omega)

/-- In every reachable state, whatever the clocks read at the dump and at a restore on a
later wall clock and an earlier process clock: a repeated key is never the reason for
refusing a dump; the restore succeeds exactly if each deadline that was still to come at the dump
is readable; and it does so after every run that only sets near deadlines. -/
theorem restore_own_dump (t : Instant) (es : List Event) (now : Instant) (wall : SystemTime)
    (dump restore : Key → Clocks) (hunix : ∀ k, (dump k).unix ≤ (restore k).unix)
    (hinstant : ∀ k, (restore k).instant ≤ (dump k).instant) :
    let x := ((System.start t).run es).2
    let r := fromSnapshot wall restore (x.store.toSnapshot now dump)
    r ≠ .error .duplicateKey ∧
      ((∃ s, r = .ok s) ↔
        ∀ k v d, x.store.hashmap.lookup k = some v → isExpired v now = false →
          v.expirationTime = some d → Readable wall (dump k) (restore k) d) ∧
      ((∀ e ∈ es, e.Near) → (∀ k, x.clock ≤ (dump k).instant) → ∃ s, r = .ok s) := by
  intro x r
  have hiff : (∃ s, r = .ok s) ↔ _ := fromSnapshot_toSnapshot_ok_iff hunix hinstant wall x.store
  refine ⟨fromSnapshot_ne_duplicateKey (toSnapshot_nodup now dump x.store), hiff, ?_⟩
  intro hes hclock
  have hnear : Near x.clock x.store := by
    refine near_run ?_ hes
    intro k v d hl
    simp [System.start, Store.new, fromParts] at hl
  refine hiff.mpr ?_
  intro k v d hl _ hd
  exact readable_of_near hnear hl hd (hclock k) (hunix k) wall

/-- A deadline of an hour, restored half an hour later. -/
theorem restore_own_dump_hour :
    let es := [.call (.set [1] [7]), .call (.expire [1] 3600)]
    let dump : Key → Clocks := fun _ => ⟨⟨10^18, by decide⟩, ⟨10^12, by decide⟩⟩
    let restore : Key → Clocks := fun _ => ⟨⟨10^18 + 18 * 10^11, by decide⟩, ⟨5, by decide⟩⟩
    ∃ s, fromSnapshot ⟨10^18 + 18 * 10^11, by decide⟩ restore
      ((((System.start ⟨0, by decide⟩).run es).2.store).toSnapshot ⟨10^12, by decide⟩ dump) = .ok s := by
  intro es dump restore
  refine (restore_own_dump ⟨0, by decide⟩ es ⟨10^12, by decide⟩ ⟨10^18 + 18 * 10^11, by decide⟩ dump
    restore (fun _ => by decide) (fun _ => by decide)).2.2 ?_ (fun _ => by decide)
  intro e he key secs hcall
  obtain rfl | rfl | he := by simpa [es] using he
  · cases hcall
  · cases hcall
    decide

/-- A ttl of `2^62` seconds is accepted and written to the archive, and the archive is refused
when it is loaded 1000 seconds later. -/
theorem dump_of_far_deadline_refused :
    let x := (System.start ⟨0, by decide⟩).run
      [.call (.set [1] [7]), .call (.expire [1] 4611686018427387904)]
    let dump : Clocks := ⟨⟨10^18, by decide⟩, ⟨0, by decide⟩⟩
    let restore : Clocks := ⟨⟨10^18 + 10^12, by decide⟩, ⟨0, by decide⟩⟩
    x.1 = [some .stored, some (.flag 1)] ∧
      fromSnapshot restore.unix (fun _ => restore)
        (x.2.store.toSnapshot dump.instant fun _ => dump) = .error .durationOverflow := by
  intro x dump restore
  refine ⟨by decide, ?_⟩
  have hfar : (match fromSnapshot restore.unix (fun _ => restore)
      (x.2.store.toSnapshot dump.instant fun _ => dump) with
      | .error .durationOverflow => true
      | _ => false) = true := by decide
  split at hfar
  · assumption
  · cases hfar

end Redlike.Store
