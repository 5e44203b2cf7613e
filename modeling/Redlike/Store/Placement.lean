import Redlike.Store.Locks

/-!
# Places for concurrent calls

The invariant behind linearizability. It carries the calls placed so far, in an order
and at times that explain the history, and says what is known of every other call in
each of its phases. GET and TTL are placed when they read the clock, the others when
their section runs: last of all, or, for a DEL whose entry has expired since it read
the clock, just before that deadline.
-/
namespace Redlike.Store

open Resp Lib
open Linear (Point Linearizes replies final)

/-- The call on the store, against an ideal map that has everything the store has. -/
theorem Call.run_matches {now : Instant} {c : Call} {s : Store} {m : Ideal}
    (hr : Ideal.Representable now.val c (contents s)) (ha : TtlMap.Agree now.val (contents s) m)
    (hb : TtlMap.Below (contents s) m) :
    (c.run now s).1 = some (Ideal.step now.val c m).1 ∧
      TtlMap.Agree now.val (contents (c.run now s).2) (Ideal.step now.val c m).2 ∧
      TtlMap.Below (contents (c.run now s).2) (Ideal.step now.val c m).2 := by
  obtain ⟨hreply, hagree⟩ := run_ideal now c s hr
  obtain ⟨hreply', hagree'⟩ := Ideal.step_agree ha c
  refine ⟨by rw [hreply, hreply'], hagree.trans hagree', ?_⟩
  cases c with
  | get key => exact hb
  | ttl key => exact hb
  | set key value =>
    simp only [run, Ideal.step, contents_set]
    exact hb.put key _
  | del key =>
    simp only [run, Ideal.step, contents_del]
    exact hb.remove key
  | expire key secs =>
    simp only [run, Ideal.step]
    rw [← ha key]
    cases h : (contents s).read now.val key with
    | none =>
      rw [(expire_absent h secs).2]
      intro k e hk
      exact hb k e (TtlMap.remove_below _ key k e hk)
    | some e =>
      rw [(expire_live h (hr (by rw [h]; rfl))).2]
      exact hb.put key _

/-- GET and TTL only look, and take one lock. -/
theorem isRead_spec {c : Call} (h : c.isRead = true) (now : Instant) (s : Store) :
    Ideal.Representable now.val c (contents s) ∧ (c.run now s).2 = s ∧ c.takesHeap = false := by
  cases c with
  | get key => exact ⟨trivial, rfl, rfl⟩
  | ttl key => exact ⟨trivial, rfl, rfl⟩
  | set key value => cases h
  | del key => cases h
  | expire key secs => cases h

/-! ## A DEL that comes too late -/

section Stale

variable {key : Key} {e : TtlEntry Bytes Nat} {d : Nat}

theorem read_of_dead {m : Ideal} {t : Nat} (hm : m key = some e) (hd : e.deadline = some d)
    (ht : d ≤ t) : m.read t key = none := by
  rw [TtlMap.read_eq_none]
  intro e' he
  obtain rfl : e = e' := Option.some.inj (hm.symm.trans he)
  simp [TtlMap.live, hd, ht]

/-- An entry that is dead at `t` and still stored after a call at `t` was there before,
and the call is the same without it; only an EXPIRE with no time to live can have
made it just now. -/
theorem Ideal.step_without {m : Ideal} {t : Nat} {c : Call} (hd : e.deadline = some d) (ht : d ≤ t)
    (hnew : c = .expire key 0 → t = d → (Ideal.step t c m).1 ≠ .flag 1)
    (he : (Ideal.step t c m).2 key = some e) :
    m key = some e ∧ (Ideal.step t c (m.remove key)).1 = (Ideal.step t c m).1 ∧
      (Ideal.step t c (m.remove key)).2 = TtlMap.remove (Ideal.step t c m).2 key := by
  have same (hm : m key = some e) : (Ideal.step t c (m.remove key)).1 = (Ideal.step t c m).1 :=
    (Ideal.step_agree (TtlMap.agree_remove_dead (read_of_dead hm hd ht)) c).1
  cases c with
  | get k => exact ⟨he, same he, rfl⟩
  | ttl k => exact ⟨he, same he, rfl⟩
  | set k v =>
    simp only [Ideal.step] at he ⊢
    by_cases hk : key = k
    · subst hk
      rw [TtlMap.put_self] at he
      cases he
      cases hd
    · rw [TtlMap.put_other _ _ hk] at he
      exact ⟨he, trivial, TtlMap.put_remove_comm m _ hk⟩
  | del k =>
    simp only [Ideal.step] at he ⊢
    by_cases hk : key = k
    · subst hk
      rw [TtlMap.remove_self] at he
      cases he
    · rw [TtlMap.remove_other _ hk] at he
      exact ⟨he, same he, TtlMap.remove_comm m hk⟩
  | expire k secs =>
    by_cases hk : key = k
    · subst hk
      cases hread : m.read t key with
      | none =>
        simp only [Ideal.step, hread] at he ⊢
        have hagree := TtlMap.agree_remove_dead (read_of_dead he hd ht)
        rw [hagree key, hread]
        exact ⟨he, rfl, rfl⟩
      | some e' =>
        simp only [Ideal.step, hread, TtlMap.put_self] at he hnew
        cases he
        -- the new deadline is not later than `d`, so it is the clock itself
        have hz : t + secs.toNat * nanosPerSec = d := Option.some.inj hd
        have hs : secs.toNat * nanosPerSec = 0 := by omega
        have hs : secs = 0 := by
          rw [← UInt64.toNat_inj]
          exact (Nat.mul_eq_zero.mp hs).resolve_right (by decide)
        subst hs
        exact absurd rfl (hnew rfl (by simpa using hz))
    · have hother : (m.remove key).read t k = m.read t k := by
        simp [TtlMap.read, Ne.symm hk]
      simp only [Ideal.step, hother] at he ⊢
      cases hread : m.read t k with
      | none =>
        rw [hread] at he
        exact ⟨he, rfl, rfl⟩
      | some e' =>
        simp only [hread, TtlMap.put_other _ _ hk] at he
        exact ⟨he, rfl, TtlMap.put_remove_comm m _ hk⟩

/-- The same for a run of calls: what has expired can be taken out beforehand. -/
theorem run_without {ι : Type} {L : List (Point ι Call Nat)} {m : Ideal}
    (hd : e.deadline = some d) (ht : ∀ p ∈ L, d ≤ p.time)
    (hnew : ∀ p ∈ L, p.call = .expire key 0 → p.time = d →
      (p.id, .flag 1) ∉ replies Ideal.step L m)
    (he : final Ideal.step L m key = some e) :
    m key = some e ∧ replies Ideal.step L (m.remove key) = replies Ideal.step L m ∧
      final Ideal.step L (m.remove key) = TtlMap.remove (final Ideal.step L m) key := by
  induction L generalizing m with
  | nil => exact ⟨he, rfl, rfl⟩
  | cons p L ih =>
    simp only [replies, final, List.mem_cons] at hnew he ⊢
    obtain ⟨hm, hreplies, hfinal⟩ := ih (fun q hq => ht q (List.mem_cons_of_mem _ hq))
      (fun q hq hc htime hmem => hnew q (.inr hq) hc htime (.inr hmem)) he
    obtain ⟨hm', hreply, hstep⟩ := Ideal.step_without hd (ht p (List.mem_cons_self ..))
      (fun hc htime hflag => hnew p (.inl rfl) hc htime (.inl (by rw [hflag]))) hm
    exact ⟨hm', by rw [hreply, hstep, hreplies], by rw [hstep, hfinal]⟩

end Stale

/-! ## The invariant -/

variable {ι : Type}

/-- The history and the calls placed so far, against the clock and the store. -/
structure Core (init : Ideal) (clock : Nat) (s : Store) (h : List (Linear.Event ι Call Reply Nat))
    (L : List (Point ι Call Nat)) : Prop where
  lin : Linearizes Ideal.step init h L
  stamped : h.Pairwise fun e e' => e.time ≤ e'.time
  past : ∀ e ∈ h, e.time ≤ clock
  placed : ∀ p ∈ L, p.time ≤ clock
  agree : TtlMap.Agree clock (contents s) (final Ideal.step L init)
  below : TtlMap.Below (contents s) (final Ideal.step L init)

/-- Called at `t` or before, and neither placed nor answered. -/
structure Open (h : List (Linear.Event ι Call Reply Nat)) (L : List (Point ι Call Nat)) (i : ι)
    (c : Call) (t : Nat) : Prop where
  invoked : ∃ t' ≤ t, .invoke i c t' ∈ h
  unplaced : i ∉ L.map Point.id
  silent : ∀ r t, .respond i r t ∉ h

/-- A DEL that has read the clock. -/
structure Clocked (clock : Nat) (h : List (Linear.Event ι Call Reply Nat))
    (L : List (Point ι Call Nat)) (i : ι) (c : Call) (now : Nat) : Prop extends Open h L i c now where
  reading : now ≤ clock
  before : ∀ c' t, .invoke i c' t ∈ h → t ≤ now

/-- An EXPIRE that has read the clock: its locks keep everything as it was then. -/
structure Expiring (init : Ideal) (clock : Nat) (s : Store)
    (h : List (Linear.Event ι Call Reply Nat)) (L : List (Point ι Call Nat)) (i : ι) (c : Call)
    (now : Nat) : Prop extends Open h L i c now where
  reading : now ≤ clock
  last : ∀ p ∈ L, p.time ≤ now
  agree : TtlMap.Agree now (contents s) (final Ideal.step L init)

/-- A GET or TTL that has read the clock, and so has its place and its reply. -/
structure Reading (init : Ideal) (s : Store) (h : List (Linear.Event ι Call Reply Nat))
    (L : List (Point ι Call Nat)) (i : ι) (c : Call) (now : Instant) : Prop where
  silent : ∀ r t, .respond i r t ∉ h
  call_eq : ∀ p ∈ L, p.id = i → p.call = c
  answer : ∀ r, (c.run now s).1 = some r → (i, r) ∈ replies Ideal.step L init

/-- What is known of one call in each of its phases. -/
def CallInv (init : Ideal) (clock : Nat) (s : Store) (h : List (Linear.Event ι Call Reply Nat))
    (L : List (Point ι Call Nat)) (i : ι) : Phase → Prop
  | .idle => (∀ c t, .invoke i c t ∉ h) ∧ ∀ r t, .respond i r t ∉ h
  | .invoked c | .heapHeld c | .locked c => Open h L i c clock
  | .clocked c now => Clocked clock h L i c now.val
  | .ready c now =>
    match c with
    | .del _ => Clocked clock h L i c now.val
    | .expire .. => Expiring init clock s h L i c now.val
    | .get _ | .ttl _ => Reading init s h L i c now
    | .set .. => False
  | .finished _ _ r => (∀ r' t, .respond i r' t ∉ h) ∧ (i, r) ∈ replies Ideal.step L init
  | .responded .. | .failed => True

structure Inv (init : Ideal) (x : State ι) (L : List (Point ι Call Nat)) : Prop where
  core : Core init x.clock.val x.store x.history L
  calls : ∀ i, CallInv init x.clock.val x.store x.history L i (x.phase i)
  exclusive : Exclusive x.phase x.sweeper
  swept : ∀ now, x.sweeper.reading = some now → now ≤ x.clock
  expires : ∀ p ∈ L, ∀ key secs, p.call = .expire key secs →
    ∃ now r, (x.phase p.id).acted = some (p.call, now, r) ∧ now.val = p.time ∧
      (p.id, r) ∈ replies Ideal.step L init

/-! ## What the others keep while one call moves -/

section Frame

variable {init : Ideal} {clock clock' : Nat} {s s' : Store}
  {h h' : List (Linear.Event ι Call Reply Nat)} {L L' : List (Point ι Call Nat)} {i : ι}

/-- The call `i` has the same events, places and replies as before. -/
structure Untouched (init : Ideal) (h h' : List (Linear.Event ι Call Reply Nat))
    (L L' : List (Point ι Call Nat)) (i : ι) : Prop where
  invoke : ∀ c t, .invoke i c t ∈ h' ↔ .invoke i c t ∈ h
  respond : ∀ r t, .respond i r t ∈ h' ↔ .respond i r t ∈ h
  place : ∀ p : Point ι Call Nat, p.id = i → (p ∈ L' ↔ p ∈ L)
  reply : ∀ r, (i, r) ∈ replies Ideal.step L init → (i, r) ∈ replies Ideal.step L' init

theorem Untouched.refl (init : Ideal) (h : List (Linear.Event ι Call Reply Nat))
    (L : List (Point ι Call Nat)) (i : ι) : Untouched init h h L L i :=
  ⟨fun _ _ => .rfl, fun _ _ => .rfl, fun _ _ => .rfl, fun _ hr => hr⟩

theorem untouched_append (init : Ideal) (h : List (Linear.Event ι Call Reply Nat))
    (L : List (Point ι Call Nat)) {e : Linear.Event ι Call Reply Nat} (he : i ≠ e.id) :
    Untouched init h (h ++ [e]) L L i where
  invoke c t := by
    rw [List.mem_append, List.mem_singleton]
    refine or_iff_left ?_
    rintro rfl
    exact he rfl
  respond r t := by
    rw [List.mem_append, List.mem_singleton]
    refine or_iff_left ?_
    rintro rfl
    exact he rfl
  place _ _ := .rfl
  reply _ hr := hr

theorem Open.frame {c : Call} {t t' : Nat} (ho : Open h L i c t) (hu : Untouched init h h' L L' i)
    (ht : t ≤ t') : Open h' L' i c t' where
  invoked := by
    obtain ⟨u, hle, hm⟩ := ho.invoked
    exact ⟨u, le_trans hle ht, (hu.invoke c u).mpr hm⟩
  unplaced hmem := by
    obtain ⟨p, hp, hid⟩ := List.mem_map.mp hmem
    exact ho.unplaced (List.mem_map.mpr ⟨p, (hu.place p hid).mp hp, hid⟩)
  silent r u hm := ho.silent r u ((hu.respond r u).mp hm)

theorem Clocked.frame {c : Call} {now : Nat} (hc : Clocked clock h L i c now)
    (hu : Untouched init h h' L L' i) (hclock : clock ≤ clock') : Clocked clock' h' L' i c now where
  toOpen := hc.toOpen.frame hu le_rfl
  reading := le_trans hc.reading hclock
  before c' t hm := hc.before c' t ((hu.invoke c' t).mp hm)

theorem Expiring.frame {c : Call} {now : Nat} (he : Expiring init clock s h L i c now)
    (hu : Untouched init h h' L L' i) (hclock : clock ≤ clock') (hs : contents s' = contents s)
    (hL : L' = L) : Expiring init clock' s' h' L' i c now where
  toOpen := he.toOpen.frame hu le_rfl
  reading := le_trans he.reading hclock
  last := by rw [hL]; exact he.last
  agree := by rw [hs, hL]; exact he.agree

theorem run_of_isRead {c : Call} (hc : c.isRead = true) (now : Instant)
    (hs : s'.hashmap = s.hashmap) : (c.run now s').1 = (c.run now s).1 := by
  cases c with
  | get key => simp only [Call.run, get, hs]
  | ttl key => simp only [Call.run, ttl, hs]
  | set _ _ => cases hc
  | del _ => cases hc
  | expire _ _ => cases hc

theorem Reading.frame {c : Call} {now : Instant} (hr : Reading init s h L i c now)
    (hc : c.isRead = true) (hu : Untouched init h h' L L' i) (hs : s'.hashmap = s.hashmap) :
    Reading init s' h' L' i c now where
  silent r t hm := hr.silent r t ((hu.respond r t).mp hm)
  call_eq p hp hid := hr.call_eq p ((hu.place p hid).mp hp) hid
  answer r hrun := hu.reply r (hr.answer r (by rw [← hrun, run_of_isRead hc now hs]))

/-- Nobody moves a call that is not touched, as long as the map keeps still for those who
hold it and the places for those who write it. -/
theorem CallInv.frame {p : Phase} (hi : CallInv init clock s h L i p)
    (hu : Untouched init h h' L L' i) (hclock : clock ≤ clock')
    (hmap : p.holdsMap = true → s'.hashmap = s.hashmap)
    (hplaces : p.writesMap = true → L' = L) : CallInv init clock' s' h' L' i p := by
  cases p with
  | idle => exact ⟨fun c t hm => hi.1 c t ((hu.invoke c t).mp hm),
      fun r t hm => hi.2 r t ((hu.respond r t).mp hm)⟩
  | invoked c => exact Open.frame hi hu hclock
  | heapHeld c => exact Open.frame hi hu hclock
  | locked c => exact Open.frame hi hu hclock
  | clocked c now => exact Clocked.frame hi hu hclock
  | ready c now =>
    cases c with
    | get key => exact Reading.frame hi rfl hu (hmap rfl)
    | ttl key => exact Reading.frame hi rfl hu (hmap rfl)
    | set key value => exact hi
    | del key => exact Clocked.frame hi hu hclock
    | expire key secs =>
      exact Expiring.frame hi hu hclock (congrArg mapContents (hmap rfl)) (hplaces rfl)
  | finished c now r =>
    exact ⟨fun r' t hm => hi.1 r' t ((hu.respond r' t).mp hm), hu.reply r hi.2⟩
  | responded c now r => trivial
  | failed => trivial

end Frame

/-! ## Steps of the history, the clock and the places -/

section Core

variable {init : Ideal} {clock : Nat} {s : Store} {h : List (Linear.Event ι Call Reply Nat)}
  {L : List (Point ι Call Nat)} {i : ι}

theorem Core.advance (hc : Core init clock s h L) {clock' : Nat} (hle : clock ≤ clock') :
    Core init clock' s h L where
  lin := hc.lin
  stamped := hc.stamped
  past e he := le_trans (hc.past e he) hle
  placed p hp := le_trans (hc.placed p hp) hle
  agree := hc.agree.mono hle
  below := hc.below

/-- The store forgets what nobody can see. -/
theorem Core.forget (hc : Core init clock s h L) {s' : Store}
    (ha : TtlMap.Agree clock (contents s') (contents s))
    (hb : TtlMap.Below (contents s') (contents s)) : Core init clock s' h L :=
  { hc with
    agree := ha.trans hc.agree
    below := fun k e he => hc.below k e (hb k e he) }

theorem stamped_append (hs : h.Pairwise fun e e' => e.time ≤ e'.time)
    (hp : ∀ e ∈ h, e.time ≤ clock) {e : Linear.Event ι Call Reply Nat} (he : e.time = clock) :
    (h ++ [e]).Pairwise (fun e e' => e.time ≤ e'.time) ∧ ∀ e' ∈ h ++ [e], e'.time ≤ clock := by
  constructor
  · refine List.pairwise_append.mpr ⟨hs, List.pairwise_singleton _ _, ?_⟩
    intro a ha b hb
    rw [List.mem_singleton.mp hb, he]
    exact hp a ha
  · intro e' he'
    rcases List.mem_append.mp he' with he' | he'
    · exact hp e' he'
    · rw [List.mem_singleton.mp he', he]

theorem Core.unplaced (hc : Core init clock s h L) (hi : ∀ c t, .invoke i c t ∉ h) :
    i ∉ L.map Point.id := by
  intro hmem
  obtain ⟨p, hp, rfl⟩ := List.mem_map.mp hmem
  obtain ⟨t, -, hm⟩ := hc.lin.invoked p hp
  exact hi p.call t hm

theorem Core.invoke (hc : Core init clock s h L) (hi : ∀ c t, .invoke i c t ∉ h) (c : Call) :
    Core init clock s (h ++ [.invoke i c clock]) L := by
  have hs := stamped_append hc.stamped hc.past (e := .invoke i c clock) rfl
  exact { hc with lin := hc.lin.invoke (hc.unplaced hi) c clock, stamped := hs.1, past := hs.2 }

theorem Core.respond (hc : Core init clock s h L) {r : Reply}
    (hr : (i, r) ∈ replies Ideal.step L init) :
    Core init clock s (h ++ [.respond i r clock]) L := by
  have hs := stamped_append hc.stamped hc.past (e := .respond i r clock) rfl
  exact { hc with lin := hc.lin.respond hr hc.placed, stamped := hs.1, past := hs.2 }

/-- `L'` is `L` with one more place, which no earlier reply notices. -/
structure Placed (init : Ideal) (L L' : List (Point ι Call Nat)) (p : Point ι Call Nat) : Prop where
  mem_iff : ∀ q, q ∈ L' ↔ q = p ∨ q ∈ L
  reply : ∀ ir ∈ replies Ideal.step L init, ir ∈ replies Ideal.step L' init

theorem placed_append (init : Ideal) (L : List (Point ι Call Nat)) (p : Point ι Call Nat) :
    Placed init L (L ++ [p]) p where
  mem_iff q := by simp [or_comm]
  reply ir hr := by
    rw [Linear.replies_append]
    exact List.mem_append_left _ hr

theorem Placed.untouched {L' : List (Point ι Call Nat)} {p : Point ι Call Nat}
    (hp : Placed init L L' p) {j : ι} (hj : j ≠ p.id) : Untouched init h h L L' j where
  invoke _ _ := .rfl
  respond _ _ := .rfl
  place q hq := by
    rw [hp.mem_iff q]
    refine or_iff_right ?_
    rintro rfl
    exact hj hq.symm
  reply r hr := hp.reply (j, r) hr

/-- The call takes effect last of all, at its clock reading. -/
theorem Core.execute (hc : Core init clock s h L) {c : Call} {now : Instant}
    (ho : Open h L i c now.val) (hle : now.val ≤ clock) (hlast : ∀ p ∈ L, p.time ≤ now.val)
    (ha : TtlMap.Agree now.val (contents s) (final Ideal.step L init))
    (hr : Ideal.Representable now.val c (contents s)) :
    ∃ r, (c.run now s).1 = some r ∧ Core init clock (c.run now s).2 h (L ++ [⟨i, c, now.val⟩]) ∧
      (i, r) ∈ replies Ideal.step (L ++ [⟨i, c, now.val⟩]) init := by
  obtain ⟨hreply, hagree, hbelow⟩ := Call.run_matches hr ha hc.below
  refine ⟨_, hreply, ?_, ?_⟩
  · exact {
      lin := hc.lin.append (hc.lin.toSchedules.append ho.unplaced ho.invoked ho.silent hlast)
      stamped := hc.stamped
      past := hc.past
      placed := by
        intro p hp
        rcases List.mem_append.mp hp with hp | hp
        · exact hc.placed p hp
        · rw [List.mem_singleton.mp hp]
          exact hle
      agree := by
        rw [Linear.final_append]
        exact hagree.mono hle
      below := by
        rw [Linear.final_append]
        exact hbelow }
  · rw [Linear.replies_append]
    exact List.mem_append_right _ (List.mem_singleton.mpr rfl)

/-- A DEL whose entry has expired since its clock reading takes effect just before the
deadline: every later call found the key absent anyway. -/
theorem Core.executeStale (hc : Core init clock s h L) {key : Key} {now : Instant}
    (hcl : Clocked clock h L i (.del key) now.val) {e : TtlEntry Bytes Nat} {d : Nat}
    (he : contents s key = some e) (hd : e.deadline = some d) (hlt : now.val < d) (hle : d ≤ clock)
    (hnew : ∀ p ∈ L, p.call = .expire key 0 → p.time = d →
      (p.id, .flag 1) ∉ replies Ideal.step L init) :
    ∃ L', Placed init L L' ⟨i, .del key, d - 1⟩ ∧ Core init clock (s.del now key).2 h L' ∧
      (i, .value (some e.value)) ∈ replies Ideal.step L' init := by
  obtain ⟨L₁, L₂, rfl, h₁, h₂⟩ := hc.lin.split d
  have hfinal : final Ideal.step L₂ (final Ideal.step L₁ init) key = some e := by
    rw [← Linear.final_append]
    exact hc.below key e he
  obtain ⟨hm, hreplies, hrest⟩ := run_without hd h₂ (by
    intro p hp hcall ht hmem
    apply hnew p (List.mem_append_right _ hp) hcall ht
    rw [Linear.replies_append]
    exact List.mem_append_right _ hmem) hfinal
  have hread : (final Ideal.step L₁ init).read (d - 1) key = some e := by
    rw [TtlMap.read_eq_some]
    refine ⟨hm, ?_⟩
    simp only [TtlMap.live, hd, decide_eq_true_eq]
    omega
  have hsched := hc.lin.toSchedules.insert (p := ⟨i, .del key, d - 1⟩) hcl.unplaced
    (by
      obtain ⟨t, ht, hinv⟩ := hcl.invoked
      exact ⟨t, by dsimp only; omega, hinv⟩)
    hcl.silent (fun q hq => Nat.le_sub_one_of_lt (h₁ q hq))
    (fun q hq => le_trans (Nat.sub_le d 1) (h₂ q hq))
    (by
      intro q hq
      apply hc.lin.not_precedes hc.stamped (List.mem_append_right _ hq)
      intro c t hinv
      exact lt_of_le_of_lt (hcl.before c t hinv) (lt_of_lt_of_le hlt (h₂ q hq)))
  have hlin := hc.lin.insert hsched hreplies
  have hfin : final Ideal.step (L₁ ++ ⟨i, .del key, d - 1⟩ :: L₂) init =
      (final Ideal.step (L₁ ++ L₂) init).remove key := by
    rw [Linear.final_append, Linear.final_append]
    exact hrest
  refine ⟨L₁ ++ ⟨i, .del key, d - 1⟩ :: L₂, ⟨?_, ?_⟩, ?_, ?_⟩
  · intro q
    rw [List.perm_middle.mem_iff, List.mem_cons]
  · intro ir hir
    exact Linear.replies_insert _ hreplies hir
  · exact {
      lin := hlin
      stamped := hc.stamped
      past := hc.past
      placed := by
        intro q hq
        rcases List.mem_cons.mp (List.perm_middle.mem_iff.mp hq) with rfl | hq
        · exact le_trans (Nat.sub_le d 1) hle
        · exact hc.placed q hq
      agree := by
        rw [hfin, contents_del]
        exact hc.agree.remove key
      below := by
        rw [hfin, contents_del]
        exact hc.below.remove key }
  · rw [Linear.replies_append, replies]
    apply List.mem_append_right
    simp [Ideal.step, hread]

end Core

end Redlike.Store
