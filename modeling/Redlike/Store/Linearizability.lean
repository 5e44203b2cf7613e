import Mathlib.Data.Fintype.Card
import Mathlib.Tactic.FinCases
import Redlike.Store.Placement

/-!
# Concurrent calls are linearizable, except for an overtaken DEL

A DEL reads the clock before it waits for the map lock, so the entry it removes may
have expired in between while the DEL still takes it for live. If the deadline was
set before, the DEL can be placed just before it in time: nobody has seen the key
since. If the deadline was set in between, by an EXPIRE with no time to live that
answered 1, no place is left for the DEL. In every run in which no DEL is overtaken
in this way, and no EXPIRE overflows, the history has a linearization.
-/
namespace Redlike.Store

open Resp Lib
open Linear (Point Linearizes replies final)

variable {ι : Type}

/-- A DEL that waited with its clock reading `now` finds the deadline of an EXPIRE that
read the clock later, left no time to live and answered that it had set it. -/
def Overtaken (x : State ι) (key : Key) (now : Instant) : Prop :=
  ∃ v d j, x.store.hashmap.lookup key = some v ∧ v.expirationTime = some d ∧ now < d ∧
    (x.phase j).acted = some (.expire key 0, d, .flag 1)

/-- The section about to run is neither that of an overtaken DEL nor of an EXPIRE that overflows. -/
def InOrder (x : State ι) (a : Act ι) : Prop :=
  ∀ i c now, a = .finish i → x.phase i = .ready c now →
    Ideal.Representable now.val c (contents x.store) ∧ ∀ key, c = .del key → ¬ Overtaken x key now

theorem inOrder_locked {x : State ι} {i : ι} {c : Call} (hp : x.phase i = .locked c) :
    InOrder x (.finish i) := by
  rintro _ _ _ ⟨⟩ hr
  cases hp.symm.trans hr

theorem inOrder_ready {x : State ι} {i : ι} {c : Call} {now : Instant}
    (hp : x.phase i = .ready c now) (hrep : Ideal.Representable now.val c (contents x.store))
    (hnone : ∀ j, ∀ key, c = .del key → (x.phase j).acted.map (·.1) ≠ some (.expire key 0)) :
    InOrder x (.finish i) := by
  rintro _ _ _ ⟨⟩ hr
  cases hp.symm.trans hr
  refine ⟨hrep, ?_⟩
  rintro key rfl ⟨v, d, j, -, -, -, hacted⟩
  exact hnone j key rfl (by rw [hacted]; rfl)

/-! ## The sweeper and the clock -/

section Environment

variable {init : Ideal} {x : State ι} {L : List (Point ι Call Nat)}

/-- A step of the sweeper: the map is touched only while nobody holds it. -/
theorem Inv.sweepMove (hx : Inv init x L) {s' : Store} {w : Sweeper}
    (hcore : Core init x.clock.val s' x.history L)
    (hmap : s'.hashmap = x.store.hashmap ∨ x.sweeper.holdsMap = true)
    (hexcl : w.holdsMap = true → ∀ j, (x.phase j).holdsMap = false)
    (hswept : ∀ now, w.reading = some now → now ≤ x.clock) :
    Inv init { x with store := s', sweeper := w } L where
  core := hcore
  calls j := by
    refine (hx.calls j).frame (.refl ..) le_rfl ?_ (fun _ => rfl)
    intro hh
    rcases hmap with hs | hw
    · exact hs
    · rw [hx.exclusive.sweeper hw j] at hh
      cases hh
  exclusive := ⟨hx.exclusive.writer, hexcl⟩
  swept := hswept
  expires := hx.expires

theorem Inv.sweepStep (hx : Inv init x L) {y : State ι} {a : Act ι} (hs : SweepStep x a y) :
    Inv init y L := by
  -- wake-ups leave the map alone, and a sleeping sweeper holds no lock
  have quiet (n : Notify) (w : Sweeper) (hm : w.holdsMap = false) (hr : w.reading = none) :
      Inv init { x with store := { x.store with wakeup := n }, sweeper := w } L :=
    hx.sweepMove { hx.core with } (.inl rfl) (by rw [hm]; simp) (by rw [hr]; simp)
  cases hs with
  | lockHeap hs hf => exact quiet _ _ rfl rfl
  | peek hs hf => exact quiet _ _ rfl rfl
  | permit hs hn => exact quiet _ _ rfl rfl
  | park hs hn ht => exact quiet _ _ rfl rfl
  | panic hs ht => exact quiet _ _ rfl rfl
  | wake hs hn => exact quiet _ _ rfl rfl
  | timeout hs ht => exact quiet _ _ rfl rfl
  | alarm hs ht => exact quiet _ _ rfl rfl
  | clock hs =>
    refine hx.sweepMove hx.core (.inl rfl) (by simp [Sweeper.holdsMap]) ?_
    intro now hn
    exact (Option.some.inj hn).ge
  | @pop now hs =>
    refine hx.sweepMove { hx.core with } (.inl rfl) (by simp [Sweeper.holdsMap]) ?_
    intro now' hn
    exact hx.swept now' (by rw [hs]; exact hn)
  | @lockMap now candidates hs hf =>
    refine hx.sweepMove hx.core (.inl rfl) (fun _ => hf.2) ?_
    intro now' hn
    exact hx.swept now' (by rw [hs]; exact hn)
  | @remove now candidates hs =>
    have hle := hx.swept now (by rw [hs]; rfl)
    refine hx.sweepMove ?_ (.inr (by rw [hs]; rfl)) (by simp [Sweeper.holdsMap])
      (by simp [Sweeper.reading])
    exact hx.core.forget ((sweepRemove_agree now candidates x.store).mono hle)
      (sweepRemove_below now candidates x.store)

theorem Inv.tick (hx : Inv init x L) {t : Instant} (ht : x.clock ≤ t) :
    Inv init { x with clock := t } L where
  core := hx.core.advance ht
  calls j := (hx.calls j).frame (.refl ..) ht (fun _ => rfl) (fun _ => rfl)
  exclusive := hx.exclusive
  swept now hn := le_trans (hx.swept now hn) ht
  expires := hx.expires

theorem inv_start (t : Instant) (s : Store) : Inv (ι := ι) (contents s) (.start t s) [] where
  core := {
    lin := Linear.linearizes_nil
    stamped := .nil
    past := by simp [State.start]
    placed := by simp
    agree := .refl _ _
    below := fun _ _ h => h }
  calls i := by simp [State.start, CallInv]
  exclusive := ⟨by simp [State.start, Phase.writesMap], by simp [State.start, Sweeper.holdsMap]⟩
  swept := by simp [State.start, Sweeper.reading]
  expires := by simp

end Environment

/-! ## Calls -/

variable [DecidableEq ι]

section Moves

variable {init : Ideal} {x : State ι} {L : List (Point ι Call Nat)} {i : ι} {p : Phase}

/-- A call moves on; it may leave an event, and takes no place. -/
theorem Inv.move (hx : Inv init x L) {h' : List (Linear.Event ι Call Reply Nat)}
    (hcore : Core init x.clock.val x.store h' L)
    (hu : ∀ j ≠ i, Untouched init x.history h' L L j)
    (hcall : CallInv init x.clock.val x.store h' L i p)
    (hexcl : Exclusive (Function.update x.phase i p) x.sweeper)
    (hexp : ∀ q ∈ L, q.id = i → q.call.takesHeap = true → p.acted = (x.phase i).acted) :
    Inv init { x.move i p with history := h' } L where
  core := hcore
  calls j := by
    by_cases hj : j = i
    · subst hj
      simpa [State.move] using hcall
    · simp only [State.move, Function.update_of_ne hj]
      exact (hx.calls j).frame (hu j hj) le_rfl (fun _ => rfl) (fun _ => rfl)
  exclusive := hexcl
  swept := hx.swept
  expires q hq key secs hc := by
    obtain ⟨now, r, ha, ht, hr⟩ := hx.expires q hq key secs hc
    refine ⟨now, r, ?_, ht, hr⟩
    by_cases hi : q.id = i
    · simp only [State.move, hi, Function.update_self]
      rw [hexp q hq hi (by rw [hc]; rfl), ← hi]
      exact ha
    · simpa only [State.move, Function.update_of_ne hi] using ha

/-- The same for a call without a place, and without an event. -/
theorem Inv.moveOpen (hx : Inv init x L) (hun : i ∉ L.map Point.id)
    (hcall : CallInv init x.clock.val x.store x.history L i p)
    (hexcl : Exclusive (Function.update x.phase i p) x.sweeper) : Inv init (x.move i p) L :=
  hx.move hx.core (fun _ _ => .refl ..) hcall hexcl
    fun _ hq hi _ => absurd (List.mem_map.mpr ⟨_, hq, hi⟩) hun

/-- A call takes its place, and perhaps changes the store. -/
theorem Inv.place (hx : Inv init x L) (hun : i ∉ L.map Point.id) (hhold : (x.phase i).holdsMap = true)
    {L' : List (Point ι Call Nat)} {c : Call} {t : Nat} {s' : Store}
    (hpl : Placed init L L' ⟨i, c, t⟩) (hcore : Core init x.clock.val s' x.history L')
    (hcall : CallInv init x.clock.val s' x.history L' i p)
    (hexcl : Exclusive (Function.update x.phase i p) x.sweeper)
    (hmap : s'.hashmap = x.store.hashmap ∨ (x.phase i).writesMap = true)
    (hexp : c.takesHeap = true → ∃ now r, p.acted = some (c, now, r) ∧ now.val = t ∧
      (i, r) ∈ replies Ideal.step L' init) :
    Inv init { x.move i p with store := s' } L' where
  core := hcore
  calls j := by
    by_cases hj : j = i
    · subst hj
      simpa [State.move] using hcall
    · simp only [State.move, Function.update_of_ne hj]
      refine (hx.calls j).frame (hpl.untouched hj) le_rfl ?_ ?_
      · intro hh
        rcases hmap with hs | hw
        · exact hs
        · exact absurd (hx.exclusive.writer i j hw hh).symm hj
      · intro hw
        exact absurd (hx.exclusive.writer j i hw hhold) hj
  exclusive := hexcl
  swept := hx.swept
  expires q hq key secs hc := by
    rcases (hpl.mem_iff q).mp hq with rfl | hq
    · simp only [State.move, Function.update_self]
      dsimp only at hc
      subst hc
      exact hexp rfl
    · have hi : q.id ≠ i := by
        rintro rfl
        exact hun (List.mem_map_of_mem hq)
      obtain ⟨now, r, ha, ht, hr⟩ := hx.expires q hq key secs hc
      refine ⟨now, r, ?_, ht, hpl.reply _ hr⟩
      simpa only [State.move, Function.update_of_ne hi] using ha

theorem Inv.invoke (hx : Inv init x L) (c : Call) (hp : x.phase i = .idle) :
    Inv init ((x.move i (.invoked c)).record (.invoke i c x.clock.val)) L := by
  have hi := hx.calls i
  rw [hp] at hi
  have hun := hx.core.unplaced hi.1
  apply hx.move (hx.core.invoke hi.1 c)
  · exact fun j hj => untouched_append _ _ _ hj
  · exact {
      invoked := ⟨x.clock.val, le_rfl, List.mem_append_right _ (List.mem_singleton.mpr rfl)⟩
      unplaced := hun
      silent := fun r t hm => hi.2 r t (by simpa using hm) }
  · exact hx.exclusive.release rfl
  · exact fun q hq hid _ => absurd (List.mem_map.mpr ⟨q, hq, hid⟩) hun

theorem Inv.respond (hx : Inv init x L) {c : Call} {now : Instant} {r : Reply}
    (hp : x.phase i = .finished c now r) :
    Inv init ((x.move i (.responded c now r)).record (.respond i r x.clock.val)) L := by
  have hi := hx.calls i
  rw [hp] at hi
  apply hx.move (hx.core.respond hi.2)
  · exact fun j hj => untouched_append _ _ _ hj
  · trivial
  · exact hx.exclusive.release rfl
  · exact fun _ _ _ _ => by rw [hp]; rfl

theorem Inv.drop (hx : Inv init x L) (hp : (x.phase i).droppable = true) :
    Inv init (x.move i .failed) L := by
  apply hx.move hx.core
  · exact fun _ _ => .refl ..
  · trivial
  · exact hx.exclusive.release rfl
  · intro _ _ _ _
    cases hph : x.phase i <;> first | rfl | (rw [hph] at hp; cases hp)

theorem Inv.readClock (hx : Inv init x L) {c : Call} (hp : x.phase i = .locked c)
    (hc : c.isRead = true ∨ ∃ key secs, c = .expire key secs) :
    ∃ L', Inv init (x.move i (.ready c x.clock)) L' := by
  have hi := hx.calls i
  rw [hp] at hi
  have hexcl : Exclusive (Function.update x.phase i (.ready c x.clock)) x.sweeper :=
    hx.exclusive.keep (fun _ => by rw [hp]; rfl) (fun h => by rw [hp]; exact h)
  rcases hc with hc | ⟨key, secs, rfl⟩
  · obtain ⟨hrep, hstore, hheap⟩ := isRead_spec hc x.clock x.store
    obtain ⟨r, hrun, hcore, hr⟩ := hx.core.execute hi le_rfl hx.core.placed hx.core.agree hrep
    rw [hstore] at hcore
    have hreading : Reading init x.store x.history (L ++ [⟨i, c, x.clock.val⟩]) i c x.clock := {
      silent := hi.silent
      call_eq := by
        intro q hq hid
        rcases List.mem_append.mp hq with hq | hq
        · exact absurd (List.mem_map.mpr ⟨q, hq, hid⟩) hi.unplaced
        · rw [List.mem_singleton.mp hq]
      answer := by
        intro r' hrun'
        obtain rfl : r = r' := Option.some.inj (hrun.symm.trans hrun')
        exact hr }
    refine ⟨_, hx.place hi.unplaced (by rw [hp]; rfl) (placed_append init L _) hcore ?_ hexcl
      (.inl rfl) ?_⟩
    · cases c <;> first | exact hreading | cases hc
    · intro hh
      rw [hheap] at hh
      cases hh
  · refine ⟨L, hx.moveOpen hi.unplaced ?_ hexcl⟩
    exact { hi with reading := le_rfl, last := hx.core.placed, agree := hx.core.agree }

theorem Inv.finishSet (hx : Inv init x L) {key : Key} {value : Bytes}
    (hp : x.phase i = .locked (.set key value)) :
    ∃ L', Inv init { x.move i (.finished (.set key value) x.clock .stored) with
      store := (x.store.set key value).2 } L' := by
  have hi := hx.calls i
  rw [hp] at hi
  obtain ⟨r, hrun, hcore, hr⟩ := hx.core.execute hi le_rfl hx.core.placed hx.core.agree trivial
  obtain rfl : Reply.stored = r := Option.some.inj hrun
  refine ⟨_, hx.place hi.unplaced (by rw [hp]; rfl) (placed_append init L _) hcore
    ⟨hi.silent, hr⟩ ?_ (.inr (by rw [hp]; rfl)) (by intro hh; cases hh)⟩
  exact hx.exclusive.release rfl

theorem Inv.finishExpire (hx : Inv init x L) {key : Key} {secs : UInt64} {now : Instant} {r : Reply}
    (hp : x.phase i = .ready (.expire key secs) now)
    (hg : Ideal.Representable now.val (.expire key secs) (contents x.store))
    (hr : ((Call.expire key secs).run now x.store).1 = some r) :
    ∃ L', Inv init { x.move i (.finished (.expire key secs) now r) with
      store := ((Call.expire key secs).run now x.store).2 } L' := by
  have hi := hx.calls i
  rw [hp] at hi
  obtain ⟨r', hrun, hcore, hr'⟩ := hx.core.execute hi.toOpen hi.reading hi.last hi.agree hg
  obtain rfl : r = r' := Option.some.inj (hr.symm.trans hrun)
  refine ⟨_, hx.place hi.unplaced (by rw [hp]; rfl) (placed_append init L _) hcore
    ⟨hi.silent, hr'⟩ ?_ (.inr (by rw [hp]; rfl)) (fun _ => ⟨now, r, rfl, rfl, hr'⟩)⟩
  exact hx.exclusive.release rfl

theorem Inv.finishRead (hx : Inv init x L) {c : Call} {now : Instant} {r : Reply}
    (hi : Reading init x.store x.history L i c now)
    (hc : c.isRead = true) (hr : (c.run now x.store).1 = some r) :
    Inv init { x.move i (.finished c now r) with store := (c.run now x.store).2 } L := by
  obtain ⟨-, hstore, hheap⟩ := isRead_spec hc now x.store
  rw [hstore]
  apply hx.move hx.core
  · exact fun _ _ => .refl ..
  · exact ⟨hi.silent, hi.answer r hr⟩
  · exact hx.exclusive.release rfl
  · intro q hq hid hh
    rw [hi.call_eq q hq hid, hheap] at hh
    cases hh

/-- A DEL that reads the clock late enough answers as if it had read it now. -/
theorem run_del_eq {key : Key} {now clock : Instant} {s : Store}
    (h : (contents s).read now.val key = (contents s).read clock.val key) :
    (Call.del key).run now s = (Call.del key).run clock s := by
  simp only [Call.run, del_eq, h]
  rfl

/-- Either the entry of `key` has expired since `now`, or the two readings agree on it. -/
theorem stale_or_read_eq (m : Ideal) (key : Key) {now clock : Nat} (hle : now ≤ clock) :
    (∃ e d, m key = some e ∧ e.deadline = some d ∧ now < d ∧ d ≤ clock) ∨
      m.read now key = m.read clock key := by
  unfold TtlMap.read
  cases hm : m key with
  | none => exact .inr rfl
  | some e =>
    rcases e with ⟨value, _ | d⟩
    · exact .inr rfl
    · by_cases hs : now < d ∧ d ≤ clock
      · exact .inl ⟨_, d, rfl, rfl, hs⟩
      · right
        have hiff : now < d ↔ clock < d := by omega
        simp [Option.filter_some, TtlMap.live, hiff]

theorem Inv.finishDel (hx : Inv init x L) {key : Key} {now : Instant} {r : Reply}
    (hp : x.phase i = .ready (.del key) now) (hg : ¬ Overtaken x key now)
    (hr : ((Call.del key).run now x.store).1 = some r) :
    ∃ L', Inv init { x.move i (.finished (.del key) now r) with
      store := ((Call.del key).run now x.store).2 } L' := by
  have hi : Clocked x.clock.val x.history L i (.del key) now.val := by
    have hi := hx.calls i
    rwa [hp] at hi
  have hexcl : Exclusive (Function.update x.phase i (.finished (.del key) now r)) x.sweeper :=
    hx.exclusive.release rfl
  rcases stale_or_read_eq (contents x.store) key hi.reading with ⟨e, d, he, hd, hlt, hle⟩ | hread
  · obtain ⟨L', hpl, hcore, hr'⟩ := hx.core.executeStale hi he hd hlt hle (by
      intro p hp' hcall ht hflag
      obtain ⟨d', r', hacted, ht', hr'⟩ := hx.expires p hp' key 0 hcall
      obtain rfl := Linear.reply_unique _ hx.core.lin.nodup hflag hr'
      obtain ⟨v, hv, rfl⟩ := Option.map_eq_some_iff.mp he
      obtain ⟨d'', hd'', rfl⟩ := Option.map_eq_some_iff.mp hd
      obtain rfl : d' = d'' := Fin.ext (ht'.trans ht)
      exact hg ⟨v, d', p.id, hv, hd'', hlt, hcall ▸ hacted⟩)
    have hnow : (contents x.store).read now.val key = some e := by
      rw [TtlMap.read_eq_some]
      exact ⟨he, by simp [TtlMap.live, hd, hlt]⟩
    have hrun : ((Call.del key).run now x.store).1 = some (.value (some e.value)) := by
      simp only [Call.run, del_eq, hnow, Option.map_some]
    obtain rfl : Reply.value (some e.value) = r := Option.some.inj (hrun.symm.trans hr)
    exact ⟨L', hx.place hi.unplaced (by rw [hp]; rfl) hpl hcore ⟨hi.silent, hr'⟩ hexcl
      (.inr (by rw [hp]; rfl)) (by intro hh; cases hh)⟩
  · rw [run_del_eq hread] at hr ⊢
    obtain ⟨r', hrun, hcore, hr'⟩ := hx.core.execute
      (hi.toOpen.frame (.refl init _ _ _) hi.reading) le_rfl hx.core.placed hx.core.agree trivial
    obtain rfl : r = r' := Option.some.inj (hr.symm.trans hrun)
    exact ⟨_, hx.place hi.unplaced (by rw [hp]; rfl) (placed_append init L _) hcore
      ⟨hi.silent, hr'⟩ hexcl (.inr (by rw [hp]; rfl)) (by intro hh; cases hh)⟩

theorem Inv.callStep (hx : Inv init x L) {a : Act ι} {y : State ι} (hs : CallStep x a y)
    (hg : InOrder x a) : ∃ L', Inv init y L' := by
  cases hs with
  | invoke c hp => exact ⟨L, hx.invoke c hp⟩
  | respond hp => exact ⟨L, hx.respond hp⟩
  | drop hp => exact ⟨L, hx.drop hp⟩
  | clock hp hc => exact hx.readClock hp hc
  | set hp => exact hx.finishSet hp
  | @delClock i key hp =>
    have hi := hx.calls i
    rw [hp] at hi
    refine ⟨L, hx.moveOpen hi.unplaced ?_ ?_⟩
    · exact { hi with reading := le_rfl, before := fun c t hm => hx.core.past _ hm }
    · exact hx.exclusive.release rfl
  | @delLock i key now hp hf =>
    have hi := hx.calls i
    rw [hp] at hi
    exact ⟨L, hx.moveOpen hi.unplaced hi (exclusive_acquire hf rfl)⟩
  | @expireHeap i key secs hp hf =>
    have hi := hx.calls i
    rw [hp] at hi
    refine ⟨L, hx.moveOpen hi.unplaced hi ?_⟩
    exact hx.exclusive.release rfl
  | @expireLock i key secs hp hf =>
    have hi := hx.calls i
    rw [hp] at hi
    exact ⟨L, hx.moveOpen hi.unplaced hi (exclusive_acquire hf rfl)⟩
  | @lock i c hp hc hf =>
    have hi := hx.calls i
    rw [hp] at hi
    exact ⟨L, hx.moveOpen hi.unplaced hi (exclusive_acquire hf rfl)⟩
  | @panic i c now hp hr =>
    have hrun := (Call.run_ideal now c x.store (hg i c now rfl hp).1).1
    rw [hr] at hrun
    cases hrun
  | @finish i c now r hp hr =>
    obtain ⟨hrep, hdel⟩ := hg i c now rfl hp
    have hi := hx.calls i
    rw [hp] at hi
    cases c with
    | del key => exact hx.finishDel hp (hdel key rfl) hr
    | expire key secs => exact hx.finishExpire hp hrep hr
    | set key value => exact hi.elim
    | get key => exact ⟨L, hx.finishRead hi rfl hr⟩
    | ttl key => exact ⟨L, hx.finishRead hi rfl hr⟩

theorem Inv.step (hx : Inv init x L) {a : Act ι} {y : State ι} (hs : Step x a y)
    (hg : InOrder x a) : ∃ L', Inv init y L' := by
  cases hs with
  | tick t ht => exact ⟨L, hx.tick ht⟩
  | call hs => exact hx.callStep hs hg
  | sweep hs => exact ⟨L, hx.sweepStep hs⟩

end Moves

theorem inv_run {t : Instant} {s : Store} {x : State ι} (h : Run InOrder (.start t s) x) :
    ∃ L, Inv (contents s) x L := by
  induction h with
  | nil => exact ⟨[], inv_start t s⟩
  | snoc hr hg hs ih =>
    obtain ⟨L, hL⟩ := ih
    exact hL.step hs hg

/-- Whatever the callers, the sweeper and the clock do, as long as no DEL is overtaken and no
EXPIRE overflows, the answers so far are those of calls made one at a time. -/
theorem history_linearizable (t : Instant) (s : Store) (x : State ι)
    (h : Run InOrder (.start t s) x) :
    Linear.Linearizable Ideal.step (contents s) x.history := by
  obtain ⟨L, hL⟩ := inv_run h
  exact ⟨L, hL.core.lin⟩

/-- A DEL that waits while its key expires is placed before the deadline. -/
theorem history_linearizable_expired_del :
    ∃ x : State (Fin 3), Run InOrder (.start ⟨0, by decide⟩ .new) x ∧
      .respond 2 (.value (some [7])) 2000000000 ∈ x.history ∧
      Linear.Linearizable Ideal.step (contents .new) x.history := by
  have skip {x : State (Fin 3)} {a : Act (Fin 3)} (h : ∀ i, a ≠ .finish i) : InOrder x a :=
    fun i _ _ ha => absurd ha (h i)
  have h : Run InOrder (.start ⟨0, by decide⟩ .new) (.start ⟨0, by decide⟩ .new) :=
    .nil (ι := Fin 3) _
  have h := h.snoc (skip (by simp)) (.call (.invoke (i := 0) (.set [1] [7]) rfl))
  have h := h.snoc (skip (by simp))
    (.call (.lock (i := 0) rfl (.inr ⟨_, _, rfl⟩) ⟨rfl, by decide⟩))
  have h := h.snoc (inOrder_locked rfl) (.call (.set (i := 0) rfl))
  have h := h.snoc (skip (by simp)) (.call (.respond (i := 0) rfl))
  have h := h.snoc (skip (by simp)) (.call (.invoke (i := 1) (.expire [1] 1) rfl))
  have h := h.snoc (skip (by simp)) (.call (.expireHeap (i := 1) rfl ⟨rfl, by decide⟩))
  have h := h.snoc (skip (by simp)) (.call (.expireLock (i := 1) rfl ⟨rfl, by decide⟩))
  have h := h.snoc (skip (by simp)) (.call (.clock (i := 1) rfl (.inr ⟨_, _, rfl⟩)))
  have h := h.snoc
    (inOrder_ready (c := .expire [1] 1) rfl (by decide) (by intro _ _ hk; cases hk))
    (.call (.finish (i := 1) (r := .flag 1) rfl rfl))
  have h := h.snoc (skip (by simp)) (.call (.respond (i := 1) rfl))
  have h := h.snoc (skip (by simp)) (.call (.invoke (i := 2) (.del [1]) rfl))
  have h := h.snoc (skip (by simp)) (.call (.delClock (i := 2) rfl))
  have h := h.snoc (skip (by simp)) (.tick ⟨2000000000, by decide⟩ (by decide))
  have h := h.snoc (skip (by simp)) (.call (.delLock (i := 2) rfl ⟨rfl, by decide⟩))
  have h := h.snoc (inOrder_ready (c := .del [1]) rfl trivial (by
      rintro j key ⟨⟩
      revert j
      decide))
    (.call (.finish (i := 2) (r := .value (some [7])) rfl (by decide)))
  have h := h.snoc (skip (by simp)) (.call (.respond (i := 2) rfl))
  exact ⟨_, h, List.mem_append_right _ (List.mem_singleton.mpr rfl),
    history_linearizable _ _ _ h⟩

/-! ## The overtaken DEL -/

def overtakenCall : Fin 3 → Call
  | 0 => .set [1] [7]
  | 1 => .del [1]
  | 2 => .expire [1] 0

/-- SET; DEL reads the clock at 0; EXPIRE with no time to live at 1; DEL gets the lock. -/
def overtakenHistory : List (Linear.Event (Fin 3) Call Reply Nat) :=
  [.invoke 0 (overtakenCall 0) 0, .respond 0 .stored 0, .invoke 1 (overtakenCall 1) 0,
    .invoke 2 (overtakenCall 2) 1, .respond 2 (.flag 1) 1, .respond 1 (.value (some [7])) 1]

/-- Whichever of DEL and EXPIRE comes first, the other one finds the key gone. -/
theorem overtakenHistory_not_linearizable :
    ¬ Linear.Linearizable Ideal.step (contents .new) overtakenHistory := by
  rintro ⟨L, hL⟩
  have hset := hL.replied 0 .stored 0 (by simp [overtakenHistory])
  have hdel := hL.replied 1 (.value (some [7])) 1 (by simp [overtakenHistory])
  have hexpire := hL.replied 2 (.flag 1) 1 (by simp [overtakenHistory])
  have hfirst (j : Fin 3) (hj : j ≠ 0) : Linear.Precedes overtakenHistory 0 j := by
    refine ⟨.stored, 0, overtakenCall j, j.val - 1, ?_⟩
    fin_cases j
    · exact absurd rfl hj
    · simp [overtakenHistory]
    · simp [overtakenHistory]
  have hcall (p : Point (Fin 3) Call Nat) (hp : p ∈ L) : p.call = overtakenCall p.id := by
    obtain ⟨t, -, hm⟩ := hL.invoked p hp
    simp only [overtakenHistory, List.mem_cons, Linear.Event.invoke.injEq, reduceCtorEq,
      List.not_mem_nil, or_false, false_or] at hm
    rcases hm with ⟨hi, hc, -⟩ | ⟨hi, hc, -⟩ | ⟨hi, hc, -⟩ <;> rw [hi, hc]
  have hids : ∀ i, i ∈ L.map Point.id := by
    intro i
    rw [← Linear.replies_ids Ideal.step L (contents .new)]
    fin_cases i
    · exact List.mem_map_of_mem hset
    · exact List.mem_map_of_mem hdel
    · exact List.mem_map_of_mem hexpire
  have hlen : L.length = 3 := by
    have hall : (L.map Point.id).toFinset = Finset.univ := by
      ext i
      simp only [List.mem_toFinset, hids i, Finset.mem_univ]
    rw [← List.length_map Point.id, ← List.toFinset_card_of_nodup hL.nodup, hall]
    rfl
  obtain ⟨p, q, r, rfl⟩ := List.length_eq_three.mp hlen
  have hp := hcall p (by simp)
  have hq := hcall q (by simp)
  have hr := hcall r (by simp)
  obtain ⟨⟨hpq, hpr⟩, hqr⟩ : (p.id ≠ q.id ∧ p.id ≠ r.id) ∧ q.id ≠ r.id := by
    simpa using hL.nodup
  obtain ⟨opq, opr⟩ : ¬ Linear.Precedes overtakenHistory q.id p.id ∧
      ¬ Linear.Precedes overtakenHistory r.id p.id := by
    have ho := (List.pairwise_cons.mp hL.ordered).1
    exact ⟨ho q (by simp), ho r (by simp)⟩
  have hp0 : p.id = 0 := by
    by_contra hne
    have h0 := hids 0
    simp only [List.map_cons, List.mem_cons, List.map_nil, List.not_mem_nil, or_false] at h0
    rcases h0 with h0 | h0 | h0
    · exact hne h0.symm
    · exact opq (h0 ▸ hfirst p.id hne)
    · exact opr (h0 ▸ hfirst p.id hne)
  have rest : ∀ a b c : Fin 3, a = 0 → a ≠ b → a ≠ c → b ≠ c → b = 1 ∧ c = 2 ∨ b = 2 ∧ c = 1 := by
    decide
  rcases rest _ _ _ hp0 hpq hpr hqr with ⟨hq1, hr2⟩ | ⟨hq2, hr1⟩
  · rw [hp0] at hp
    rw [hq1] at hq
    rw [hr2] at hr
    simp [replies, hp, hq, hr, hp0, hq1, hr2, overtakenCall, Ideal.step, TtlMap.read] at hexpire
  · rw [hp0] at hp
    rw [hq2] at hq
    rw [hr1] at hr
    simp [replies, hp, hq, hr, hp0, hq2, hr1, overtakenCall, Ideal.step, TtlMap.read, TtlMap.live,
      Option.filter_some] at hdel
    have hsorted : q.time ≤ r.time := by simpa using (List.pairwise_cons.mp (List.pairwise_cons.mp hL.sorted).2).1
    omega

/-- The EXPIRE answers that it has set the deadline of the live key, and the DEL, whose
section comes after it, that it has removed the live key. -/
theorem overtaken_del_not_linearizable : ∃ x : State (Fin 3),
    Run (fun _ _ => True) (.start ⟨0, by decide⟩ .new) x ∧ x.history = overtakenHistory ∧
      ¬ Linear.Linearizable Ideal.step (contents .new) x.history := by
  have h : Run (fun _ _ => True) (.start ⟨0, by decide⟩ .new) (.start ⟨0, by decide⟩ .new) :=
    .nil (ι := Fin 3) _
  have h := h.snoc trivial (.call (.invoke (i := 0) (.set [1] [7]) rfl))
  have h := h.snoc trivial (.call (.lock (i := 0) rfl (.inr ⟨_, _, rfl⟩) ⟨rfl, by decide⟩))
  have h := h.snoc trivial (.call (.set (i := 0) rfl))
  have h := h.snoc trivial (.call (.respond (i := 0) rfl))
  have h := h.snoc trivial (.call (.invoke (i := 1) (.del [1]) rfl))
  have h := h.snoc trivial (.call (.delClock (i := 1) rfl))
  have h := h.snoc trivial (.tick ⟨1, by decide⟩ (by decide))
  have h := h.snoc trivial (.call (.invoke (i := 2) (.expire [1] 0) rfl))
  have h := h.snoc trivial (.call (.expireHeap (i := 2) rfl ⟨rfl, by decide⟩))
  have h := h.snoc trivial (.call (.expireLock (i := 2) rfl ⟨rfl, by decide⟩))
  have h := h.snoc trivial (.call (.clock (i := 2) rfl (.inr ⟨_, _, rfl⟩)))
  have h := h.snoc trivial (.call (.finish (i := 2) (r := .flag 1) rfl rfl))
  have h := h.snoc trivial (.call (.respond (i := 2) rfl))
  have h := h.snoc trivial (.call (.delLock (i := 1) rfl ⟨rfl, by decide⟩))
  have h := h.snoc trivial (.call (.finish (i := 1) (r := .value (some [7])) rfl (by decide)))
  have h := h.snoc trivial (.call (.respond (i := 1) rfl))
  exact ⟨_, h, rfl, overtakenHistory_not_linearizable⟩

end Redlike.Store
