import Mathlib.Algebra.Order.BigOperators.Group.Finset
import Redlike.Lib.Settling
import Redlike.Store.Serial
import Redlike.Store.Sweep
import Redlike.Store.Wakeup

/-!
# The store comes to rest

EXPIRE takes the heap lock before the map lock, the sweeper never holds both, and the
others take only the map lock: so somebody can always go on. How long this can last without
a new call and with the clock standing still is a matter of the sweeper, which starts over
whenever it is notified or a deadline has come. A notification is paid for by the EXPIRE
that sends it, and a sweep that a deadline has started takes that deadline out of the heap.
-/
namespace Redlike.Store

open Lib Lib.Settling

/-- What the section of a call may give the sweeper to do: an EXPIRE notifies it and adds a
deadline, each good for a round. -/
def Call.cost (c : Call) : Nat := if c.takesHeap then 18 else 0

/-- The steps that a call has left until its response, with what they may cost. -/
def Phase.work : Phase → Nat
  | .invoked c => 5 + c.cost
  | .clocked c _ | .heapHeld c => 4 + c.cost
  | .locked c => 3 + c.cost
  | .ready c _ => 2 + c.cost
  | .finished .. => 1
  | .idle | .responded .. | .failed => 0

/-- The call has been answered or has failed, or has never been made. -/
def Phase.IsOver : Phase → Prop
  | .idle | .responded .. | .failed => True
  | _ => False

instance (p : Phase) : Decidable p.IsOver := by
  cases p <;> unfold Phase.IsOver <;> infer_instance

/-- How often the sweeper can be woken without another notification. -/
def Notify.signals (n : Notify) : Nat :=
  (if n.permit then 1 else 0) + if n.waiter = some true then 1 else 0

/-- How many deadlines in the heap have come. -/
def ExpirationHeap.due (heap : ExpirationHeap) (t : Instant) : Nat :=
  heap.entries.countP fun e => decide (e.1 ≤ t)

namespace Sweeper

/-- The place of the sweeper in its round. -/
def rank : Sweeper → Nat
  | idle => 8
  | heapHeld => 7
  | clocked _ => 6
  | popped .. => 5
  | mapHeld .. => 4
  | swept => 3
  | peeked _ => 2
  | parked _ => 1
  | dead _ => 0

/-- Whether the round in progress is about to take a deadline that has come. -/
def takes (clock : Instant) (heap : ExpirationHeap) : Sweeper → Nat
  | idle | heapHeld => min 1 (heap.due clock)
  | clocked now => min 1 (heap.due now)
  | _ => 0

end Sweeper

/-- What the sweeper has left to do: a round for each signal and for each deadline that has
come, except the one that the round in progress takes. -/
def sweepWork (clock : Instant) (s : Store) (w : Sweeper) : Nat :=
  9 * (s.wakeup.signals + (s.expirationHeap.due clock - w.takes clock s.expirationHeap)) + w.rank

/-! ## Heap and notifications -/

theorem ExpirationHeap.due_push (heap : ExpirationHeap) (e : Instant × Key) (t : Instant) :
    (heap.push e).due t = heap.due t + if e.1 ≤ t then 1 else 0 := by
  have hperm : (heap.push e).entries.Perm (e :: heap.entries) := List.perm_orderedInsert _ _ _
  rw [due, hperm.countP_eq, List.countP_cons, due]
  simp

theorem ExpirationHeap.due_pos {heap : ExpirationHeap} {t d : Instant} {k : Key}
    (h : (d, k) ∈ heap.entries) (hd : d ≤ t) : 0 < heap.due t :=
  List.countP_pos_iff.mpr ⟨(d, k), h, by simpa using hd⟩

/-- What a sweep pops is no longer due. -/
theorem due_sweepPop (s : Store) {now clock : Instant} (h : now ≤ clock) :
    (s.sweepPop now).2.expirationHeap.due clock + s.expirationHeap.due now =
      s.expirationHeap.due clock := by
  have hrest : (s.sweepPop now).2.expirationHeap.entries =
      s.expirationHeap.entries.filter fun e => now < e.1 :=
    popDue_rest s.expirationHeap.sorted []
  rw [ExpirationHeap.due, hrest, ExpirationHeap.due, ExpirationHeap.due]
  rw [List.countP_filter]
  induction s.expirationHeap.entries with
  | nil => rfl
  | cons e l ih =>
    rw [List.countP_cons, List.countP_cons, List.countP_cons]
    by_cases hn : e.1 ≤ now
    · have hc : e.1 ≤ clock := le_trans hn h
      simp [hn, hc, not_lt_of_ge hn]
      omega
    · by_cases hc : e.1 ≤ clock
      · simp [hn, hc, lt_of_not_ge hn]
        omega
      · simp [hn, hc]
        omega

theorem Notify.signals_notifyOne (n : Notify) : n.notifyOne.signals ≤ n.signals + 1 := by
  obtain ⟨permit, waiter⟩ := n
  cases permit <;> rcases waiter with _ | _ | _ <;> decide

/-- What a call gives the sweeper to do. -/
theorem Call.wakes (now : Instant) (c : Call) (s : Store) :
    ((c.run now s).2.expirationHeap = s.expirationHeap ∧ (c.run now s).2.wakeup = s.wakeup) ∨
      (c.takesHeap = true ∧ (c.run now s).2.wakeup = s.wakeup.notifyOne ∧
        ∃ e, (c.run now s).2.expirationHeap = s.expirationHeap.push e) := by
  cases c with
  | expire key secs =>
    simp only [run, Store.expire]
    split
    · exact .inl ⟨rfl, rfl⟩
    · split
      · exact .inl ⟨rfl, rfl⟩
      · split
        · exact .inl ⟨rfl, rfl⟩
        · exact .inr ⟨rfl, rfl, _, rfl⟩
  | _ => exact .inl ⟨rfl, rfl⟩

theorem Sweeper.takes_mono (w : Sweeper) (clock : Instant) {heap heap' : ExpirationHeap}
    (h : ∀ t, heap.due t ≤ heap'.due t) : w.takes clock heap ≤ w.takes clock heap' := by
  have := h clock
  cases w with
  | clocked now =>
    have := h now
    simp only [takes]
    omega
  | idle => simp only [takes]; omega
  | heapHeld => simp only [takes]; omega
  | _ => exact Nat.le_refl _

theorem sweepWork_run (clock now : Instant) (c : Call) (s : Store) (w : Sweeper) :
    sweepWork clock (c.run now s).2 w ≤
      sweepWork clock s w + c.cost := by
  rcases c.wakes now s with ⟨hh, hw⟩ | ⟨hc, hw, e, hh⟩
  · rw [sweepWork, hh, hw, sweepWork]
    omega
  · have hs := s.wakeup.signals_notifyOne
    have hd := s.expirationHeap.due_push e clock
    have hm : w.takes clock s.expirationHeap ≤ w.takes clock (s.expirationHeap.push e) :=
      w.takes_mono clock fun t => by rw [ExpirationHeap.due_push]; omega
    rw [sweepWork, hh, hw, sweepWork, Call.cost, if_pos hc]
    split at hd <;> omega

/-! ## Steps and what they cost -/

section Steps

variable {ι : Type} {x y : State ι}

namespace Sweeper

/-- The deadline that the sweeper has chosen. -/
def target : Sweeper → Option Instant
  | peeked target | parked target => target
  | dead target => some target
  | _ => none

end Sweeper

/-- The target that the sweeper has chosen is still in the heap, and one that it has died of has
no timer. -/
structure Targeted (s : Store) (w : Sweeper) : Prop where
  inHeap : ∀ d, w.target = some d → ∃ k, (d, k) ∈ s.expirationHeap.entries
  killed : ∀ d, w = .dead d → ¬ HasTimer d

theorem Targeted.of_awake {s : Store} {w : Sweeper} (h : 2 < w.rank) : Targeted s w := by
  cases w with
  | peeked | parked | dead => exact absurd h (by simp [Sweeper.rank])
  | _ => exact ⟨nofun, nofun⟩

theorem Targeted.sweepStep (hx : Targeted x.store x.sweeper) {a : Act ι} (hs : SweepStep x a y) :
    Targeted y.store y.sweeper := by
  cases hs with
  | peek hs hf =>
    refine ⟨fun d hd => ?_, nofun⟩
    obtain ⟨⟨d', k⟩, he, rfl⟩ := Option.map_eq_some_iff.mp hd
    exact ⟨k, List.mem_of_mem_head? he⟩
  | park hs hn ht =>
    rw [hs] at hx
    exact ⟨hx.inHeap, nofun⟩
  | panic hs ht =>
    rw [hs] at hx
    refine ⟨hx.inHeap, fun d hd => ?_⟩
    cases hd
    exact ht
  | _ => exact .of_awake (by simp [Sweeper.rank])

/-- A deadline that ends the sleep is what the next round takes. -/
theorem sweepWork_timeout (hx : Targeted x.store x.sweeper) {d : Instant}
    (hs : x.sweeper = .peeked (some d) ∨ x.sweeper = .parked (some d)) (hd : d ≤ x.clock) :
    sweepWork x.clock { x.store with wakeup :=
        ⟨x.store.wakeup.permit || x.store.wakeup.waiter == some true, none⟩ } .idle <
      sweepWork x.clock x.store x.sweeper := by
  obtain ⟨htarget, htakes, hrank⟩ : x.sweeper.target = some d ∧
      x.sweeper.takes x.clock x.store.expirationHeap = 0 ∧ 0 < x.sweeper.rank := by
    rcases hs with hs | hs
    · rw [hs]; exact ⟨rfl, rfl, Nat.succ_pos _⟩
    · rw [hs]; exact ⟨rfl, rfl, Nat.succ_pos _⟩
  obtain ⟨k, hk⟩ := hx.inHeap d htarget
  have hdue := ExpirationHeap.due_pos hk hd
  have hsignals : Notify.signals
      ⟨x.store.wakeup.permit || x.store.wakeup.waiter == some true, none⟩ ≤
        x.store.wakeup.signals := by
    obtain ⟨permit, waiter⟩ := x.store.wakeup
    cases permit <;> rcases waiter with _ | _ | _ <;> decide
  simp only [sweepWork, htakes]
  simp only [Sweeper.takes, Sweeper.rank]
  omega

/-- Every step of the sweeper lowers what it has left to do. -/
theorem SweepStep.work_lt {a : Act ι} (hs : SweepStep x a y) (hg : Guarded x)
    (ht : Targeted x.store x.sweeper) :
    sweepWork x.clock y.store y.sweeper < sweepWork x.clock x.store x.sweeper := by
  cases hs with
  | lockHeap hs hf =>
    rw [hs]
    simp only [sweepWork, Sweeper.takes, Sweeper.rank]
    omega
  | clock hs =>
    rw [hs]
    simp only [sweepWork, Sweeper.takes, Sweeper.rank]
    omega
  | @pop now hs =>
    have hnow : now ≤ x.clock := hg.swept now (by rw [hs]; rfl)
    have hdue := due_sweepPop x.store hnow
    have hsame : (x.store.sweepPop now).2.wakeup = x.store.wakeup := rfl
    rw [hs]
    simp only [sweepWork, Sweeper.takes, Sweeper.rank, hsame]
    omega
  | lockMap hs hf =>
    rw [hs]
    simp only [sweepWork, Sweeper.takes, Sweeper.rank]
    omega
  | remove hs =>
    rw [hs]
    simp only [sweepWork, sweepRemove, Sweeper.takes, Sweeper.rank]
    omega
  | peek hs hf =>
    rw [hs]
    simp only [sweepWork, Sweeper.takes, Sweeper.rank]
    omega
  | permit hs hn =>
    have hsignals : Notify.signals ⟨false, x.store.wakeup.waiter⟩ + 1 =
        x.store.wakeup.signals := by
      simp only [Notify.signals, hn, Bool.false_eq_true, ↓reduceIte]
      omega
    rw [hs]
    simp only [sweepWork, Sweeper.takes, Sweeper.rank]
    omega
  | panic hs htimer =>
    rw [hs]
    simp only [sweepWork, Sweeper.takes, Sweeper.rank]
    omega
  | park hs hn htimer =>
    have hsignals : Notify.signals ⟨x.store.wakeup.permit, some false⟩ ≤
        x.store.wakeup.signals := by
      simp [Notify.signals]
    rw [hs]
    simp only [sweepWork, Sweeper.takes, Sweeper.rank]
    omega
  | wake hs hn =>
    have hsignals : Notify.signals ⟨x.store.wakeup.permit, none⟩ + 1 =
        x.store.wakeup.signals := by
      simp [Notify.signals, hn]
    rw [hs]
    simp only [sweepWork, Sweeper.takes, Sweeper.rank]
    omega
  | @timeout target hs hd => exact sweepWork_timeout ht hs (Fin.le_def.mpr (by omega))
  | alarm hs hd => exact sweepWork_timeout ht hs hd

variable [DecidableEq ι]

/-- One call moves on, and pays for what it gives the sweeper to do. -/
structure Advances (x : State ι) (i : ι) (y : State ι) : Prop where
  clock : y.clock = x.clock
  sweeper : y.sweeper = x.sweeper
  running : ¬ (x.phase i).IsOver
  phase : ∃ p, y.phase = Function.update x.phase i p ∧
    sweepWork x.clock y.store x.sweeper + p.work <
      sweepWork x.clock x.store x.sweeper + (x.phase i).work

/-- The call that a step belongs to. -/
def Act.caller : Act ι → Option ι
  | .tick _ | .sweep | .alarm => none
  | .invoke i _ | .readClock i | .lockHeap i | .lockMap i | .finish i | .respond i | .drop i => some i

theorem CallStep.advances {a : Act ι} (h : CallStep x a y) (ha : ∀ i c, a ≠ .invoke i c) :
    ∃ i, a.caller = some i ∧ Advances x i y := by
  have moves {i : ι} {p : Phase} (hx : ¬ (x.phase i).IsOver) (hw : p.work < (x.phase i).work) :
      Advances x i (x.move i p) :=
    ⟨rfl, rfl, hx, p, rfl, Nat.add_lt_add_left hw _⟩
  cases h with
  | invoke c hp => exact absurd rfl (ha _ _)
  | delClock hp | delLock hp | expireHeap hp | expireLock hp | lock hp | clock hp =>
    refine ⟨_, rfl, moves (by simp [hp, Phase.IsOver]) ?_⟩
    rw [hp]
    simp only [Phase.work]
    omega
  | @set i key value hp =>
    have hrun := sweepWork_run x.clock x.clock (.set key value) x.store x.sweeper
    refine ⟨i, rfl, rfl, rfl, by simp [hp, Phase.IsOver], _, rfl, ?_⟩
    rw [hp]
    simp only [Call.run, Phase.work] at hrun ⊢
    omega
  | @finish i c now r hp hr =>
    have hrun := sweepWork_run x.clock now c x.store x.sweeper
    refine ⟨i, rfl, rfl, rfl, by simp [hp, Phase.IsOver], _, rfl, ?_⟩
    rw [hp]
    simp only [Phase.work]
    omega
  | @panic i c now hp hr =>
    have hrun := sweepWork_run x.clock now c x.store x.sweeper
    refine ⟨i, rfl, rfl, rfl, by simp [hp, Phase.IsOver], _, rfl, ?_⟩
    rw [hp]
    simp only [Phase.work]
    omega
  | @respond i c now r hp =>
    refine ⟨i, rfl, rfl, rfl, by simp [hp, Phase.IsOver], _, rfl, ?_⟩
    rw [hp]
    exact Nat.lt_succ_self _
  | @drop i hp =>
    cases hq : x.phase i with
    | invoked | clocked | heapHeld | locked | ready =>
      refine ⟨i, rfl, moves (by simp [hq, Phase.IsOver]) ?_⟩
      rw [hq]
      simp only [Phase.work]
      omega
    | idle | finished | responded | failed =>
      rw [hq] at hp
      cases hp

/-! ## What holds along a run -/

/-- A call waits only where its own code does. -/
def Phase.Fitting : Phase → Prop
  | .clocked c _ => ∃ key, c = .del key
  | .heapHeld c => ∃ key secs, c = .expire key secs
  | .locked c => ∀ key, c ≠ .del key
  | _ => True

theorem CallStep.fitting {a : Act ι} (hx : ∀ i, (x.phase i).Fitting) (h : CallStep x a y) :
    ∀ i, (y.phase i).Fitting := by
  have moved {i : ι} {p : Phase} (hp : p.Fitting) :
      ∀ j, (Function.update x.phase i p j).Fitting :=
    (Function.forall_update_iff x.phase fun _ p => p.Fitting).mpr ⟨hp, fun j _ => hx j⟩
  cases h with
  | delClock hp => exact moved ⟨_, rfl⟩
  | expireHeap hp hf => exact moved ⟨_, _, rfl⟩
  | expireLock hp hf => exact moved fun _ h => by cases h
  | lock hp hc hf =>
    refine moved fun key h => ?_
    subst h
    rcases hc with hc | ⟨_, _, hc⟩
    · cases hc
    · cases hc
  | _ => exact moved trivial

theorem Targeted.callStep {a : Act ι} (hx : Targeted x.store x.sweeper) (h : CallStep x a y) :
    Targeted y.store y.sweeper := by
  have runs (now : Instant) (c : Call) : Targeted (c.run now x.store).2 x.sweeper := by
    refine ⟨fun d hd => ?_, hx.killed⟩
    obtain ⟨k, hk⟩ := hx.inHeap d hd
    exact ⟨k, c.heap_run hk⟩
  cases h with
  | @set i key value hp => exact runs x.clock (.set key value)
  | finish hp hr => exact runs _ _
  | panic hp hr => exact runs _ _
  | _ => exact hx

/-- The invariants of locks, wake-ups and deadlines together. -/
structure Orderly (x : State ι) : Prop where
  guarded : Guarded x
  alert : Alert x.sweeper x.store
  targeted : Targeted x.store x.sweeper
  covered : Covered x.store x.sweeper
  fitting : ∀ i, (x.phase i).Fitting

theorem Orderly.callStep (hx : Orderly x) {a : Act ι} (h : CallStep x a y) : Orderly y where
  guarded := hx.guarded.callStep h
  alert := hx.alert.callStep h
  targeted := hx.targeted.callStep h
  covered := hx.covered.callStep h
  fitting := h.fitting hx.fitting

omit [DecidableEq ι] in
theorem Orderly.sweepStep (hx : Orderly x) {a : Act ι} (h : SweepStep x a y) : Orderly y where
  guarded := hx.guarded.sweepStep h
  alert := hx.alert.sweepStep h
  targeted := hx.targeted.sweepStep h
  covered := hx.covered.sweepStep h
  fitting := by cases h <;> exact hx.fitting

theorem Orderly.step (hx : Orderly x) {a : Act ι} (h : Step x a y) : Orderly y := by
  cases h with
  | tick t ht => exact ⟨hx.guarded.step (.tick t ht), hx.alert, hx.targeted, hx.covered, hx.fitting⟩
  | call h => exact hx.callStep h
  | sweep h => exact hx.sweepStep h

omit [DecidableEq ι] in
theorem orderly_start (t : Instant) {s : Store} (hs : Started s) : Orderly (.start t s : State ι) where
  guarded := guarded_start t s
  alert := by
    rcases hs with rfl | ⟨now, clocks, snapshot, hs⟩
    · exact rfl
    · exact congrArg Notify.waiter (fromSnapshot_wakeup hs)
  targeted := .of_awake (by simp [State.start, Sweeper.rank])
  covered := hs.heapCovers.covered _
  fitting := fun _ => trivial

theorem orderly_run {G : State ι → Act ι → Prop} {t : Instant} {s : Store} (hs : Started s)
    (hr : Run G (.start t s) x) : Orderly x := by
  induction hr with
  | nil => exact orderly_start t hs
  | snoc _ _ hstep ih => exact ih.step hstep

/-! ## At rest -/

/-- The steps that calls and sweeper make by themselves: time passes, calls are made and
tasks are dropped from outside. -/
def Act.Own : Act ι → Prop
  | .tick _ | .invoke .. | .drop _ => False
  | _ => True

/-- The own steps that are bound to come, also while the timer waits for its millisecond. -/
def Act.Certain : Act ι → Prop
  | .tick _ | .invoke .. | .drop _ | .alarm => False
  | _ => True

/-- The steps up to the end of the section, which do not depend on who made the call. -/
def Act.Inner : Act ι → Prop
  | .tick _ | .invoke .. | .drop _ | .respond _ | .alarm => False
  | _ => True

omit [DecidableEq ι] in
theorem Act.Certain.own {a : Act ι} (h : a.Certain) : a.Own := by
  cases a with
  | tick | invoke | drop | alarm => cases h
  | _ => trivial

omit [DecidableEq ι] in
theorem Act.Inner.certain {a : Act ι} (h : a.Inner) : a.Certain := by
  cases a with
  | tick | invoke | drop | respond | alarm => cases h
  | _ => trivial

/-- An inner step is one of a call whose section has not run, and fails only as it runs. -/
theorem CallStep.inner {a : Act ι} (h : CallStep x a y) (ha : a.Inner) :
    ∃ i, (a = .readClock i ∨ a = .lockHeap i ∨ a = .lockMap i ∨ a = .finish i) ∧
      (x.phase i).droppable = true ∧ (y.phase i = .failed → a = .finish i) := by
  obtain ⟨i, p, hm, hphase⟩ := h.moves
  cases hm with
  | invoke | respond | drop => cases ha
  | panic hp hr => exact ⟨i, .inr (.inr (.inr rfl)), by rw [hp]; rfl, fun _ => rfl⟩
  | finish hp hplace =>
    exact ⟨i, .inr (.inr (.inr rfl)), by rw [droppable_eq_pending, hp]; rfl, fun _ => rfl⟩
  | advance hi hp hnew =>
    refine ⟨i, ?_, by rw [droppable_eq_pending, hp]; rfl, fun hfail => ?_⟩
    · rcases hi with hi | hi | hi
      · exact .inl hi
      · exact .inr (.inl hi)
      · exact .inr (.inr (.inl hi))
    · rw [hphase, Function.update_self] at hfail
      rw [hfail] at hnew
      cases hnew

section Rest

variable (hx : Orderly x) (hr : AtRest Step Act.Inner x)
include hx hr

/-- Whoever has the map lock can go on. -/
theorem Orderly.map_free (i : ι) : (x.phase i).holdsMap = false := by
  have hf := hx.fitting i
  cases hp : x.phase i with
  | locked c =>
    exfalso
    rw [hp] at hf
    cases c with
    | get key => exact hr (.readClock i) _ trivial (.call (.clock hp (.inl rfl)))
    | ttl key => exact hr (.readClock i) _ trivial (.call (.clock hp (.inl rfl)))
    | set key value => exact hr (.finish i) _ trivial (.call (.set hp))
    | del key => exact hf key rfl
    | expire key secs => exact hr (.readClock i) _ trivial (.call (.clock hp (.inr ⟨_, _, rfl⟩)))
  | ready c now =>
    exfalso
    cases hrun : (c.run now x.store).1 with
    | none => exact hr (.finish i) _ trivial (.call (.panic hp hrun))
    | some r => exact hr (.finish i) _ trivial (.call (.finish hp hrun))
  | _ => rfl

theorem Orderly.mapFree (c : Call) : x.MapFree c := by
  refine ⟨?_, fun j => ?_⟩
  · cases hw : x.sweeper with
    | mapHeld now candidates => exact absurd (.sweep (.remove hw)) (hr .sweep _ trivial)
    | _ => rfl
  · have hj := hx.map_free hr j
    split
    · by_contra hw
      rw [writesMap_holdsMap (by simpa using hw)] at hj
      cases hj
    · exact hj

/-- Then whoever has the heap lock can take the map lock. -/
theorem Orderly.heapFree : x.HeapFree := by
  refine ⟨?_, fun i => ?_⟩
  · cases hw : x.sweeper with
    | heapHeld => exact absurd (.sweep (.clock hw)) (hr .sweep _ trivial)
    | clocked now => exact absurd (.sweep (.pop hw)) (hr .sweep _ trivial)
    | _ => rfl
  · have hmap := hx.map_free hr i
    have hf := hx.fitting i
    cases hp : x.phase i with
    | heapHeld c =>
      rw [hp] at hf
      obtain ⟨key, secs, rfl⟩ := hf
      exact absurd (.call (.expireLock hp (hx.mapFree hr _))) (hr (.lockMap i) _ trivial)
    | locked c => rw [hp] at hmap; cases hmap
    | ready c now => rw [hp] at hmap; cases hmap
    | _ => rfl

/-- So every call gets its first lock, and its last. -/
theorem Orderly.not_droppable (i : ι) : (x.phase i).droppable = false := by
  have hmap := hx.map_free hr i
  have hheap := (hx.heapFree hr).2 i
  have hf := hx.fitting i
  cases hp : x.phase i with
  | idle | finished | responded | failed => rfl
  | locked c => rw [hp] at hmap; cases hmap
  | ready c now => rw [hp] at hmap; cases hmap
  | heapHeld c => rw [hp] at hheap; cases hheap
  | clocked c now =>
    rw [hp] at hf
    obtain ⟨key, rfl⟩ := hf
    exact absurd (.call (.delLock hp (hx.mapFree hr _))) (hr (.lockMap i) _ trivial)
  | invoked c =>
    exfalso
    have hfree := hx.mapFree hr c
    cases c with
    | get key => exact hr (.lockMap i) _ trivial (.call (.lock hp (.inl rfl) hfree))
    | ttl key => exact hr (.lockMap i) _ trivial (.call (.lock hp (.inl rfl) hfree))
    | set key value => exact hr (.lockMap i) _ trivial (.call (.lock hp (.inr ⟨_, _, rfl⟩) hfree))
    | del key => exact hr (.readClock i) _ trivial (.call (.delClock hp))
    | expire key secs =>
      exact hr (.lockHeap i) _ trivial (.call (.expireHeap hp (hx.heapFree hr)))

/-- And the sweeper goes on until it sleeps, and longer if the timer was bound to go off, unless
there is no timer for its target. -/
theorem Orderly.sweeper_parked :
    (∃ target, x.sweeper = .parked target ∧ x.store.wakeup.waiter = some false ∧
      ∀ d, target = some d → x.clock.val < d.val + timerRounding) ∨ ∃ d, x.sweeper = .dead d := by
  cases hw : x.sweeper with
  | idle => exact absurd (.sweep (.lockHeap hw (hx.heapFree hr))) (hr .sweep _ trivial)
  | heapHeld => exact absurd (.sweep (.clock hw)) (hr .sweep _ trivial)
  | clocked now => exact absurd (.sweep (.pop hw)) (hr .sweep _ trivial)
  | popped now candidates =>
    exact absurd (.sweep (.lockMap hw ⟨by rw [hw]; rfl, hx.map_free hr⟩)) (hr .sweep _ trivial)
  | mapHeld now candidates => exact absurd (.sweep (.remove hw)) (hr .sweep _ trivial)
  | swept => exact absurd (.sweep (.peek hw (hx.heapFree hr))) (hr .sweep _ trivial)
  | peeked target =>
    exfalso
    cases hn : x.store.wakeup.permit with
    | true => exact hr .sweep _ trivial (.sweep (.permit hw hn))
    | false =>
      by_cases ht : ∀ d, target = some d → HasTimer d
      · exact hr .sweep _ trivial (.sweep (.park hw hn ht))
      · push Not at ht
        obtain ⟨d, rfl, hd⟩ := ht
        exact hr .sweep _ trivial (.sweep (.panic hw hd))
  | dead d => exact .inr ⟨d, rfl⟩
  | parked target =>
    refine .inl ⟨target, rfl, ?_, ?_⟩
    · have ha := hx.alert
      rw [hw] at ha
      rcases ha with hwoken | ⟨hasleep, -⟩
      · exact absurd (.sweep (.wake hw hwoken)) (hr .sweep _ trivial)
      · exact hasleep
    · intro d hd
      subst hd
      by_contra hdue
      exact hr .sweep _ trivial (.sweep (.timeout (.inr hw) (Nat.le_of_not_lt hdue)))

end Rest

/-- There is nothing else to rest in. -/
theorem atRest_of_parked {target : Option Instant} (hw : x.sweeper = .parked target)
    (hn : x.store.wakeup.waiter = some false)
    (hlate : ∀ d, target = some d → x.clock.val < d.val + timerRounding)
    (hover : ∀ i, (x.phase i).IsOver) : AtRest Step Act.Certain x := by
  intro a y ha hs
  cases hs with
  | tick t ht => exact ha
  | sweep hs =>
    cases hs with
    | wake _ hwoken => rw [hn] at hwoken; cases hwoken
    | alarm => exact ha
    | @timeout d hs hd =>
      rcases hs with hs | hs
      · rw [hw] at hs; cases hs
      · rw [hw] at hs
        injection hs with hs
        exact absurd hd (not_le_of_gt (hlate d hs))
    | lockHeap hs | clock hs | pop hs | lockMap hs | remove hs | peek hs | permit hs | park hs
    | panic hs =>
      rw [hw] at hs
      cases hs
  | call hs =>
    obtain ⟨i, -, hi⟩ := hs.advances fun i c hc => by subst hc; exact ha
    exact hi.running (hover i)

/-- In every reachable state in which nothing is bound to go on by itself, however it was reached,
each call has been answered or has failed. So no two tasks ever wait for each other. The sweeper
sleeps, and what is left in the map or in the heap has not expired, or less than a millisecond ago:
all that while the heap has no deadline that is too late for the timer. Where one has ended
the sweeper, it is still in the heap. -/
theorem rest_is_clean {G : State ι → Act ι → Prop} {t : Instant} {s : Store} (hs : Started s)
    (hr : Run G (.start t s) x) (hrest : AtRest Step Act.Certain x) :
    (∀ i, (x.phase i).IsOver) ∧
    ((∀ e ∈ x.store.expirationHeap.entries, HasTimer e.1) →
      (∃ target, x.sweeper = .parked target) ∧
      (∀ e ∈ x.store.expirationHeap.entries, x.clock.val < e.1.val + timerRounding) ∧
      ∀ k v d, x.store.hashmap.lookup k = some v → v.expirationTime = some d →
        x.clock.val < d.val + timerRounding) := by
  have hx := orderly_run hs hr
  have hinner : AtRest Step Act.Inner x := fun a y ha => hrest a y ha.certain
  have hover (i : ι) : (x.phase i).IsOver := by
    have hi := hx.not_droppable hinner i
    cases hp : x.phase i with
    | idle | responded | failed => trivial
    | finished c now r => exact absurd (.call (.respond hp)) (hrest (.respond i) _ trivial)
    | invoked | clocked | heapHeld | locked | ready => rw [hp] at hi; cases hi
  refine ⟨hover, fun htimer => ?_⟩
  obtain ⟨target, hw, hasleep, hlate⟩ | ⟨d, hw⟩ := hx.sweeper_parked hinner
  · have hheap : ∀ e ∈ x.store.expirationHeap.entries,
        x.clock.val < e.1.val + timerRounding := by
      intro e he
      have ha := hx.alert
      rw [hw] at ha
      rcases ha with hwoken | ⟨-, hnb⟩
      · rw [hasleep] at hwoken
        cases hwoken
      · obtain ⟨d, hd, hle⟩ := hnb e he
        have hd := hlate d hd
        have hle := Fin.le_def.mp hle
        omega
    refine ⟨⟨target, hw⟩, hheap, ?_⟩
    intro k v d hl hd
    exact hheap (d, k) (hx.covered.heapCovers (by rw [hw]; rfl) k v d hl hd)
  · -- the deadline that it died of would have to be one of those
    obtain ⟨k, hk⟩ := hx.targeted.inHeap d (by rw [hw]; rfl)
    exact absurd (htimer _ hk) (hx.targeted.killed d hw)

/-- A key from the archive has expired half a millisecond ago, and the sweeper still sleeps. -/
theorem rest_is_clean_restored :
    ∃ s, fromSnapshot ⟨0, by decide⟩ (fun _ => ⟨⟨0, by decide⟩, ⟨0, by decide⟩⟩)
        ⟨[⟨[1], ⟨[7], some 1⟩⟩]⟩ = .ok s ∧
      ∃ x : State Unit, Run (fun _ _ => True) (.start ⟨0, by decide⟩ s) x ∧
        AtRest Step Act.Certain x ∧ x.clock = ⟨1500000, by decide⟩ ∧
        x.store.hashmap.lookup [1] = some ⟨[7], some ⟨1000000, by decide⟩⟩ ∧
        (∃ target, x.sweeper = .parked target) ∧
        ∀ k v d, x.store.hashmap.lookup k = some v → v.expirationTime = some d →
          x.clock.val < d.val + timerRounding := by
  let s : Store := fromParts (AList.singleton [1] ⟨[7], some ⟨1000000, by decide⟩⟩)
    (ExpirationHeap.new.push (⟨1000000, by decide⟩, [1]))
  have hs : fromSnapshot ⟨0, by decide⟩ (fun _ => ⟨⟨0, by decide⟩, ⟨0, by decide⟩⟩)
      ⟨[⟨[1], ⟨[7], some 1⟩⟩]⟩ = .ok s := rfl
  have h : Run (fun _ _ => True) (.start ⟨0, by decide⟩ s) (.start ⟨0, by decide⟩ s) :=
    .nil (ι := Unit) _
  have h := h.snoc trivial (.sweep (.lockHeap rfl ⟨rfl, fun _ => rfl⟩))
  have h := h.snoc trivial (.sweep (.clock rfl))
  have h := h.snoc trivial (.sweep (.pop rfl))
  have h := h.snoc trivial (.sweep (.lockMap rfl ⟨rfl, fun _ => rfl⟩))
  have h := h.snoc trivial (.sweep (.remove rfl))
  have h := h.snoc trivial (.sweep (.peek rfl ⟨rfl, fun _ => rfl⟩))
  have h := h.snoc trivial (.sweep (.park rfl rfl (by rintro _ ⟨⟩; decide)))
  let x : State Unit := ⟨⟨1500000, by decide⟩, { s with wakeup := ⟨false, some false⟩ },
    fun _ => .idle, .parked (some ⟨1000000, by decide⟩), []⟩
  have h : Run (fun _ _ => True) (.start ⟨0, by decide⟩ s) x :=
    h.snoc trivial (.tick ⟨1500000, by decide⟩ (by decide))
  have hrest : AtRest Step Act.Certain x :=
    atRest_of_parked rfl rfl (by rintro _ ⟨⟩; decide) fun _ => trivial
  obtain ⟨hparked, -, hmap⟩ := (rest_is_clean (.inr ⟨_, _, _, hs⟩) h hrest).2 (by
    intro e he
    obtain rfl := List.mem_singleton.mp he
    decide)
  exact ⟨s, hs, x, h, hrest, rfl, rfl, hparked, hmap⟩

/-! ## Coming to rest -/

/-- All that is left to do, with the calls in progress among `ids`. -/
def workLeft (ids : Finset ι) (x : State ι) : Nat :=
  sweepWork x.clock x.store x.sweeper + ∑ i ∈ ids, (x.phase i).work

theorem Phase.work_le (p : Phase) : p.work ≤ 23 := by
  have hc (c : Call) : c.cost ≤ 18 := by
    unfold Call.cost
    split <;> omega
  cases p with
  | invoked c | clocked c | heapHeld c | locked c | ready c =>
    have := hc c
    simp only [work]
    omega
  | idle | finished | responded | failed =>
    simp only [work]
    omega

theorem sweepWork_le (t : Instant) (s : Store) (w : Sweeper) :
    sweepWork t s w ≤ 9 * s.expirationHeap.entries.length + 26 := by
  have hdue : s.expirationHeap.due t ≤ s.expirationHeap.entries.length := List.countP_le_length
  have hsignals : s.wakeup.signals ≤ 2 := by
    unfold Notify.signals
    split <;> split <;> omega
  have hrank : w.rank ≤ 8 := by
    cases w <;> simp [Sweeper.rank]
  unfold sweepWork
  omega

omit [DecidableEq ι] in
theorem workLeft_le (ids : Finset ι) (x : State ι) :
    workLeft ids x ≤ 23 * ids.card + 9 * x.store.expirationHeap.entries.length + 26 := by
  have hcalls : ∑ i ∈ ids, (x.phase i).work ≤ ids.card • 23 :=
    Finset.sum_le_card_nsmul ids _ 23 fun i _ => (x.phase i).work_le
  have hsweep := sweepWork_le x.clock x.store x.sweeper
  rw [Nat.nsmul_eq_mul] at hcalls
  unfold workLeft
  omega

/-- Only the calls in `ids` are in progress. -/
def Within (ids : Finset ι) (x : State ι) : Prop := ∀ i, ¬ (x.phase i).IsOver → i ∈ ids

theorem Advances.within {ids : Finset ι} {i : ι} (h : Advances x i y) (hx : Within ids x) :
    Within ids y := by
  obtain ⟨p, hp, -⟩ := h.phase
  intro j hj
  by_cases hji : j = i
  · subst hji
    exact hx j h.running
  · rw [hp, Function.update_of_ne hji] at hj
    exact hx j hj

theorem Advances.work_lt {ids : Finset ι} {i : ι} (h : Advances x i y)
    (hx : Within ids x) : workLeft ids y < workLeft ids x := by
  obtain ⟨p, hp, hlt⟩ := h.phase
  have hsum := sum_add_eq (f := fun j => (x.phase j).work) (g := fun j => (y.phase j).work)
    (hx i h.running) fun j hj => by simp only [hp, Function.update_of_ne hj]
  have hi : y.phase i = p := by rw [hp, Function.update_self]
  simp only [hi] at hsum
  rw [workLeft, h.clock, h.sweeper, workLeft]
  omega

/-- Every step that the store makes by itself lowers what is left to do. -/
theorem spends (ids : Finset ι) :
    Spends Step Act.Own (fun x : State ι => Orderly x ∧ Within ids x) (workLeft ids) where
  keep := by
    intro x a y hx ha hs
    refine ⟨hx.1.step hs, ?_⟩
    cases hs with
    | tick t ht => cases ha
    | call h =>
      obtain ⟨i, -, hi⟩ := h.advances fun i c hc => by subst hc; exact ha
      exact hi.within hx.2
    | sweep h => cases h <;> exact hx.2
  lower := by
    intro x a y hx ha hs
    cases hs with
    | tick t ht => cases ha
    | call h =>
      obtain ⟨i, -, hi⟩ := h.advances fun i c hc => by subst hc; exact ha
      exact hi.work_lt hx.2
    | sweep h =>
      have hlt := h.work_lt hx.1.guarded hx.1.targeted
      have hsame : y.clock = x.clock ∧ y.phase = x.phase := by
        cases h <;> exact ⟨rfl, rfl⟩
      rw [workLeft, hsame.1, hsame.2, workLeft]
      omega

/-- At any time only finitely many calls are in progress. -/
theorem within_run {G : State ι → Act ι → Prop} {t : Instant} {s : Store}
    (hr : Run G (.start t s) x) : ∃ ids, Within ids x := by
  induction hr with
  | nil => exact ⟨∅, fun i hi => absurd trivial hi⟩
  | @snoc y z a _ _ hs ih =>
    obtain ⟨ids, hids⟩ := ih
    cases hs with
    | tick t ht => exact ⟨ids, hids⟩
    | sweep h =>
      refine ⟨ids, ?_⟩
      cases h <;> exact hids
    | call h =>
      by_cases ha : ∀ i c, a ≠ .invoke i c
      · obtain ⟨i, -, hi⟩ := h.advances ha
        exact ⟨ids, hi.within hids⟩
      · push Not at ha
        obtain ⟨i, c, rfl⟩ := ha
        cases h with
        | invoke c hp =>
          refine ⟨insert i ids, fun j hj => ?_⟩
          by_cases hji : j = i
          · exact Finset.mem_insert.mpr (.inl hji)
          · refine Finset.mem_insert_of_mem (hids j ?_)
            show ¬ (y.phase j).IsOver
            change ¬ (Function.update y.phase i (.invoked c) j).IsOver at hj
            rwa [Function.update_of_ne hji] at hj

/-- From every reachable state, while no call is made or dropped and the clock stands still,
the store makes at most a number of steps that is linear in the calls in progress and in the
deadlines in the heap, and it does come to rest. -/
theorem comes_to_rest {G : State ι → Act ι → Prop} {t : Instant} {s : Store} (hs : Started s)
    (hr : Run G (.start t s) x) :
    ∃ ids : Finset ι, (∀ i, i ∈ ids ↔ ¬ (x.phase i).IsOver) ∧
      (∀ n y, Takes Step Act.Own n x y →
        n ≤ 23 * ids.card + 9 * x.store.expirationHeap.entries.length + 26) ∧
      ∃ n y, Takes Step Act.Own n x y ∧ AtRest Step Act.Own y := by
  obtain ⟨ids₀, hids₀⟩ := within_run hr
  let ids := ids₀.filter fun i => ¬ (x.phase i).IsOver
  have hmem (i : ι) : i ∈ ids ↔ ¬ (x.phase i).IsOver := by
    rw [Finset.mem_filter]
    exact ⟨And.right, fun h => ⟨hids₀ i h, h⟩⟩
  have hx : Orderly x ∧ Within ids x := ⟨orderly_run hs hr, fun i => (hmem i).mpr⟩
  refine ⟨ids, hmem, fun n y ht => ?_, (spends ids).settles hx⟩
  have htakes := (spends ids).takes hx ht
  have hle := workLeft_le ids x
  omega

/-- A GET is under way on an empty store. -/
theorem comes_to_rest_get :
    ∃ x : State (Fin 1), Run (fun _ _ => True) (.start ⟨0, by decide⟩ .new) x ∧
      ¬ (x.phase 0).IsOver ∧ ∃ n y, Takes Step Act.Own n x y ∧ AtRest Step Act.Own y := by
  have h : Run (fun _ _ => True) (.start ⟨0, by decide⟩ .new) (.start ⟨0, by decide⟩ .new) :=
    .nil (ι := Fin 1) _
  have h := h.snoc trivial (.call (.invoke (i := 0) (.get [1]) rfl))
  obtain ⟨ids, -, -, hrest⟩ := comes_to_rest (.inl rfl) h
  exact ⟨_, h, id, hrest⟩

end Steps
end Redlike.Store
