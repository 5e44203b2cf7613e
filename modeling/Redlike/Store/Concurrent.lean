import Redlike.Lib.Linear
import Redlike.Store.Ideal

/-!
# Callers and sweeper on one store

The store as its callers share it: every call is cut at the points where it waits
for a lock, reads the clock, runs its critical section and returns, in the order
of the code. GET, EXPIRE and TTL read the clock while they hold the map lock; DEL
reads it before it waits for that lock; SET does not read it. The locks are not
state of their own: who holds them can be read off the phases, and taking one
requires that nobody is in its way. A call may be dropped until its section has
run, also when the lock was granted and the task never resumed. The sweeper is
the one task of `sweep_loop`.
-/
namespace Redlike.Store

open Resp Lib

inductive Phase where
  | idle
  /-- Called; a DEL has yet to read the clock, the others wait for their first lock. -/
  | invoked (c : Call)
  /-- A DEL that has read the clock and waits for the map lock. -/
  | clocked (c : Call) (now : Instant)
  /-- An EXPIRE that holds the heap lock and waits for the map lock. -/
  | heapHeld (c : Call)
  /-- Holds its locks. -/
  | locked (c : Call)
  /-- Holds its locks and has read the clock. -/
  | ready (c : Call) (now : Instant)
  /-- The section has run at this reading, the locks are free. -/
  | finished (c : Call) (now : Instant) (r : Reply)
  | responded (c : Call) (now : Instant) (r : Reply)
  /-- Dropped or panicked; the locks are free. -/
  | failed
  deriving DecidableEq

def Call.isRead : Call → Bool
  | .get _ | .ttl _ => true
  | _ => false

def Call.takesHeap : Call → Bool
  | .expire .. => true
  | _ => false

namespace Phase

def holdsHeap : Phase → Bool
  | heapHeld _ => true
  | locked c | ready c _ => c.takesHeap
  | _ => false

def holdsMap : Phase → Bool
  | locked _ | ready _ _ => true
  | _ => false

def writesMap : Phase → Bool
  | locked c | ready c _ => !c.isRead
  | _ => false

/-- The call whose section has run, its clock reading and its reply. -/
def acted : Phase → Option (Call × Instant × Reply)
  | finished c now r | responded c now r => some (c, now, r)
  | _ => none

/-- Before the section, so the call can still be dropped without effect. -/
def droppable : Phase → Bool
  | invoked _ | clocked .. | heapHeld _ | locked _ | ready .. => true
  | _ => false

end Phase

inductive Sweeper where
  | idle
  | heapHeld
  | clocked (now : Instant)
  | popped (now : Instant) (candidates : List Key)
  | mapHeld (now : Instant) (candidates : List Key)
  /-- Before the peek of `sweep_loop`. -/
  | swept
  | peeked (target : Option Instant)
  | parked (target : Option Instant)
  /-- `sleep_until` panicked on this deadline, and the task is gone. -/
  | dead (target : Instant)
  deriving DecidableEq

/-- What the timer adds to a deadline, in nanoseconds, before it cuts it down to milliseconds. -/
def timerRounding : Nat := 999999

/-- `sleep_until` can be polled with this deadline: the sum is an instant. -/
def HasTimer (d : Instant) : Prop := d.val + timerRounding < instantLimit

instance (d : Instant) : Decidable (HasTimer d) := by unfold HasTimer; infer_instance

namespace Sweeper

def holdsHeap : Sweeper → Bool
  | heapHeld | clocked _ => true
  | _ => false

def holdsMap : Sweeper → Bool
  | mapHeld .. => true
  | _ => false

/-- The clock reading of the sweep in progress. -/
def reading : Sweeper → Option Instant
  | clocked now | popped now _ | mapHeld now _ => some now
  | _ => none

end Sweeper

/-- The calls have names from `ι`, one for each call ever made. -/
structure State (ι : Type) where
  clock : Instant
  store : Store
  phase : ι → Phase
  sweeper : Sweeper
  history : List (Linear.Event ι Call Reply Nat)

namespace State

variable {ι : Type} [DecidableEq ι]

def start (t : Instant) (s : Store) : State ι := ⟨t, s, fun _ => .idle, .idle, []⟩

def move (x : State ι) (i : ι) (p : Phase) : State ι :=
  { x with phase := Function.update x.phase i p }

def record (x : State ι) (e : Linear.Event ι Call Reply Nat) : State ι :=
  { x with history := x.history ++ [e] }

/-- The map lock is free for this call: for readers, no writer holds it. -/
def MapFree (x : State ι) (c : Call) : Prop :=
  x.sweeper.holdsMap = false ∧
    ∀ j, (if c.isRead then (x.phase j).writesMap else (x.phase j).holdsMap) = false

def HeapFree (x : State ι) : Prop :=
  x.sweeper.holdsHeap = false ∧ ∀ j, (x.phase j).holdsHeap = false

end State

inductive Act (ι : Type) where
  | tick (t : Instant)
  | invoke (i : ι) (c : Call)
  | readClock (i : ι)
  | lockHeap (i : ι)
  | lockMap (i : ι)
  | finish (i : ι)
  | respond (i : ι)
  | drop (i : ι)
  | sweep
  /-- The timer goes off in the millisecond after a deadline, where it may still wait. -/
  | alarm

section Steps

variable {ι : Type} [DecidableEq ι]

/-- One step of a caller. -/
inductive CallStep (x : State ι) : Act ι → State ι → Prop where
  | invoke {i : ι} (c : Call) (hp : x.phase i = .idle) :
      CallStep x (.invoke i c) ((x.move i (.invoked c)).record (.invoke i c x.clock.val))
  | delClock {i : ι} {key : Key} (hp : x.phase i = .invoked (.del key)) :
      CallStep x (.readClock i) (x.move i (.clocked (.del key) x.clock))
  | delLock {i : ι} {key : Key} {now : Instant} (hp : x.phase i = .clocked (.del key) now)
      (hf : x.MapFree (.del key)) :
      CallStep x (.lockMap i) (x.move i (.ready (.del key) now))
  | expireHeap {i : ι} {key : Key} {secs : UInt64} (hp : x.phase i = .invoked (.expire key secs))
      (hf : x.HeapFree) :
      CallStep x (.lockHeap i) (x.move i (.heapHeld (.expire key secs)))
  | expireLock {i : ι} {key : Key} {secs : UInt64} (hp : x.phase i = .heapHeld (.expire key secs))
      (hf : x.MapFree (.expire key secs)) :
      CallStep x (.lockMap i) (x.move i (.locked (.expire key secs)))
  | lock {i : ι} {c : Call} (hp : x.phase i = .invoked c)
      (hc : c.isRead = true ∨ ∃ key value, c = .set key value) (hf : x.MapFree c) :
      CallStep x (.lockMap i) (x.move i (.locked c))
  | clock {i : ι} {c : Call} (hp : x.phase i = .locked c)
      (hc : c.isRead = true ∨ ∃ key secs, c = .expire key secs) :
      CallStep x (.readClock i) (x.move i (.ready c x.clock))
  | set {i : ι} {key : Key} {value : Bytes} (hp : x.phase i = .locked (.set key value)) :
      CallStep x (.finish i)
        { x.move i (.finished (.set key value) x.clock .stored) with
          store := (x.store.set key value).2 }
  | finish {i : ι} {c : Call} {now : Instant} {r : Reply} (hp : x.phase i = .ready c now)
      (hr : (c.run now x.store).1 = some r) :
      CallStep x (.finish i)
        { x.move i (.finished c now r) with store := (c.run now x.store).2 }
  | panic {i : ι} {c : Call} {now : Instant} (hp : x.phase i = .ready c now)
      (hr : (c.run now x.store).1 = none) :
      CallStep x (.finish i) { x.move i .failed with store := (c.run now x.store).2 }
  | respond {i : ι} {c : Call} {now : Instant} {r : Reply} (hp : x.phase i = .finished c now r) :
      CallStep x (.respond i) ((x.move i (.responded c now r)).record (.respond i r x.clock.val))
  | drop {i : ι} (hp : (x.phase i).droppable = true) : CallStep x (.drop i) (x.move i .failed)

/-- One step of `sweep_loop`. The timer counts milliseconds from a moment of its own: it goes off
at the deadline or less than one after it. -/
inductive SweepStep (x : State ι) : Act ι → State ι → Prop where
  | lockHeap (hs : x.sweeper = .idle) (hf : x.HeapFree) :
      SweepStep x .sweep { x with sweeper := .heapHeld }
  | clock (hs : x.sweeper = .heapHeld) : SweepStep x .sweep { x with sweeper := .clocked x.clock }
  | pop {now : Instant} (hs : x.sweeper = .clocked now) :
      SweepStep x .sweep { x with
        store := (x.store.sweepPop now).2, sweeper := .popped now (x.store.sweepPop now).1 }
  | lockMap {now : Instant} {candidates : List Key} (hs : x.sweeper = .popped now candidates)
      (hf : x.sweeper.holdsMap = false ∧ ∀ j, (x.phase j).holdsMap = false) :
      SweepStep x .sweep { x with sweeper := .mapHeld now candidates }
  | remove {now : Instant} {candidates : List Key} (hs : x.sweeper = .mapHeld now candidates) :
      SweepStep x .sweep { x with store := x.store.sweepRemove now candidates, sweeper := .swept }
  /-- The heap is only read, so the lock need not be kept apart from the peek. -/
  | peek (hs : x.sweeper = .swept) (hf : x.HeapFree) :
      SweepStep x .sweep { x with
        sweeper := .peeked (x.store.expirationHeap.entries.head?.map (·.1)) }
  /-- `notified` takes a stored permit at once. -/
  | permit {target : Option Instant} (hs : x.sweeper = .peeked target)
      (hn : x.store.wakeup.permit = true) :
      SweepStep x .sweep { x with
        store := { x.store with wakeup := { x.store.wakeup with permit := false } },
        sweeper := .idle }
  | park {target : Option Instant} (hs : x.sweeper = .peeked target)
      (hn : x.store.wakeup.permit = false) (ht : ∀ d, target = some d → HasTimer d) :
      SweepStep x .sweep { x with
        store := { x.store with wakeup := { x.store.wakeup with waiter := some false } },
        sweeper := .parked target }
  /-- `sleep_until` is polled, and the deadline is too late for the timer. -/
  | panic {target : Instant} (hs : x.sweeper = .peeked (some target)) (ht : ¬ HasTimer target) :
      SweepStep x .sweep { x with sweeper := .dead target }
  | wake {target : Option Instant} (hs : x.sweeper = .parked target)
      (hn : x.store.wakeup.waiter = some true) :
      SweepStep x .sweep { x with
        store := { x.store with wakeup := { x.store.wakeup with waiter := none } },
        sweeper := .idle }
  /-- `sleep_until` wins before or after `notified` was polled; a wake-up that came
  all the same is kept as a permit. -/
  | timeout {target : Instant} (hs : x.sweeper = .peeked (some target) ∨ x.sweeper = .parked (some target))
      (ht : target.val + timerRounding ≤ x.clock.val) :
      SweepStep x .sweep { x with
        store := { x.store with wakeup :=
          ⟨x.store.wakeup.permit || x.store.wakeup.waiter == some true, none⟩ },
        sweeper := .idle }
  /-- It wins where the timer was not bound to go off yet. -/
  | alarm {target : Instant} (hs : x.sweeper = .peeked (some target) ∨ x.sweeper = .parked (some target))
      (ht : target ≤ x.clock) (htimer : HasTimer target) :
      SweepStep x .alarm { x with
        store := { x.store with wakeup :=
          ⟨x.store.wakeup.permit || x.store.wakeup.waiter == some true, none⟩ },
        sweeper := .idle }

inductive Step : State ι → Act ι → State ι → Prop where
  | tick {x : State ι} (t : Instant) (h : x.clock ≤ t) : Step x (.tick t) { x with clock := t }
  | call {x y : State ι} {a : Act ι} (h : CallStep x a y) : Step x a y
  | sweep {x y : State ι} {a : Act ι} (h : SweepStep x a y) : Step x a y

/-- A run of steps that all meet the condition `G` on the state before them. -/
inductive Run (G : State ι → Act ι → Prop) : State ι → State ι → Prop where
  | nil (x : State ι) : Run G x x
  | snoc {x y z : State ι} {a : Act ι} (hr : Run G x y) (hg : G y a) (hs : Step y a z) : Run G x z

end Steps
end Redlike.Store
