import Mathlib.Algebra.Group.Nat.Defs
import Mathlib.Algebra.Group.Int.Defs
import Mathlib.Data.List.AList
import Mathlib.Data.List.Sort
import Mathlib.Data.Fin.Basic
import Redlike.Resp.Bytes

/-!
# The store

The map, the expiration heap and the operations of the store, each as the code
runs it inside its critical section at a given reading of the clock. An instant
counts nanoseconds; it is representable by its type, and the one addition that
can leave the range (`now + ttl` in `expire`) is a panic, with the state that the
unwinding leaves behind. The order in which a hash map or a hash set is iterated
is the order of the list that models it.
-/
namespace Redlike.Store

open Resp

abbrev Key := Bytes

def nanosPerSec : Nat := 10^9

/-- Seconds of an instant are a signed 64-bit count, taken from the clock's own zero on. -/
def instantLimit : Nat := 2^63 * nanosPerSec

theorem instantLimit_pos : 0 < instantLimit := by decide

abbrev Instant := Fin instantLimit

/-- `Instant::checked_add`. -/
def checkedAdd (t : Instant) (nanos : Nat) : Option Instant :=
  if h : t.val + nanos < instantLimit then some ⟨t.val + nanos, h⟩ else none

theorem checkedAdd_of_lt {t : Instant} {nanos : Nat} (h : t.val + nanos < instantLimit) :
    checkedAdd t nanos = some ⟨t.val + nanos, h⟩ := dif_pos h

theorem checkedAdd_val {t d : Instant} {nanos : Nat} (h : checkedAdd t nanos = some d) :
    d.val = t.val + nanos := by
  unfold checkedAdd at h
  split at h
  · cases h; rfl
  · cases h

/-- `duration_since`, which saturates at zero, in nanoseconds. -/
def durationSince (t earlier : Instant) : Nat := t.val - earlier.val

structure StoreValue where
  value : Bytes
  expirationTime : Option Instant
  deriving DecidableEq

abbrev HashMap := AList (fun _ : Key => StoreValue)

/-- `BinaryHeap<Reverse<(Instant, Key)>>`, as the list of its entries in the order
they are popped. Only the instants decide what a sweep pops, so the order of
entries of one instant among them is left open. -/
structure ExpirationHeap where
  entries : List (Instant × Key)
  sorted : entries.Pairwise fun a b => a.1 ≤ b.1

namespace ExpirationHeap

def new : ExpirationHeap := ⟨[], .nil⟩

theorem sorted_orderedInsert (e : Instant × Key) {l : List (Instant × Key)}
    (h : l.Pairwise fun a b => a.1 ≤ b.1) :
    (l.orderedInsert (fun a b => a.1 ≤ b.1) e).Pairwise fun a b => a.1 ≤ b.1 := by
  induction l with
  | nil => simp
  | cons a l ih =>
    obtain ⟨ha, hl⟩ := List.pairwise_cons.mp h
    rw [List.orderedInsert_cons]
    by_cases hle : e.1 ≤ a.1
    · rw [if_pos hle]
      refine List.pairwise_cons.mpr ⟨?_, h⟩
      intro b hb
      rcases List.mem_cons.mp hb with rfl | hb
      · exact hle
      · exact le_trans hle (ha b hb)
    · rw [if_neg hle]
      refine List.pairwise_cons.mpr ⟨?_, ih hl⟩
      intro b hb
      rcases (List.mem_orderedInsert _).mp hb with rfl | hb
      · exact le_of_not_ge hle
      · exact ha b hb

def push (h : ExpirationHeap) (e : Instant × Key) : ExpirationHeap where
  entries := h.entries.orderedInsert (fun a b => a.1 ≤ b.1) e
  sorted := sorted_orderedInsert e h.sorted

end ExpirationHeap

/-- `tokio::sync::Notify` with its only waiter, the sweeper: a stored permit, and
for a parked sweeper whether it has been woken. -/
structure Notify where
  permit : Bool
  waiter : Option Bool
  deriving DecidableEq

namespace Notify

def new : Notify := ⟨false, none⟩

/-- Wakes the parked sweeper, or stores the permit; neither is counted. -/
def notifyOne (n : Notify) : Notify :=
  match n.waiter with
  | some false => { n with waiter := some true }
  | _ => { n with permit := true }

end Notify

end Redlike.Store

namespace Redlike

open Resp Store

structure Store where
  hashmap : HashMap
  expirationHeap : ExpirationHeap
  wakeup : Notify

namespace Store

def fromParts (hashmap : HashMap) (heap : ExpirationHeap) : Store := ⟨hashmap, heap, .new⟩

def new : Store := fromParts ∅ .new

def isExpired (v : StoreValue) (now : Instant) : Bool :=
  match v.expirationTime with
  | some t => decide (t ≤ now)
  | none => false

def get (now : Instant) (key : Key) (s : Store) : Option Bytes :=
  match s.hashmap.lookup key with
  | none => none
  | some v => if isExpired v now then none else some v.value

/-- Returns the value that was stored before, expired or not. -/
def set (key : Key) (value : Bytes) (s : Store) : Option Bytes × Store :=
  ((s.hashmap.lookup key).map (·.value),
    { s with hashmap := s.hashmap.insert key ⟨value, none⟩ })

/-- The entry leaves the map whether or not it is expired at `now`. -/
def del (now : Instant) (key : Key) (s : Store) : Option Bytes × Store :=
  (match s.hashmap.lookup key with
    | some v => if isExpired v now then none else some v.value
    | none => none,
    { s with hashmap := s.hashmap.erase key })

/-- No answer is the panic of `now + ttl_duration`: the entry has been taken out of
the map by then and is lost, and the heap is as it was. -/
def expire (now : Instant) (key : Key) (ttl : UInt64) (s : Store) : Option Nat × Store :=
  let map := s.hashmap.erase key
  match s.hashmap.lookup key with
  | none => (some 0, { s with hashmap := map })
  | some v =>
    if isExpired v now then (some 0, { s with hashmap := map })
    else
      match checkedAdd now (ttl.toNat * nanosPerSec) with
      | none => (none, { s with hashmap := map })
      | some expires =>
        (some 1,
          { hashmap := map.insert key { v with expirationTime := some expires }
            expirationHeap := s.expirationHeap.push (expires, key)
            wakeup := s.wakeup.notifyOne })

/-- Whole seconds come as `u64` and are cast to `i64`. -/
def ttl (now : Instant) (key : Key) (s : Store) : Int64 :=
  match s.hashmap.lookup key with
  | none => -2
  | some v =>
    if isExpired v now then -2
    else
      match v.expirationTime with
      | none => -1
      | some expiresOn => (UInt64.ofNat (durationSince expiresOn now / nanosPerSec)).toInt64

/-- The `while let` loop of `sweep_expired_once`, over the entries still in the heap:
the candidates, and what stays. -/
def popDue (now : Instant) : List (Instant × Key) → List Key → List Key × List (Instant × Key)
  | [], candidates => (candidates, [])
  | (when, key) :: rest, candidates =>
    if when ≤ now then popDue now rest (candidates.insert key)
    else (candidates, (when, key) :: rest)

theorem popDue_suffix (now : Instant) (l : List (Instant × Key)) (c : List Key) :
    (popDue now l c).2 <:+ l := by
  induction l generalizing c with
  | nil => exact List.suffix_refl _
  | cons e l ih =>
    unfold popDue
    split
    · exact (ih _).trans (List.suffix_cons _ _)
    · exact List.suffix_refl _

/-- First phase of `sweep_expired_once`, under the heap lock. -/
def sweepPop (now : Instant) (s : Store) : List Key × Store :=
  let r := popDue now s.expirationHeap.entries []
  (r.1, { s with
    expirationHeap := ⟨r.2, s.expirationHeap.sorted.sublist (popDue_suffix now _ _).sublist⟩ })

/-- One round of the `for` loop of the second phase. -/
def removeExpired (now : Instant) (map : HashMap) (key : Key) : HashMap :=
  match map.lookup key with
  | some v => if isExpired v now then map.erase key else map
  | none => map

/-- Second phase of `sweep_expired_once`, under the map lock, with the clock reading of
the first. -/
def sweepRemove (now : Instant) (candidates : List Key) (s : Store) : Store :=
  { s with hashmap := candidates.foldl (removeExpired now) s.hashmap }

/-- `sweep_expired_once` when nothing happens between its phases. -/
def sweepExpiredOnce (now : Instant) (s : Store) : Store :=
  (s.sweepPop now).2.sweepRemove now (s.sweepPop now).1

end Store
end Redlike
