import Redlike.Store.Concurrent
import Redlike.Connection.Command

/-!
# EXPIRE and the entry it moves

`expire` takes the entry out of the map before it computes the deadline and puts it
back after. Between the two stands the one addition of the store that can panic, and
neither the decoder nor `expire` itself keeps the argument in range: a client can name
a number of seconds that makes the key disappear.
-/
namespace Redlike.Store

open Resp

/-- What an EXPIRE at `now` owes: it returns, a live key keeps its value, with a deadline or
untouched, and the other keys their entries. -/
structure KeepsData (now : Instant) (key : Key) (s : Store) (r : Option Nat × Store) : Prop where
  returns : r.1.isSome = true
  kept : ∀ v, s.hashmap.lookup key = some v → isExpired v now = false →
    ∃ w, r.2.hashmap.lookup key = some w ∧ w.value = v.value ∧
      (w.expirationTime.isSome = true ∨ w = v)
  others : ∀ k, k ≠ key → r.2.hashmap.lookup k = s.hashmap.lookup k

/-- The key is visible exactly when it has an entry that has not expired. -/
theorem isSome_read {now : Instant} {key : Key} {s : Store} :
    ((contents s).read now.val key).isSome = true ↔
      ∃ v, s.hashmap.lookup key = some v ∧ isExpired v now = false := by
  unfold contents
  cases hl : s.hashmap.lookup key with
  | none => simp [read_of_absent hl]
  | some v =>
    rw [read_of_stored hl]
    cases he : isExpired v now <;> simp [he]

section Live

variable {now : Instant} {key : Key} {ttl : UInt64} {s : Store} {v : StoreValue}

theorem expire_sets (hl : s.hashmap.lookup key = some v) (he : isExpired v now = false)
    (hlim : now.val + ttl.toNat * nanosPerSec < instantLimit) :
    s.expire now key ttl = (some 1,
      { hashmap := (s.hashmap.erase key).insert key { v with expirationTime := some ⟨_, hlim⟩ }
        expirationHeap := s.expirationHeap.push (⟨_, hlim⟩, key)
        wakeup := s.wakeup.notifyOne }) := by
  rw [expire, hl]
  dsimp only
  rw [he, if_neg (by simp), checkedAdd_of_lt hlim]

theorem expire_panics (hl : s.hashmap.lookup key = some v) (he : isExpired v now = false)
    (hlim : ¬ now.val + ttl.toNat * nanosPerSec < instantLimit) :
    s.expire now key ttl = (none, { s with hashmap := s.hashmap.erase key }) := by
  rw [expire, hl]
  dsimp only
  rw [he, if_neg (by simp), checkedAdd, dif_neg hlim]

end Live

theorem expire_of_dead {now : Instant} {key : Key} {ttl : UInt64} {s : Store}
    (h : ∀ v, s.hashmap.lookup key = some v → isExpired v now = true) :
    s.expire now key ttl = (some 0, { s with hashmap := s.hashmap.erase key }) := by
  unfold expire
  cases hl : s.hashmap.lookup key with
  | none => rfl
  | some v => simp only [h v hl, if_true]

/-- EXPIRE keeps all data exactly when the deadline it would give a live key is an instant. -/
theorem expire_keeps_data (now : Instant) (key : Key) (ttl : UInt64) (s : Store) :
    KeepsData now key s (s.expire now key ttl) ↔
      Ideal.Representable now.val (.expire key ttl) (contents s) := by
  rw [show Ideal.Representable now.val (.expire key ttl) (contents s) ↔
    (((contents s).read now.val key).isSome = true →
      now.val + ttl.toNat * nanosPerSec < instantLimit) from .rfl, isSome_read]
  by_cases hlive : ∃ v, s.hashmap.lookup key = some v ∧ isExpired v now = false
  · obtain ⟨v, hl, he⟩ := hlive
    by_cases hlim : now.val + ttl.toNat * nanosPerSec < instantLimit
    · rw [expire_sets hl he hlim]
      refine ⟨fun _ _ => hlim, fun _ => ⟨rfl, ?_, ?_⟩⟩
      · intro w hw _
        obtain rfl : v = w := Option.some.inj (hl.symm.trans hw)
        exact ⟨{ v with expirationTime := some ⟨_, hlim⟩ }, by simp, rfl, .inl rfl⟩
      · intro k hk
        simp [hk]
    · rw [expire_panics hl he hlim]
      refine ⟨fun h => ?_, fun h => absurd (h ⟨v, hl, he⟩) hlim⟩
      have hr := h.returns
      cases hr
  · have hdead : ∀ v, s.hashmap.lookup key = some v → isExpired v now = true := by
      intro v hl
      by_contra he
      exact hlive ⟨v, hl, by simpa using he⟩
    rw [expire_of_dead hdead]
    refine ⟨fun _ h => absurd h hlive, fun _ => ⟨rfl, ?_, ?_⟩⟩
    · intro v hl he
      exact absurd ⟨v, hl, he⟩ hlive
    · intro k hk
      simp [hk]

/-- SET k v, and then the largest number of seconds that decodes: the call panics and the
key is gone. -/
theorem far_expire_loses_key :
    ∃ (x : State (Fin 1)) (frame : Frame) (ttl : UInt64),
      Run (fun _ _ => True) (.start ⟨0, by decide⟩ .new) x ∧
      frame = .array (some [.bulk (some (asBytes "EXPIRE")), .bulk (some [107]),
        .bulk (some (asBytes "18446744073709551615"))]) ∧
      Command.tryFrom frame = .ok (.expire [107] ttl) ∧
      x.store.get x.clock [107] = some [118] ∧
      (x.store.expire x.clock [107] ttl).1 = none ∧
      (x.store.expire x.clock [107] ttl).2.hashmap.lookup [107] = none ∧
      ¬ KeepsData x.clock [107] x.store (x.store.expire x.clock [107] ttl) := by
  have h : Run (fun _ _ => True) (.start ⟨0, by decide⟩ .new) (.start ⟨0, by decide⟩ .new) :=
    .nil (ι := Fin 1) _
  have h := h.snoc trivial (.call (.invoke (i := 0) (.set [107] [118]) rfl))
  have h := h.snoc trivial (.call (.lock (i := 0) rfl (.inr ⟨_, _, rfl⟩) ⟨rfl, by decide⟩))
  have h := h.snoc trivial (.call (.set (i := 0) rfl))
  refine ⟨_, _, 18446744073709551615, h, rfl, by decide, rfl, by decide,
    by decide, ?_⟩
  intro hk
  exact absurd hk.returns (by decide)

end Redlike.Store
