import Redlike.Lib.TtlMap
import Redlike.Store.Model

/-!
# The ideal TTL map

What the store is for: a map from keys to values with optional deadlines, where an
entry whose deadline has come is absent. `Ideal.step` is the meaning of a call at a
moment; `contents` reads a store as such a map, and `Call.run_ideal` says that a
call on the store at one clock reading is the same call on its contents, up to
entries nobody can see.
-/
namespace Redlike.Store

open Resp Lib

/-- The calls clients make. -/
inductive Call where
  | get (key : Key)
  | set (key : Key) (value : Bytes)
  | del (key : Key)
  | expire (key : Key) (secs : UInt64)
  | ttl (key : Key)
  deriving DecidableEq

/-- What the caller keeps of a result; nobody looks at what `set` returns. -/
inductive Reply where
  | value (v : Option Bytes)
  | stored
  | flag (n : Nat)
  | seconds (n : Int)
  deriving DecidableEq

/-- The call on the store, clock reading and critical section at one moment; no reply is a panic. -/
def Call.run (now : Instant) (c : Call) (s : Store) : Option Reply × Store :=
  match c with
  | .get key => (some (.value (s.get now key)), s)
  | .set key value => (some .stored, (s.set key value).2)
  | .del key => (some (.value (s.del now key).1), (s.del now key).2)
  | .expire key secs => ((s.expire now key secs).1.map .flag, (s.expire now key secs).2)
  | .ttl key => (some (.seconds (s.ttl now key).toInt), s)

/-- Times are plain numbers of nanoseconds here: the ideal map never overflows. -/
abbrev Ideal := TtlMap Key Bytes Nat

namespace Ideal

def empty : Ideal := fun _ => none

def remaining (now : Nat) : Option (TtlEntry Bytes Nat) → Int
  | none => -2
  | some ⟨_, none⟩ => -1
  | some ⟨_, some d⟩ => ((d - now) / nanosPerSec : Nat)

def step (now : Nat) (c : Call) (m : Ideal) : Reply × Ideal :=
  match c with
  | .get key => (.value ((m.read now key).map (·.value)), m)
  | .set key value => (.stored, m.put key ⟨value, none⟩)
  | .del key => (.value ((m.read now key).map (·.value)), m.remove key)
  | .expire key secs =>
    match m.read now key with
    | none => (.flag 0, m)
    | some e => (.flag 1, m.put key ⟨e.value, some (now + secs.toNat * nanosPerSec)⟩)
  | .ttl key => (.seconds (remaining now (m.read now key)), m)

/-- If this is an EXPIRE that sets a deadline, then the deadline is an instant. -/
def Representable (now : Nat) (c : Call) (m : Ideal) : Prop :=
  match c with
  | .expire key secs =>
    (m.read now key).isSome = true → now + secs.toNat * nanosPerSec < instantLimit
  | _ => True

instance (now : Nat) (c : Call) (m : Ideal) : Decidable (Representable now c m) :=
  match c with
  | .expire key secs => inferInstanceAs (Decidable ((m.read now key).isSome = true →
      now + secs.toNat * nanosPerSec < instantLimit))
  | .get _ | .set .. | .del _ | .ttl _ => isTrue trivial

/-- The meaning of a call does not depend on entries nobody can see. -/
theorem step_agree {now : Nat} {m m' : Ideal} (h : TtlMap.Agree now m m') (c : Call) :
    (step now c m).1 = (step now c m').1 ∧
      TtlMap.Agree now (step now c m).2 (step now c m').2 := by
  cases c with
  | get key => exact ⟨by simp only [step, h key], h⟩
  | set key value => exact ⟨rfl, h.put key _⟩
  | del key => exact ⟨by simp only [step, h key], h.remove key⟩
  | ttl key => exact ⟨by simp only [step, h key], h⟩
  | expire key secs =>
    simp only [step]
    rw [h key]
    cases m'.read now key with
    | none => exact ⟨rfl, h⟩
    | some e => exact ⟨rfl, h.put key _⟩

theorem representable_agree {now : Nat} {m m' : Ideal} (h : TtlMap.Agree now m m') {c : Call}
    (hr : Representable now c m') : Representable now c m := by
  cases c with
  | expire key secs =>
    intro hl
    rw [h key] at hl
    exact hr hl
  | _ => trivial

end Ideal

/-- A stored value as an entry of the ideal map. -/
def entry (v : StoreValue) : TtlEntry Bytes Nat := ⟨v.value, v.expirationTime.map (·.val)⟩

/-- A map of the store as a TTL map, entries nobody can see included. -/
def mapContents (map : HashMap) : Ideal := fun k => (map.lookup k).map entry

def contents (s : Store) : Ideal := mapContents s.hashmap

theorem live_entry (v : StoreValue) (now : Instant) :
    TtlMap.live now.val (entry v) = !isExpired v now := by
  unfold TtlMap.live isExpired entry
  cases v.expirationTime with
  | none => rfl
  | some t => by_cases h : t ≤ now <;> simp [h, lt_of_not_ge]

theorem entry_injective : Function.Injective entry := by
  rintro ⟨v, t⟩ ⟨v', t'⟩ h
  obtain ⟨rfl, ht⟩ := TtlEntry.mk.inj h
  obtain rfl := Option.map_injective Fin.val_injective ht
  rfl

@[simp] theorem mapContents_empty : mapContents ∅ = Ideal.empty := by
  funext k
  simp [mapContents, Ideal.empty]

@[simp] theorem mapContents_insert (map : HashMap) (k : Key) (v : StoreValue) :
    mapContents (map.insert k v) = (mapContents map).put k (entry v) := by
  funext j
  by_cases hj : j = k
  · subst hj
    simp [mapContents]
  · simp [mapContents, hj]

@[simp] theorem mapContents_erase (map : HashMap) (k : Key) :
    mapContents (map.erase k) = (mapContents map).remove k := by
  funext j
  by_cases hj : j = k
  · subst hj
    simp [mapContents]
  · simp [mapContents, hj]

theorem read_of_absent {map : HashMap} {k : Key} (h : map.lookup k = none) (now : Nat) :
    (mapContents map).read now k = none := by
  simp [TtlMap.read, mapContents, h]

theorem read_of_stored {map : HashMap} {k : Key} {v : StoreValue} (h : map.lookup k = some v)
    (now : Instant) :
    (mapContents map).read now.val k = if isExpired v now then none else some (entry v) := by
  simp only [TtlMap.read, mapContents, h, Option.map_some, Option.filter_some, live_entry]
  cases isExpired v now <;> rfl

/-! ## One call -/

theorem get_eq (now : Instant) (key : Key) (s : Store) :
    s.get now key = ((contents s).read now.val key).map (·.value) := by
  unfold get contents
  cases h : s.hashmap.lookup key with
  | none => rw [read_of_absent h]; rfl
  | some v =>
    rw [read_of_stored h]
    dsimp only
    cases isExpired v now <;> rfl

@[simp] theorem contents_set (key : Key) (value : Bytes) (s : Store) :
    contents (s.set key value).2 = (contents s).put key ⟨value, none⟩ := mapContents_insert _ _ _

@[simp] theorem contents_del (now : Instant) (key : Key) (s : Store) :
    contents (s.del now key).2 = (contents s).remove key := mapContents_erase _ _

theorem del_eq (now : Instant) (key : Key) (s : Store) :
    (s.del now key).1 = ((contents s).read now.val key).map (·.value) := by
  rw [← get_eq]
  unfold del get
  cases s.hashmap.lookup key <;> rfl

theorem seconds_lt (t now : Instant) : durationSince t now / nanosPerSec < 2^63 := by
  have ht : t.val < 2^63 * nanosPerSec := t.isLt
  rw [Nat.div_lt_iff_lt_mul (by decide)]
  exact lt_of_le_of_lt (Nat.sub_le _ _) ht

/-- The cast to `i64` does not wrap. -/
theorem toInt_seconds {n : Nat} (h : n < 2^63) : ((UInt64.ofNat n).toInt64).toInt = n := by
  change (BitVec.ofNat 64 n).toInt = n
  rw [BitVec.toInt_eq_toNat_of_lt] <;> rw [BitVec.toNat_ofNat] <;> omega

theorem ttl_eq (now : Instant) (key : Key) (s : Store) :
    (s.ttl now key).toInt = Ideal.remaining now.val ((contents s).read now.val key) := by
  unfold ttl contents
  cases h : s.hashmap.lookup key with
  | none => rw [read_of_absent h]; rfl
  | some v =>
    rw [read_of_stored h]
    dsimp only
    cases isExpired v now with
    | true => rfl
    | false =>
      rcases v with ⟨value, _ | t⟩
      · rfl
      · exact toInt_seconds (seconds_lt t now)

/-- An EXPIRE of a key nobody can see may drop what was stored under it. -/
theorem expire_absent {now : Instant} {key : Key} {s : Store}
    (h : (contents s).read now.val key = none) (secs : UInt64) :
    (s.expire now key secs).1 = some 0 ∧
      contents (s.expire now key secs).2 = (contents s).remove key := by
  unfold expire contents at *
  cases hl : s.hashmap.lookup key with
  | none => exact ⟨rfl, mapContents_erase _ _⟩
  | some v =>
    rw [read_of_stored hl] at h
    dsimp only
    cases he : isExpired v now with
    | true => exact ⟨rfl, mapContents_erase _ _⟩
    | false => rw [he] at h; cases h

theorem expire_live {now : Instant} {key : Key} {s : Store} {e : TtlEntry Bytes Nat}
    (h : (contents s).read now.val key = some e) {secs : UInt64}
    (hr : now.val + secs.toNat * nanosPerSec < instantLimit) :
    (s.expire now key secs).1 = some 1 ∧
      contents (s.expire now key secs).2 =
        (contents s).put key ⟨e.value, some (now.val + secs.toNat * nanosPerSec)⟩ := by
  unfold expire contents at *
  cases hl : s.hashmap.lookup key with
  | none => rw [read_of_absent hl] at h; cases h
  | some v =>
    rw [read_of_stored hl] at h
    cases he : isExpired v now with
    | true => rw [he] at h; cases h
    | false =>
      rw [he] at h
      obtain rfl : entry v = e := Option.some.inj h
      simp only [he, checkedAdd_of_lt hr]
      refine ⟨rfl, ?_⟩
      funext j
      by_cases hj : j = key
      · subst hj
        simp [entry]
      · simp [hj]

/-- A call on the store at one clock reading is the call on its contents. -/
theorem Call.run_ideal (now : Instant) (c : Call) (s : Store)
    (hr : Ideal.Representable now.val c (contents s)) :
    (c.run now s).1 = some (Ideal.step now.val c (contents s)).1 ∧
      TtlMap.Agree now.val (contents (c.run now s).2) (Ideal.step now.val c (contents s)).2 := by
  cases c with
  | get key => exact ⟨by simp only [run, Ideal.step, get_eq], .refl _ _⟩
  | set key value => exact ⟨rfl, by simp only [run, Ideal.step, contents_set, TtlMap.Agree.refl]⟩
  | del key =>
    refine ⟨by simp only [run, Ideal.step, del_eq], ?_⟩
    simp only [run, Ideal.step, contents_del, TtlMap.Agree.refl]
  | ttl key => exact ⟨by simp only [run, Ideal.step, ttl_eq], .refl _ _⟩
  | expire key secs =>
    simp only [run, Ideal.step]
    cases h : (contents s).read now.val key with
    | none =>
      obtain ⟨h₁, h₂⟩ := expire_absent h secs
      rw [h₁, h₂]
      exact ⟨rfl, TtlMap.agree_remove_dead h⟩
    | some e =>
      obtain ⟨h₁, h₂⟩ := expire_live h (hr (by rw [h]; rfl))
      rw [h₁, h₂]
      exact ⟨rfl, .refl _ _⟩

/-! ## The sweep -/

@[simp] theorem contents_sweepPop (now : Instant) (s : Store) :
    contents (s.sweepPop now).2 = contents s := rfl

theorem removeExpired_agree (now : Instant) (map : HashMap) (k : Key) :
    TtlMap.Agree now.val (mapContents (removeExpired now map k)) (mapContents map) := by
  unfold removeExpired
  cases h : map.lookup k with
  | none => exact .refl _ _
  | some v =>
    simp only
    cases he : isExpired v now with
    | false => exact .refl _ _
    | true =>
      rw [if_pos rfl, mapContents_erase]
      apply TtlMap.agree_remove_dead
      rw [read_of_stored h, he]
      rfl

theorem removeExpired_below (now : Instant) (map : HashMap) (k : Key) :
    TtlMap.Below (mapContents (removeExpired now map k)) (mapContents map) := by
  unfold removeExpired
  split
  · split
    · rw [mapContents_erase]
      exact TtlMap.remove_below _ _
    · exact fun _ _ h => h
  · exact fun _ _ h => h

theorem sweepRemove_below (now : Instant) (candidates : List Key) (s : Store) :
    TtlMap.Below (contents (s.sweepRemove now candidates)) (contents s) := by
  unfold sweepRemove contents
  generalize s.hashmap = map
  induction candidates generalizing map with
  | nil => exact fun _ _ h => h
  | cons k ks ih => exact fun j e h => removeExpired_below now map k j e (ih _ j e h)

/-- The second phase drops nothing that was visible at the sweep's own clock reading. -/
theorem sweepRemove_agree (now : Instant) (candidates : List Key) (s : Store) :
    TtlMap.Agree now.val (contents (s.sweepRemove now candidates)) (contents s) := by
  unfold sweepRemove contents
  generalize s.hashmap = map
  induction candidates generalizing map with
  | nil => exact .refl _ _
  | cons k ks ih => exact (ih _).trans (removeExpired_agree now map k)

/-! ## Entries of the map and of the heap -/

theorem mem_push {h : ExpirationHeap} {e e' : Instant × Key} :
    e' ∈ (h.push e).entries ↔ e' = e ∨ e' ∈ h.entries := List.mem_orderedInsert _

/-- What a call leaves in the map was there before, or the call has put it there: without a
deadline, or with one that it has also put into the heap. -/
theorem Call.lookup_run {now : Instant} {c : Call} {s : Store} {k : Key} {v : StoreValue}
    (h : (c.run now s).2.hashmap.lookup k = some v) :
    s.hashmap.lookup k = some v ∨ v.expirationTime = none ∨
      ∃ secs d, c = .expire k secs ∧ v.expirationTime = some d ∧
        d.val = now.val + secs.toNat * nanosPerSec ∧
        (d, k) ∈ (c.run now s).2.expirationHeap.entries := by
  have hkept : ∀ {key : Key}, (s.hashmap.erase key).lookup k = some v →
      s.hashmap.lookup k = some v := by
    intro key hl
    by_cases hk : k = key
    · subst hk
      simp at hl
    · rwa [AList.lookup_erase_ne hk] at hl
  cases c with
  | get key => exact .inl h
  | ttl key => exact .inl h
  | del key => exact .inl (hkept h)
  | set key value =>
    by_cases hk : k = key
    · subst hk
      simp only [run, Store.set, AList.lookup_insert, Option.some.injEq] at h
      exact .inr (.inl (h ▸ rfl))
    · simp only [run, Store.set, AList.lookup_insert_ne hk] at h
      exact .inl h
  | expire key secs =>
    simp only [run, Store.expire] at h ⊢
    split at h
    · exact .inl (hkept h)
    · split at h
      · exact .inl (hkept h)
      · rename_i hlive
        split at h
        · exact .inl (hkept h)
        · rename_i expires hadd
          by_cases hk : k = key
          · subst hk
            simp only [AList.lookup_insert, Option.some.injEq] at h
            refine .inr (.inr ⟨secs, expires, rfl, h ▸ rfl, checkedAdd_val hadd, ?_⟩)
            simp only [hlive]
            exact mem_push.mpr (.inl rfl)
          · simp only [AList.lookup_insert_ne hk] at h
            exact .inl (hkept h)

/-- Calls only add to the heap. -/
theorem Call.heap_run {now : Instant} (c : Call) {s : Store} {e : Instant × Key}
    (h : e ∈ s.expirationHeap.entries) : e ∈ (c.run now s).2.expirationHeap.entries := by
  cases c with
  | expire key secs =>
    simp only [run, Store.expire]
    split
    · exact h
    · split
      · exact h
      · split
        · exact h
        · exact mem_push.mpr (.inr h)
  | _ => exact h

/-- What the pop loop takes from the heap is due and a candidate. -/
theorem mem_popDue (now : Instant) (l : List (Instant × Key)) (c : List Key) :
    (∀ k ∈ c, k ∈ (popDue now l c).1) ∧
      ∀ e ∈ l, e ∈ (popDue now l c).2 ∨ (e.1 ≤ now ∧ e.2 ∈ (popDue now l c).1) := by
  induction l generalizing c with
  | nil => simp [popDue]
  | cons e l ih =>
    obtain ⟨d, key⟩ := e
    unfold popDue
    split
    · rename_i hdue
      obtain ⟨hc, hl⟩ := ih (c.insert key)
      refine ⟨fun k hk => hc k (List.mem_insert_of_mem hk), ?_⟩
      intro e he
      rcases List.mem_cons.mp he with rfl | he
      · exact .inr ⟨hdue, hc key List.mem_insert_self⟩
      · exact hl e he
    · exact ⟨fun k hk => hk, fun e he => .inl he⟩

/-- What it leaves is what is not due. -/
theorem popDue_rest {now : Instant} {l : List (Instant × Key)}
    (hs : l.Pairwise fun a b => a.1 ≤ b.1) (c : List Key) :
    (popDue now l c).2 = l.filter fun e => now < e.1 := by
  induction l generalizing c with
  | nil => rfl
  | cons e l ih =>
    obtain ⟨hhead, htail⟩ := List.pairwise_cons.mp hs
    obtain ⟨d, key⟩ := e
    unfold popDue
    split
    · rename_i hdue
      rw [ih htail, List.filter_cons_of_neg (by simpa using hdue)]
    · rename_i hlate
      -- the heap is in order, so nothing behind a late entry is due
      refine (List.filter_eq_self.mpr ?_).symm
      intro e he
      rw [decide_eq_true_eq]
      rcases List.mem_cons.mp he with rfl | he
      · exact lt_of_not_ge hlate
      · exact lt_of_lt_of_le (lt_of_not_ge hlate) (hhead e he)

theorem lookup_removeExpired {now : Instant} {map : HashMap} {key k : Key} {v : StoreValue} :
    (removeExpired now map key).lookup k = some v ↔
      map.lookup k = some v ∧ (k = key → isExpired v now = false) := by
  by_cases hk : k = key
  · subst hk
    unfold removeExpired
    cases hl : map.lookup k with
    | none => simp [hl]
    | some w =>
      cases hw : isExpired w now with
      | true =>
        simp only [hw, if_true, AList.lookup_erase, reduceCtorEq, false_iff]
        rintro ⟨he, hlive⟩
        rw [Option.some.inj he, hlive trivial] at hw
        cases hw
      | false =>
        simp only [hw, Bool.false_eq_true, if_false, hl, Option.some.injEq]
        exact ⟨fun h => ⟨h, fun _ => h ▸ hw⟩, fun h => h.1⟩
  · have hlookup : (removeExpired now map key).lookup k = map.lookup k := by
      unfold removeExpired
      split
      · split
        · exact AList.lookup_erase_ne hk
        · rfl
      · rfl
    rw [hlookup]
    exact ⟨fun h => ⟨h, fun he => absurd he hk⟩, fun h => h.1⟩

/-- The second phase keeps everything but what has expired among its candidates. -/
theorem lookup_sweepRemove {now : Instant} {candidates : List Key} {s : Store} {k : Key}
    {v : StoreValue} :
    (s.sweepRemove now candidates).hashmap.lookup k = some v ↔
      s.hashmap.lookup k = some v ∧ (k ∈ candidates → isExpired v now = false) := by
  unfold sweepRemove
  dsimp only
  generalize s.hashmap = map
  induction candidates generalizing map with
  | nil => simp
  | cons key candidates ih =>
    rw [List.foldl_cons, ih, lookup_removeExpired, List.mem_cons]
    constructor
    · rintro ⟨⟨hl, hkey⟩, hrest⟩
      exact ⟨hl, fun h => h.elim hkey hrest⟩
    · rintro ⟨hl, h⟩
      exact ⟨⟨hl, fun hk => h (.inl hk)⟩, fun hm => h (.inr hm)⟩

end Redlike.Store
