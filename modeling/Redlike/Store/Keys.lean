import Redlike.Store.Refinement
import Redlike.Snapshot.Model

/-!
# Keys are independent of one another

One map, one heap and one sweeper serve all keys. Still what happens to a key depends on the
calls for this key alone, panics included: two systems that are the same at a key stay so
under its calls and under the sweeper, and calls for other keys change neither. Nor can
anybody tell in which order a hash map or a hash set keeps its entries, or in which order the
heap has deadlines that come at the same time.
-/
namespace Redlike.Store

def Call.key : Call → Key
  | .get key | .set key _ | .del key | .expire key _ | .ttl key => key

/-- The stores agree on the entry of the key and on its deadlines in the heap. -/
structure SameAt (k : Key) (s s' : Store) : Prop where
  lookup : s.hashmap.lookup k = s'.hashmap.lookup k
  heap : ∀ d, (d, k) ∈ s.expirationHeap.entries ↔ (d, k) ∈ s'.expirationHeap.entries

theorem SameAt.refl (k : Key) (s : Store) : SameAt k s s := ⟨rfl, fun _ => .rfl⟩

theorem SameAt.symm {k : Key} {s s' : Store} (h : SameAt k s s') : SameAt k s' s :=
  ⟨h.lookup.symm, fun d => (h.heap d).symm⟩

theorem SameAt.trans {k : Key} {s s' s'' : Store} (h : SameAt k s s') (h' : SameAt k s' s'') :
    SameAt k s s'' :=
  ⟨h.lookup.trans h'.lookup, fun d => (h.heap d).trans (h'.heap d)⟩

/-! ## Calls -/

/-- A call changes nothing at other keys. -/
theorem Call.run_other (now : Instant) {c : Call} (s : Store) {k : Key} (h : k ≠ c.key) :
    SameAt k (c.run now s).2 s := by
  cases c with
  | get key => exact .refl k s
  | ttl key => exact .refl k s
  | set key value => exact ⟨AList.lookup_insert_ne h, fun _ => .rfl⟩
  | del key => exact ⟨AList.lookup_erase_ne h, fun _ => .rfl⟩
  | expire key secs =>
    have herase : (s.hashmap.erase key).lookup k = s.hashmap.lookup k := AList.lookup_erase_ne h
    simp only [run, Store.expire]
    split
    · exact ⟨herase, fun _ => .rfl⟩
    · split
      · exact ⟨herase, fun _ => .rfl⟩
      · split
        · exact ⟨herase, fun _ => .rfl⟩
        · refine ⟨(AList.lookup_insert_ne h).trans herase, fun d => ?_⟩
          show (d, k) ∈ (s.expirationHeap.push _).entries ↔ _
          rw [mem_push]
          refine ⟨fun hd => hd.resolve_left fun he => h (congrArg Prod.snd he), .inr⟩

/-- At its own key it does the same wherever the key is the same. -/
theorem Call.run_same (now : Instant) (c : Call) {s s' : Store} (h : SameAt c.key s s') :
    (c.run now s).1 = (c.run now s').1 ∧ SameAt c.key (c.run now s).2 (c.run now s').2 := by
  cases c with
  | get key =>
    have hl : s.hashmap.lookup key = s'.hashmap.lookup key := h.lookup
    exact ⟨by simp only [run, Store.get, hl], h⟩
  | ttl key =>
    have hl : s.hashmap.lookup key = s'.hashmap.lookup key := h.lookup
    exact ⟨by simp only [run, Store.ttl, hl], h⟩
  | set key value =>
    refine ⟨rfl, ?_, h.heap⟩
    show (s.hashmap.insert key _).lookup key = (s'.hashmap.insert key _).lookup key
    rw [AList.lookup_insert, AList.lookup_insert]
  | del key =>
    have hl : s.hashmap.lookup key = s'.hashmap.lookup key := h.lookup
    refine ⟨by simp only [run, Store.del, hl], ?_, h.heap⟩
    show (s.hashmap.erase key).lookup key = (s'.hashmap.erase key).lookup key
    rw [AList.lookup_erase, AList.lookup_erase]
  | expire key secs =>
    have hl : s.hashmap.lookup key = s'.hashmap.lookup key := h.lookup
    have hgone : (s.hashmap.erase key).lookup key = (s'.hashmap.erase key).lookup key := by
      rw [AList.lookup_erase, AList.lookup_erase]
    simp only [run, Store.expire, hl]
    split
    · exact ⟨rfl, hgone, h.heap⟩
    · split
      · exact ⟨rfl, hgone, h.heap⟩
      · split
        · exact ⟨rfl, hgone, h.heap⟩
        · refine ⟨rfl, ?_, fun d => ?_⟩
          · show AList.lookup key (AList.insert key _ _) = AList.lookup key (AList.insert key _ _)
            rw [AList.lookup_insert, AList.lookup_insert]
          · show (d, key) ∈ (s.expirationHeap.push _).entries ↔
              (d, key) ∈ (s'.expirationHeap.push _).entries
            rw [mem_push, mem_push]
            exact or_congr .rfl (h.heap d)

/-! ## Sweeps -/

/-- The candidates are the keys of the deadlines that have come. -/
theorem mem_candidates {now : Instant} {l : List (Instant × Key)}
    (hs : l.Pairwise fun a b => a.1 ≤ b.1) (c : List Key) (k : Key) :
    k ∈ (popDue now l c).1 ↔ k ∈ c ∨ ∃ d, d ≤ now ∧ (d, k) ∈ l := by
  induction l generalizing c with
  | nil => simp [popDue]
  | cons e l ih =>
    obtain ⟨hhead, htail⟩ := List.pairwise_cons.mp hs
    obtain ⟨d, key⟩ := e
    unfold popDue
    split
    · rename_i hdue
      rw [ih htail, List.mem_insert_iff]
      constructor
      · intro h
        rcases h with (rfl | h) | ⟨d', hd', hm⟩
        · exact .inr ⟨d, hdue, List.mem_cons_self⟩
        · exact .inl h
        · exact .inr ⟨d', hd', List.mem_cons_of_mem _ hm⟩
      · intro h
        rcases h with h | ⟨d', hd', hm⟩
        · exact .inl (.inr h)
        · rcases List.mem_cons.mp hm with he | hm
          · cases he
            exact .inl (.inl rfl)
          · exact .inr ⟨d', hd', hm⟩
    · rename_i hlate
      refine ⟨.inl, fun h => h.resolve_right ?_⟩
      intro hex
      obtain ⟨d', hd', hm⟩ := hex
      rcases List.mem_cons.mp hm with he | hm
      · cases he
        exact hlate hd'
      · exact hlate (le_trans (hhead _ hm) hd')

theorem sweepPop_same (now : Instant) {k : Key} {s s' : Store} (h : SameAt k s s') :
    SameAt k (s.sweepPop now).2 (s'.sweepPop now).2 ∧
      (k ∈ (s.sweepPop now).1 ↔ k ∈ (s'.sweepPop now).1) := by
  refine ⟨⟨h.lookup, fun d => ?_⟩, ?_⟩
  · show (d, k) ∈ (popDue now s.expirationHeap.entries []).2 ↔
      (d, k) ∈ (popDue now s'.expirationHeap.entries []).2
    rw [popDue_rest s.expirationHeap.sorted, popDue_rest s'.expirationHeap.sorted, List.mem_filter,
      List.mem_filter, h.heap d]
  · show k ∈ (popDue now s.expirationHeap.entries []).1 ↔
      k ∈ (popDue now s'.expirationHeap.entries []).1
    rw [mem_candidates s.expirationHeap.sorted, mem_candidates s'.expirationHeap.sorted]
    simp only [h.heap]

theorem sweepRemove_same (now : Instant) {k : Key} {s s' : Store} (h : SameAt k s s')
    {candidates candidates' : List Key} (hc : k ∈ candidates ↔ k ∈ candidates') :
    SameAt k (s.sweepRemove now candidates) (s'.sweepRemove now candidates') := by
  refine ⟨Option.ext fun v => ?_, h.heap⟩
  show (s.sweepRemove now candidates).hashmap.lookup k = some v ↔
    (s'.sweepRemove now candidates').hashmap.lookup k = some v
  rw [lookup_sweepRemove, lookup_sweepRemove, h.lookup, hc]

/-! ## Runs -/

/-- The event is not a call for another key. -/
def Event.concerns (k : Key) : Event → Bool
  | .call c => c.key = k
  | _ => true

namespace System

/-- The systems agree on the clock, on the key and on what a sweep in progress does to it. -/
structure SameAt (k : Key) (x y : System) : Prop where
  clock : x.clock = y.clock
  store : Store.SameAt k x.store y.store
  sweep : (x.sweep = none ∧ y.sweep = none) ∨ ∃ now candidates candidates',
    x.sweep = some (now, candidates) ∧ y.sweep = some (now, candidates') ∧
      (k ∈ candidates ↔ k ∈ candidates')

theorem SameAt.refl (k : Key) (x : System) : SameAt k x x where
  clock := rfl
  store := .refl k x.store
  sweep := by
    cases h : x.sweep with
    | none => exact .inl ⟨rfl, rfl⟩
    | some s => exact .inr ⟨s.1, s.2, s.2, rfl, rfl, .rfl⟩

variable {k : Key} {x y : System}

/-- The clock, the sweeper and the calls for the key do the same to both. -/
theorem SameAt.step (h : SameAt k x y) {e : Event} (he : ∀ c, e = .call c → c.key = k) :
    (x.step e).1 = (y.step e).1 ∧ SameAt k (x.step e).2 (y.step e).2 := by
  cases e with
  | advance t => exact ⟨rfl, by simp only [System.step, h.clock], h.store, h.sweep⟩
  | call c =>
    obtain rfl := he c rfl
    obtain ⟨hreply, hsame⟩ := c.run_same x.clock h.store
    simp only [System.step, ← h.clock]
    exact ⟨by rw [hreply], rfl, hsame, h.sweep⟩
  | pop now =>
    rcases h.sweep with ⟨hx, hy⟩ | ⟨now', c, c', hx, hy, -⟩
    · obtain ⟨hsame, hcand⟩ := sweepPop_same (min now x.clock) h.store
      simp only [System.step, hx, hy, ← h.clock]
      exact ⟨trivial, rfl, hsame, .inr ⟨_, _, _, rfl, rfl, hcand⟩⟩
    · simp only [System.step, hx, hy]
      exact ⟨trivial, h⟩
  | remove =>
    rcases h.sweep with ⟨hx, hy⟩ | ⟨now, c, c', hx, hy, hcand⟩
    · simp only [System.step, hx, hy]
      exact ⟨trivial, h⟩
    · simp only [System.step, hx, hy]
      exact ⟨trivial, h.clock, sweepRemove_same now h.store hcand, .inl ⟨rfl, rfl⟩⟩

/-- A call for another key goes unnoticed. -/
theorem SameAt.skip (h : SameAt k x y) {c : Call} (hc : c.key ≠ k) :
    SameAt k (x.step (.call c)).2 y :=
  ⟨h.clock, (c.run_other x.clock x.store hc.symm).trans h.store, h.sweep⟩

/-- The answers to the calls for the key. -/
def answers (k : Key) : List Event → System → List (Option Reply)
  | [], _ => []
  | e :: es, x => (if e.concerns k then (x.step e).1 else []) ++ answers k es (x.step e).2

theorem SameAt.run (h : SameAt k x y) (es : List Event) :
    x.answers k es = (y.run (es.filter (·.concerns k))).1 ∧
      SameAt k (x.run es).2 (y.run (es.filter (·.concerns k))).2 := by
  induction es generalizing x y with
  | nil => exact ⟨rfl, h⟩
  | cons e es ih =>
    by_cases he : e.concerns k = true
    · have hkey : ∀ c, e = .call c → c.key = k := by
        intro c hc
        subst hc
        exact of_decide_eq_true he
      obtain ⟨hreply, hsame⟩ := h.step hkey
      obtain ⟨hreplies, hsames⟩ := ih hsame
      rw [List.filter_cons_of_pos he]
      exact ⟨by rw [answers, if_pos he, run, hreply, hreplies], hsames⟩
    · rw [List.filter_cons_of_neg he, answers, if_neg he]
      cases e with
      | call c => exact ih (h.skip fun hc => he (decide_eq_true hc))
      | _ => exact absurd rfl he

/-- Leave out all calls for other keys: the calls for the key are answered the same, panics
included, and its entry ends up the same, from any state of the store and of the sweeper. -/
theorem keys_independent (x : System) (es : List Event) (k : Key) :
    x.answers k es = (x.run (es.filter (·.concerns k))).1 ∧
      (x.run es).2.store.hashmap.lookup k =
        (x.run (es.filter (·.concerns k))).2.store.hashmap.lookup k := by
  obtain ⟨hanswers, hsame⟩ := (SameAt.refl k x).run es
  exact ⟨hanswers, hsame.store.lookup⟩

/-! ## Orders nobody can tell -/

theorem SameAt.symm (h : SameAt k x y) : SameAt k y x where
  clock := h.clock.symm
  store := h.store.symm
  sweep := by
    rcases h.sweep with ⟨hx, hy⟩ | ⟨now, c, c', hx, hy, hc⟩
    · exact .inl ⟨hy, hx⟩
    · exact .inr ⟨now, c', c, hy, hx, hc.symm⟩

/-- The systems agree at every key. Their maps, heaps and candidates may be in any order. -/
def Alike (x y : System) : Prop := ∀ k, SameAt k x y

theorem Alike.quiet (h : Alike x y) {e : Event} (he : ∀ c, e ≠ .call c) :
    (x.step e).1 = (y.step e).1 ∧ Alike (x.step e).2 (y.step e).2 := by
  have hsame := fun k => (h k).step fun c hc => absurd hc (he c)
  exact ⟨(hsame []).1, fun k => (hsame k).2⟩

theorem Alike.step (h : Alike x y) (e : Event) :
    (x.step e).1 = (y.step e).1 ∧ Alike (x.step e).2 (y.step e).2 := by
  cases e with
  | call c =>
    obtain ⟨hreply, hsame⟩ := (h c.key).step (e := .call c) fun _ he => by cases he; rfl
    refine ⟨hreply, fun k => ?_⟩
    by_cases hk : c.key = k
    · subst hk
      exact hsame
    · exact (((h k).skip hk).symm.skip hk).symm
  | advance t | pop now | remove => exact h.quiet (by simp)

theorem Alike.run (h : Alike x y) (es : List Event) :
    (x.run es).1 = (y.run es).1 ∧ Alike (x.run es).2 (y.run es).2 := by
  induction es generalizing x y with
  | nil => exact ⟨rfl, h⟩
  | cons e es ih =>
    obtain ⟨hreply, hsame⟩ := h.step e
    obtain ⟨hreplies, hsames⟩ := ih hsame
    exact ⟨by rw [System.run, System.run, hreply, hreplies], hsames⟩

end System

section Restored

variable {now : SystemTime} {clocks : Key → Clocks} {a b : Snapshot}

theorem fromSnapshot_error_iff (hnd : (a.entries.map (·.key)).Nodup) (err : SnapshotError) :
    fromSnapshot now clocks a = .error err ↔
      err = .durationOverflow ∧ ¬ ∀ e ∈ a.entries, isPending (asMillis now.val) e.value = true →
        ∃ v, StoreValue.tryFrom (clocks e.key) e.value = .ok v := by
  rw [← fromSnapshot_ok_iff hnd]
  constructor
  · intro h
    refine ⟨?_, by simp [h]⟩
    cases err with
    | durationOverflow => rfl
    | duplicateKey => exact absurd h (fromSnapshot_ne_duplicateKey hnd)
  · intro h
    obtain ⟨rfl, hno⟩ := h
    cases hr : fromSnapshot now clocks a with
    | ok s => exact absurd ⟨s, hr⟩ hno
    | error err =>
      cases err with
      | durationOverflow => rfl
      | duplicateKey => exact absurd hr (fromSnapshot_ne_duplicateKey hnd)

/-- Snapshots with the same entries are refused alike. -/
theorem fromSnapshot_error_same (hab : ∀ e, e ∈ a.entries ↔ e ∈ b.entries)
    (ha : (a.entries.map (·.key)).Nodup) (hb : (b.entries.map (·.key)).Nodup)
    (err : SnapshotError) :
    fromSnapshot now clocks a = .error err ↔ fromSnapshot now clocks b = .error err := by
  rw [fromSnapshot_error_iff ha, fromSnapshot_error_iff hb]
  simp only [hab]

/-- And they are restored alike. -/
theorem fromSnapshot_same (hab : ∀ e, e ∈ a.entries ↔ e ∈ b.entries)
    (ha : (a.entries.map (·.key)).Nodup) (hb : (b.entries.map (·.key)).Nodup) {s s' : Store}
    (hs : fromSnapshot now clocks a = .ok s) (hs' : fromSnapshot now clocks b = .ok s') (k : Key) :
    SameAt k s s' := by
  have hl : s.hashmap.lookup k = s'.hashmap.lookup k := by
    refine Option.ext fun v => ?_
    show s.hashmap.lookup k = some v ↔ s'.hashmap.lookup k = some v
    rw [lookup_fromSnapshot hs ha, lookup_fromSnapshot hs' hb]
    simp only [hab]
  refine ⟨hl, fun d => ?_⟩
  rw [fromSnapshot_heap hs, fromSnapshot_heap hs', mem_collectHeap, mem_collectHeap, hl]

end Restored

/-- Systems that differ in the order of their maps, of their candidates and of the deadlines
that come at the same time give the same answers in every run. An archive may list the entries of
either in any order: it is refused alike, and else restored to stores that are alike again. The
clock readings of the dump and of the restore are the same for each key, in whatever order they
are made; readings at one moment are. -/
theorem order_unobservable {x y : System} (h : System.Alike x y) (es : List Event) (now : Instant)
    (dump : Key → Clocks) (wall : SystemTime) (restore : Key → Clocks) {a b : Snapshot}
    (ha : a.entries.Perm ((x.run es).2.store.toSnapshot now dump).entries)
    (hb : b.entries.Perm ((y.run es).2.store.toSnapshot now dump).entries) :
    (x.run es).1 = (y.run es).1 ∧ System.Alike (x.run es).2 (y.run es).2 ∧
      (∀ err, fromSnapshot wall restore a = .error err ↔ fromSnapshot wall restore b = .error err) ∧
      ∀ s s', fromSnapshot wall restore a = .ok s → fromSnapshot wall restore b = .ok s' →
        ∀ t, System.Alike ⟨t, s, none⟩ ⟨t, s', none⟩ := by
  obtain ⟨hreplies, hsame⟩ := h.run es
  have hab : ∀ e, e ∈ a.entries ↔ e ∈ b.entries := by
    intro e
    rw [ha.mem_iff, hb.mem_iff, mem_toSnapshot, mem_toSnapshot, (hsame e.key).store.lookup]
  have hna : (a.entries.map (·.key)).Nodup :=
    (ha.map _).nodup_iff.mpr (toSnapshot_nodup now dump _)
  have hnb : (b.entries.map (·.key)).Nodup :=
    (hb.map _).nodup_iff.mpr (toSnapshot_nodup now dump _)
  refine ⟨hreplies, hsame, fromSnapshot_error_same hab hna hnb, ?_⟩
  intro s s' hs hs' t k
  exact ⟨rfl, fromSnapshot_same hab hna hnb hs hs' k, .inl ⟨rfl, rfl⟩⟩

/-- Two keys set in either order, and an archive written backwards. -/
theorem order_unobservable_set :
    let x := ((System.start ⟨0, by decide⟩).run [.call (.set [1] [7]), .call (.set [2] [8])]).2
    let y := ((System.start ⟨0, by decide⟩).run [.call (.set [2] [8]), .call (.set [1] [7])]).2
    let es : List Event := [.call (.expire [2] 5), .call (.del [1]), .call (.get [2])]
    let dump : Key → Clocks := fun _ => ⟨⟨10^18, by decide⟩, ⟨0, by decide⟩⟩
    x.store.hashmap.entries ≠ y.store.hashmap.entries ∧ (x.run es).1 = (y.run es).1 ∧
      ∀ s s', fromSnapshot ⟨10^18, by decide⟩ dump
          ⟨((x.run es).2.store.toSnapshot ⟨0, by decide⟩ dump).entries.reverse⟩ = .ok s →
        fromSnapshot ⟨10^18, by decide⟩ dump
          ((y.run es).2.store.toSnapshot ⟨0, by decide⟩ dump) = .ok s' →
        ∀ t, System.Alike ⟨t, s, none⟩ ⟨t, s', none⟩ := by
  intro x y es dump
  have hperm : x.store.hashmap.entries.Perm y.store.hashmap.entries := by decide
  have hxy : System.Alike x y := fun k =>
    ⟨rfl, ⟨AList.perm_lookup hperm, fun _ => .rfl⟩, .inl ⟨rfl, rfl⟩⟩
  have hback : ∀ s : Snapshot, (⟨s.entries.reverse⟩ : Snapshot).entries.Perm s.entries :=
    fun s => List.reverse_perm s.entries
  obtain ⟨hreplies, -, -, hrestored⟩ := order_unobservable hxy es ⟨0, by decide⟩ dump
    ⟨10^18, by decide⟩ dump (hback _) (List.Perm.refl _)
  exact ⟨by decide, hreplies, hrestored⟩

end Redlike.Store
