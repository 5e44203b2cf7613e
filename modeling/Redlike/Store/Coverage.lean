import Redlike.Store.Locks
import Redlike.Snapshot.Model

/-!
# The heap covers the map

No deadline in the map is forgotten by the sweeper: it is in the heap, or a sweep
has taken it from there and will take the entry out of the map. The heap may know of
more: deadlines of keys that have since been set, deleted or given another one.
-/
namespace Redlike.Store

/-- The clock reading and the candidates of a sweep between its phases. -/
def Sweeper.candidates : Sweeper → Option (Instant × List Key)
  | .popped now candidates | .mapHeld now candidates => some (now, candidates)
  | _ => none

/-- Every deadline in the map is in the heap. -/
def HeapCovers (s : Store) : Prop :=
  ∀ k v d, s.hashmap.lookup k = some v → v.expirationTime = some d →
    (d, k) ∈ s.expirationHeap.entries

/-- ... or with the sweep in progress. -/
def Covered (s : Store) (w : Sweeper) : Prop :=
  ∀ k v d, s.hashmap.lookup k = some v → v.expirationTime = some d →
    (d, k) ∈ s.expirationHeap.entries ∨
      ∃ now candidates, w.candidates = some (now, candidates) ∧ k ∈ candidates ∧ d ≤ now

theorem HeapCovers.covered {s : Store} (h : HeapCovers s) (w : Sweeper) : Covered s w :=
  fun k v d hl hd => .inl (h k v d hl hd)

/-- Outside a sweep everything is in the heap. -/
theorem Covered.heapCovers {s : Store} {w : Sweeper} (h : Covered s w) (hw : w.candidates = none) :
    HeapCovers s := by
  intro k v d hl hd
  rcases h k v d hl hd with hheap | ⟨now, candidates, hsome, -⟩
  · exact hheap
  · rw [hw] at hsome
    cases hsome

/-! ## Where stores come from -/

theorem heapCovers_new : HeapCovers .new := by
  intro k v d hl
  simp [Store.new, fromParts] at hl

theorem heapCovers_fromSnapshot {now : SystemTime} {clocks : Key → Clocks} {snapshot : Snapshot}
    {s : Store} (h : fromSnapshot now clocks snapshot = .ok s) : HeapCovers s := by
  intro k v d hl hd
  rw [fromSnapshot_heap h]
  exact mem_collectHeap.mpr ⟨v, hl, hd⟩

/-! ## What calls and sweeps keep -/

theorem Covered.run {s : Store} {w : Sweeper} (h : Covered s w) (now : Instant) (c : Call) :
    Covered (c.run now s).2 w := by
  intro k v d hl hd
  rcases c.lookup_run hl with hold | hnone | ⟨secs, d', -, hd', -, hmem⟩
  · rcases h k v d hold hd with hheap | hsweep
    · exact .inl (c.heap_run hheap)
    · exact .inr hsweep
  · rw [hnone] at hd
    cases hd
  · obtain rfl : d = d' := Option.some.inj (hd.symm.trans hd')
    exact .inl hmem

/-- Popping the heap hands the due deadlines to the sweep. -/
theorem Covered.pop {s : Store} {w : Sweeper} (h : Covered s w) (hw : w.candidates = none)
    (now : Instant) : Covered (s.sweepPop now).2 (.popped now (s.sweepPop now).1) := by
  intro k v d hl hd
  obtain hkept | ⟨hdue, hmem⟩ :=
    (mem_popDue now s.expirationHeap.entries []).2 (d, k) (h.heapCovers hw k v d hl hd)
  · exact .inl hkept
  · exact .inr ⟨now, _, rfl, hmem, hdue⟩

/-- The second phase removes every entry it was handed. -/
theorem Covered.remove {s : Store} {w : Sweeper} (h : Covered s w) {now : Instant}
    {candidates : List Key} (hw : w.candidates = some (now, candidates)) :
    HeapCovers (s.sweepRemove now candidates) := by
  intro k v d hl hd
  obtain ⟨hl, hlive⟩ := lookup_sweepRemove.mp hl
  rcases h k v d hl hd with hheap | ⟨now', candidates', hsome, hmem, hle⟩
  · exact hheap
  · obtain ⟨rfl, rfl⟩ := Prod.mk.inj (Option.some.inj (hw.symm.trans hsome))
    have hlive := hlive hmem
    simp [isExpired, hd, hle] at hlive

section Steps

variable {ι : Type} {x y : State ι}

theorem Covered.sweepStep (hx : Covered x.store x.sweeper) {a : Act ι} (hs : SweepStep x a y) :
    Covered y.store y.sweeper := by
  have rest := hx.heapCovers
  cases hs with
  | pop hs => exact hx.pop (by rw [hs]; rfl) _
  | lockMap hs hf =>
    rw [hs] at hx
    exact hx
  | remove hs => exact (hx.remove (by rw [hs]; rfl)).covered _
  | lockHeap hs hf => exact (rest (by rw [hs]; rfl)).covered _
  | clock hs => exact (rest (by rw [hs]; rfl)).covered _
  | peek hs hf => exact (rest (by rw [hs]; rfl)).covered _
  | permit hs hn => exact (rest (by rw [hs]; rfl)).covered _
  | park hs hn ht => exact (rest (by rw [hs]; rfl)).covered _
  | panic hs ht => exact (rest (by rw [hs]; rfl)).covered _
  | wake hs hn => exact (rest (by rw [hs]; rfl)).covered _
  | timeout hs ht | alarm hs ht =>
    refine HeapCovers.covered (s := { x.store with wakeup := _ }) (rest ?_) _
    rcases hs with hs | hs
    · rw [hs]; rfl
    · rw [hs]; rfl

variable [DecidableEq ι]

theorem Covered.callStep (hx : Covered x.store x.sweeper) {a : Act ι} (hs : CallStep x a y) :
    Covered y.store y.sweeper := by
  cases hs with
  | set hp => exact hx.run x.clock (.set _ _)
  | finish hp hr => exact hx.run _ _
  | panic hp hr => exact hx.run _ _
  | _ => exact hx

theorem Covered.step (hx : Covered x.store x.sweeper) {a : Act ι} (hs : Step x a y) :
    Covered y.store y.sweeper := by
  cases hs with
  | tick t ht => exact hx
  | call hs => exact hx.callStep hs
  | sweep hs => exact hx.sweepStep hs

end Steps

end Redlike.Store
