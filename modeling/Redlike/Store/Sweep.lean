import Redlike.Store.Coverage

/-!
# What a sweep leaves

No deadline is forgotten: along every run the sweeper knows of every deadline in the
map, from the heap or from the sweep it is in. So a sweep whose phases are not
separated takes out of the map and out of the heap exactly what is due.
-/
namespace Redlike.Store

/-- What an uninterrupted sweep at `now` makes of a store. -/
structure Swept (now : Instant) (s s' : Store) : Prop where
  map : ∀ k v, s'.hashmap.lookup k = some v ↔
    s.hashmap.lookup k = some v ∧ ∀ d, v.expirationTime = some d → now < d
  heap : s'.expirationHeap.entries = s.expirationHeap.entries.filter fun e => now < e.1

theorem isExpired_eq_false {v : StoreValue} {now : Instant} :
    isExpired v now = false ↔ ∀ d, v.expirationTime = some d → now < d := by
  unfold isExpired
  cases v.expirationTime with
  | none => simp
  | some d => simp

theorem HeapCovers.swept {s : Store} (h : HeapCovers s) (now : Instant) :
    Swept now s (s.sweepExpiredOnce now) where
  map k v := by
    have hpop : (s.sweepPop now).2.hashmap = s.hashmap := rfl
    rw [sweepExpiredOnce, lookup_sweepRemove, hpop, ← isExpired_eq_false]
    refine and_congr_right fun hl => ⟨?_, fun hlive _ => hlive⟩
    intro hcand
    by_contra hdead
    -- an expired entry has its deadline in the heap, so the first phase made it a candidate
    rw [isExpired_eq_false] at hdead
    push Not at hdead
    obtain ⟨d, hd, hdue⟩ := hdead
    rcases (mem_popDue now s.expirationHeap.entries []).2 (d, k) (h k v d hl hd) with hkept | ⟨-, hmem⟩
    · rw [popDue_rest s.expirationHeap.sorted, List.mem_filter, decide_eq_true_eq] at hkept
      exact absurd hkept.2 (not_lt_of_ge hdue)
    · exact absurd (isExpired_eq_false.mp (hcand hmem) d hd) (not_lt_of_ge hdue)
  heap := popDue_rest s.expirationHeap.sorted []

/-- Where a server's store comes from. -/
def Started (s : Store) : Prop :=
  s = .new ∨ ∃ now clocks snapshot, fromSnapshot now clocks snapshot = .ok s

theorem Started.heapCovers {s : Store} (h : Started s) : HeapCovers s := by
  rcases h with rfl | ⟨now, clocks, snapshot, hs⟩
  · exact heapCovers_new
  · exact heapCovers_fromSnapshot hs

section Runs

variable {ι : Type}

/-- The sweeper pops the heap at its reading `now`, locks the map and removes what it has
popped, and nobody else moves. -/
def SweepsOnce (x : State ι) (now : Instant) (y : State ι) : Prop :=
  x.sweeper = .clocked now ∧ ∃ x₁ x₂, SweepStep x .sweep x₁ ∧ SweepStep x₁ .sweep x₂ ∧
    SweepStep x₂ .sweep y

theorem SweepStep.pops {x y : State ι} {a : Act ι} {now : Instant} (h : SweepStep x a y)
    (hx : x.sweeper = .clocked now) :
    y = { x with
      store := (x.store.sweepPop now).2, sweeper := .popped now (x.store.sweepPop now).1 } := by
  cases h with
  | pop hs =>
    rw [hx] at hs
    cases hs
    rfl
  | _ => simp_all

theorem SweepStep.locksMap {x y : State ι} {a : Act ι} {now : Instant} {candidates : List Key}
    (h : SweepStep x a y) (hx : x.sweeper = .popped now candidates) :
    y = { x with sweeper := .mapHeld now candidates } := by
  cases h with
  | lockMap hs =>
    rw [hx] at hs
    cases hs
    rfl
  | _ => simp_all

theorem SweepStep.removes {x y : State ι} {a : Act ι} {now : Instant} {candidates : List Key}
    (h : SweepStep x a y) (hx : x.sweeper = .mapHeld now candidates) :
    y = { x with store := x.store.sweepRemove now candidates, sweeper := .swept } := by
  cases h with
  | remove hs =>
    rw [hx] at hs
    cases hs
    rfl
  | _ => simp_all

/-- These steps are the code of one sweep. -/
theorem SweepsOnce.store {x y : State ι} {now : Instant} (h : SweepsOnce x now y) :
    y.store = x.store.sweepExpiredOnce now := by
  obtain ⟨hx, x₁, x₂, h₁, h₂, h₃⟩ := h
  rw [h₁.pops hx] at h₂
  rw [h₂.locksMap rfl] at h₃
  rw [h₃.removes rfl]
  rfl

variable [DecidableEq ι]

theorem covered_run {G : State ι → Act ι → Prop} {t : Instant} {s : Store} {x : State ι}
    (hs : Started s) (hr : Run G (.start t s) x) : Covered x.store x.sweeper := by
  induction hr with
  | nil => exact hs.heapCovers.covered _
  | snoc _ _ hstep ih => exact ih.step hstep

/-- In every reachable state the deadline of every entry is in the heap or with the sweep
in progress. So a sweep, in the steps of the sweeper or as one piece of code that starts
outside another sweep, takes exactly what is due. -/
theorem sweeper_forgets_nothing {G : State ι → Act ι → Prop} {t : Instant} {s : Store} {x : State ι}
    (hs : Started s) (hr : Run G (.start t s) x) :
    (∀ k v d, x.store.hashmap.lookup k = some v → v.expirationTime = some d →
      (d, k) ∈ x.store.expirationHeap.entries ∨
        ∃ now candidates, x.sweeper.candidates = some (now, candidates) ∧ k ∈ candidates ∧ d ≤ now) ∧
    (x.sweeper.candidates = none → ∀ now, Swept now x.store (x.store.sweepExpiredOnce now)) ∧
    ∀ now y, SweepsOnce x now y → Swept now x.store y.store := by
  have hc := covered_run hs hr
  have outside (hw : x.sweeper.candidates = none) (now : Instant) :
      Swept now x.store (x.store.sweepExpiredOnce now) :=
    (hc.heapCovers hw).swept now
  refine ⟨hc, outside, ?_⟩
  intro now y hy
  rw [hy.store]
  exact outside (by rw [hy.1]; rfl) now

/-- SET and EXPIRE; the sweep at two seconds has popped the heap, and the key waits for its
second phase. -/
theorem sweeper_forgets_nothing_popped :
    ∃ (x : State (Fin 2)) (v : StoreValue), Run (fun _ _ => True) (.start ⟨0, by decide⟩ .new) x ∧
      x.store.hashmap.lookup [1] = some v ∧ v.expirationTime = some ⟨1000000000, by decide⟩ ∧
      ∃ now candidates, x.sweeper.candidates = some (now, candidates) ∧ [1] ∈ candidates := by
  have h : Run (fun _ _ => True) (.start ⟨0, by decide⟩ .new) (.start ⟨0, by decide⟩ .new) :=
    .nil (ι := Fin 2) _
  have h := h.snoc trivial (.call (.invoke (i := 0) (.set [1] [7]) rfl))
  have h := h.snoc trivial (.call (.lock (i := 0) rfl (.inr ⟨_, _, rfl⟩) ⟨rfl, by decide⟩))
  have h := h.snoc trivial (.call (.set (i := 0) rfl))
  have h := h.snoc trivial (.call (.invoke (i := 1) (.expire [1] 1) rfl))
  have h := h.snoc trivial (.call (.expireHeap (i := 1) rfl ⟨rfl, by decide⟩))
  have h := h.snoc trivial (.call (.expireLock (i := 1) rfl ⟨rfl, by decide⟩))
  have h := h.snoc trivial (.call (.clock (i := 1) rfl (.inr ⟨_, _, rfl⟩)))
  have h := h.snoc trivial (.call (.finish (i := 1) (r := .flag 1) rfl rfl))
  have h := h.snoc trivial (.tick ⟨2000000000, by decide⟩ (by decide))
  have h := h.snoc trivial (.sweep (.lockHeap rfl ⟨rfl, by decide⟩))
  have h := h.snoc trivial (.sweep (.clock rfl))
  have h := h.snoc trivial (.sweep (.pop rfl))
  refine ⟨_, ⟨[7], some ⟨1000000000, by decide⟩⟩, h, rfl, rfl, ?_⟩
  obtain hheap | ⟨now, candidates, hsome, hmem, -⟩ :=
    (sweeper_forgets_nothing (.inl rfl) h).1 [1] _ ⟨1000000000, by decide⟩ rfl rfl
  · exact absurd hheap (by decide)
  · exact ⟨now, candidates, hsome, hmem⟩

end Runs
end Redlike.Store
