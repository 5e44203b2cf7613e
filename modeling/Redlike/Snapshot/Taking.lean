import Redlike.Store.Coverage
import Redlike.Store.Refinement

/-!
# A snapshot beside the sweeper

`to_snapshot` reads the clock before it waits for the map, and sweeps that read it later
may come in between and remove what was still alive then. Since a sweep removes
everything that was due at its own reading, the snapshot is still that of one moment:
the clock reading of `to_snapshot`, or the latest one of such a sweep.
-/
namespace Redlike.Store

open Lib

variable {ι : Type}

/-- The store as a snapshot would find it: its entries that are alive at the clock reading
`now` are those of `s` that are alive at some moment since. -/
structure Taking (s : Store) (x : State ι) (now moment : Instant) : Prop where
  since : now ≤ moment
  upto : moment ≤ x.clock
  agree : TtlMap.Agree moment.val (contents x.store) (contents s)
  gap : ∀ k v d, x.store.hashmap.lookup k = some v → v.expirationTime = some d → now < d →
    moment < d
  /-- A sweep that read the clock after `now` has taken all that was due from the heap. -/
  popped : ∀ r candidates, x.sweeper.candidates = some (r, candidates) → now < r →
    ∀ e ∈ x.store.expirationHeap.entries, r < e.1

theorem Taking.tick {s : Store} {x : State ι} {now moment t : Instant} (h : Taking s x now moment)
    (ht : x.clock ≤ t) : Taking s { x with clock := t } now moment :=
  { h with upto := le_trans h.upto ht }

/-- The second phase of a sweep: if it read the clock later than the moment, then that is the
new one, since of what is left nothing was due. -/
theorem Taking.remove {s : Store} {x : State ι} {now moment r : Instant}
    {candidates : List Key} (h : Taking s x now moment) (hc : Covered x.store x.sweeper)
    (hg : Guarded x) (hs : x.sweeper = .mapHeld r candidates) :
    Taking s { x with store := x.store.sweepRemove r candidates, sweeper := .swept } now
      (max moment r) := by
  have hsome : x.sweeper.candidates = some (r, candidates) := by rw [hs]; rfl
  have hle : r ≤ x.clock := hg.swept r (by rw [hs]; rfl)
  have hcovers := hc.remove hsome
  exact {
    since := le_trans h.since (le_max_left _ _)
    upto := max_le h.upto hle
    agree := by
      have hr : r.val ≤ (max moment r).val := le_max_right moment r
      have hm : moment.val ≤ (max moment r).val := le_max_left moment r
      exact ((sweepRemove_agree r candidates x.store).mono hr).trans (h.agree.mono hm)
    gap := by
      intro k v d hl hd hlt
      refine max_lt (h.gap k v d (lookup_sweepRemove.mp hl).1 hd hlt) ?_
      by_cases hr : now < r
      · exact h.popped r candidates hsome hr (d, k) (hcovers k v d hl hd)
      · exact lt_of_le_of_lt (not_lt.mp hr) hlt
    popped := nofun }

theorem Taking.sweepStep {s : Store} {x z : State ι} {now moment : Instant}
    (h : Taking s x now moment) (hc : Covered x.store x.sweeper) (hg : Guarded x)
    {a : Act ι} (hs : SweepStep x a z) : ∃ moment', Taking s z now moment' := by
  cases hs with
  | remove hs => exact ⟨_, h.remove hc hg hs⟩
  | @pop r hs =>
    refine ⟨moment, { h with popped := ?_ }⟩
    intro r' candidates hsome _
    obtain ⟨rfl, -⟩ := Prod.mk.inj (Option.some.inj hsome)
    intro e he
    have hrest : e ∈ (popDue r x.store.expirationHeap.entries []).2 := he
    rw [popDue_rest x.store.expirationHeap.sorted] at hrest
    simpa using (List.mem_filter.mp hrest).2
  | @lockMap r candidates hs hf =>
    refine ⟨moment, { h with popped := ?_ }⟩
    intro r' candidates' hsome
    exact h.popped r' candidates' (by rw [hs]; exact hsome)
  | _ => exact ⟨moment, { h with popped := nofun }⟩

/-- What was saved is what is alive at the moment. -/
theorem Taking.entries {s : Store} {x : State ι} {now moment : Instant}
    (h : Taking s x now moment) (clocks : Key → Clocks) (k : Key) (sv : SnapshotValue) :
    ⟨k, sv⟩ ∈ (x.store.toSnapshot now clocks).entries ↔
      ∃ v, s.hashmap.lookup k = some v ∧ isExpired v moment = false ∧
        sv = .from (clocks k) v := by
  rw [mem_toSnapshot]
  -- alive at the reading is alive at the moment, for what is in the map
  have hiff : ∀ v, x.store.hashmap.lookup k = some v ∧ isExpired v now = false ↔
      s.hashmap.lookup k = some v ∧ isExpired v moment = false := by
    intro v
    constructor
    · rintro ⟨hl, hlive⟩
      have hlater : isExpired v moment = false := by
        rcases v with ⟨value, _ | d⟩
        · rfl
        · have hlt := h.gap k _ d hl rfl (lt_of_not_ge (of_decide_eq_false hlive))
          exact decide_eq_false (not_le.mpr hlt)
      exact ⟨System.lookup_of_agree h.agree.symm hl hlater, hlater⟩
    · rintro ⟨hl, hlive⟩
      refine ⟨System.lookup_of_agree h.agree hl hlive, ?_⟩
      rcases v with ⟨value, _ | d⟩
      · rfl
      · have hlt : moment < d := lt_of_not_ge (of_decide_eq_false hlive)
        exact decide_eq_false (not_le.mpr (lt_of_le_of_lt h.since hlt))
  constructor
  · rintro ⟨v, hl, hlive, rfl⟩
    obtain ⟨hl', hlive'⟩ := (hiff v).mp ⟨hl, hlive⟩
    exact ⟨v, hl', hlive', rfl⟩
  · rintro ⟨v, hl, hlive, rfl⟩
    obtain ⟨hl', hlive'⟩ := (hiff v).mpr ⟨hl, hlive⟩
    exact ⟨v, hl', hlive', rfl⟩

end Redlike.Store
