import Redlike.Store.Ideal

/-!
# The store refines the ideal map, whatever the sweeper does

A run interleaves calls with the two phases of the one sweeper task. The map may
hold entries that have expired, the heap entries of keys that have since been set,
deleted or given another deadline, and a sweep finishes at any time after it has
popped the heap. The simulation only asks that the store and the ideal map look the
same at the current clock.
-/
namespace Redlike.Store

open Lib

/-- The clock moves, a client calls, or the sweeper runs one of its phases. Any list
of events is a schedule: a clock set back stands still, a sweep reads the clock no
later than now, and the sweeper pops only when it has nothing left to remove. -/
inductive Event where
  | advance (t : Instant)
  | call (c : Call)
  | pop (now : Instant)
  | remove
  deriving DecidableEq

/-- `sweep` is the sweeper between its phases: its clock reading and its candidates. -/
structure System where
  clock : Instant
  store : Store
  sweep : Option (Instant × List Key)

namespace System

def start (t : Instant) : System := ⟨t, .new, none⟩

def step (e : Event) (x : System) : List (Option Reply) × System :=
  match e with
  | .advance t => ([], { x with clock := max x.clock t })
  | .call c =>
    let r := c.run x.clock x.store
    ([r.1], { x with store := r.2 })
  | .pop now =>
    match x.sweep with
    | some _ => ([], x)
    | none =>
      let now := min now x.clock
      let r := x.store.sweepPop now
      ([], { x with store := r.2, sweep := some (now, r.1) })
  | .remove =>
    match x.sweep with
    | none => ([], x)
    | some (now, candidates) =>
      ([], { x with store := x.store.sweepRemove now candidates, sweep := none })

def run : List Event → System → List (Option Reply) × System
  | [], x => ([], x)
  | e :: es, x => ((x.step e).1 ++ (run es (x.step e).2).1, (run es (x.step e).2).2)

end System

/-- The same schedule on the ideal map, which has nothing to sweep. -/
structure Spec where
  clock : Instant
  map : Ideal

namespace Spec

def start (t : Instant) : Spec := ⟨t, .empty⟩

def step (e : Event) (y : Spec) : List Reply × Spec :=
  match e with
  | .advance t => ([], { y with clock := max y.clock t })
  | .call c =>
    let r := Ideal.step y.clock.val c y.map
    ([r.1], { y with map := r.2 })
  | .pop _ | .remove => ([], y)

def run : List Event → Spec → List Reply × Spec
  | [], y => ([], y)
  | e :: es, y => ((y.step e).1 ++ (run es (y.step e).2).1, (run es (y.step e).2).2)

/-- The deadline that the event sets, if it is an EXPIRE that sets one, is an instant. -/
def Admits (e : Event) (y : Spec) : Prop :=
  match e with
  | .call c => Ideal.Representable y.clock.val c y.map
  | _ => True

def AdmitsAll : List Event → Spec → Prop
  | [], _ => True
  | e :: es, y => y.Admits e ∧ AdmitsAll es (y.step e).2

end Spec

namespace System

/-- The clocks agree, and nobody can tell the store from the ideal map; a sweep in
progress has read the clock before. -/
structure Simulates (x : System) (y : Spec) : Prop where
  clock_eq : x.clock = y.clock
  agree : TtlMap.Agree y.clock.val (contents x.store) y.map
  swept : ∀ now candidates, x.sweep = some (now, candidates) → now ≤ x.clock

theorem simulates_start (t : Instant) : Simulates (start t) (Spec.start t) where
  clock_eq := rfl
  agree := by
    rw [show contents (start t).store = Ideal.empty from mapContents_empty]
    exact .refl _ _
  swept := by intro now candidates h; cases h

theorem Simulates.advance {x : System} {y : Spec} (h : Simulates x y) (t : Instant) :
    Simulates (x.step (.advance t)).2 (y.step (.advance t)).2 where
  clock_eq := by simp only [step, Spec.step, h.clock_eq]
  agree := h.agree.mono (le_max_left y.clock t)
  swept now candidates hs := le_trans (h.swept now candidates hs) (le_max_left _ _)

/-- Neither phase of a sweep changes what anybody can see. -/
theorem Simulates.sweep {x : System} {y : Spec} (h : Simulates x y) {e : Event}
    (he : e = .remove ∨ ∃ now, e = .pop now) : Simulates (x.step e).2 y := by
  rcases he with rfl | ⟨now, rfl⟩
  · cases hs : x.sweep with
    | none => simpa only [step, hs] using h
    | some s =>
      obtain ⟨now, candidates⟩ := s
      have hle : now.val ≤ y.clock.val := h.clock_eq ▸ h.swept now candidates hs
      simp only [step, hs]
      refine ⟨h.clock_eq, ?_, by intro _ _ hn; cases hn⟩
      exact ((sweepRemove_agree now candidates x.store).mono hle).trans h.agree
  · cases hs : x.sweep with
    | some s => simpa only [step, hs] using h
    | none =>
      simp only [step, hs]
      refine ⟨h.clock_eq, h.agree, ?_⟩
      intro now' candidates hn
      obtain ⟨rfl, -⟩ := Prod.mk.inj (Option.some.inj hn)
      exact min_le_right _ _

theorem Simulates.call {x : System} {y : Spec} (h : Simulates x y) {c : Call}
    (hr : Ideal.Representable y.clock.val c y.map) :
    (x.step (.call c)).1 = (y.step (.call c)).1.map some ∧
      Simulates (x.step (.call c)).2 (y.step (.call c)).2 := by
  obtain ⟨hreply, hagree⟩ := Call.run_ideal y.clock c x.store (Ideal.representable_agree h.agree hr)
  obtain ⟨hreply', hagree'⟩ := Ideal.step_agree h.agree c
  simp only [step, Spec.step, h.clock_eq]
  refine ⟨by rw [hreply, hreply']; rfl, ⟨rfl, hagree.trans hagree', ?_⟩⟩
  intro now candidates hs
  exact h.clock_eq ▸ h.swept now candidates hs

theorem Simulates.step {x : System} {y : Spec} (h : Simulates x y) {e : Event}
    (hr : y.Admits e) :
    (x.step e).1 = (y.step e).1.map some ∧ Simulates (x.step e).2 (y.step e).2 := by
  cases e with
  | advance t => exact ⟨rfl, h.advance t⟩
  | call c => exact h.call hr
  | pop now => exact ⟨by simp only [System.step]; split <;> rfl, h.sweep (.inr ⟨now, rfl⟩)⟩
  | remove => exact ⟨by simp only [System.step]; split <;> rfl, h.sweep (.inl rfl)⟩

theorem Simulates.run {x : System} {y : Spec} (h : Simulates x y) {es : List Event}
    (hr : y.AdmitsAll es) :
    (x.run es).1 = (y.run es).1.map some ∧ Simulates (x.run es).2 (y.run es).2 := by
  induction es generalizing x y with
  | nil => exact ⟨rfl, h⟩
  | cons e es ih =>
    obtain ⟨hreply, hsim⟩ := h.step hr.1
    obtain ⟨hreplies, hsims⟩ := ih hsim hr.2
    exact ⟨by simp only [System.run, Spec.run, hreply, hreplies, List.map_append], hsims⟩

/-- Two stores that look alike to readers hold the same live values. -/
theorem lookup_of_agree {now : Instant} {s s' : Store}
    (h : TtlMap.Agree now.val (contents s') (contents s)) {k : Key} {v : StoreValue}
    (hl : s.hashmap.lookup k = some v) (hv : isExpired v now = false) :
    s'.hashmap.lookup k = some v := by
  have hr := h k
  rw [contents, contents, read_of_stored hl, if_neg (by simp [hv])] at hr
  obtain ⟨hm, -⟩ := TtlMap.read_eq_some.mp hr
  obtain ⟨v', hl', he⟩ := Option.map_eq_some_iff.mp hm
  rw [hl', entry_injective he]

/-- Every call of every schedule is answered as by the ideal map, the store always looks
like the ideal map, and no phase of a sweep ever takes a live entry out of the map. -/
theorem run_refines_ideal (t : Instant) (es : List Event) (h : (Spec.start t).AdmitsAll es) :
    let x := ((start t).run es).2
    let y := ((Spec.start t).run es).2
    ((start t).run es).1 = ((Spec.start t).run es).1.map some ∧
      x.clock = y.clock ∧
      (∀ k, (contents x.store).read x.clock.val k = y.map.read x.clock.val k) ∧
      ∀ e k v, (e = .remove ∨ ∃ now, e = .pop now) →
        x.store.hashmap.lookup k = some v → isExpired v x.clock = false →
        (x.step e).2.store.hashmap.lookup k = some v := by
  intro x y
  obtain ⟨hreplies, hsim⟩ := (simulates_start t).run h
  have hclock : x.clock = y.clock := hsim.clock_eq
  refine ⟨hreplies, hclock, ?_, ?_⟩
  · intro k
    rw [hclock]
    exact hsim.agree k
  · intro e k v he hl hv
    have hagree := (hsim.sweep he).agree.trans hsim.agree.symm
    exact lookup_of_agree hagree hl (hclock ▸ hv)

/-- A key is set again between the phases of the sweep that found it expired. -/
theorem run_refines_ideal_set_again :
    let es := [.call (.set [1] [7]), .call (.expire [1] 1), .advance ⟨2000000000, by decide⟩,
      .call (.get [1]), .pop ⟨1500000000, by decide⟩, .call (.set [1] [8]), .call (.ttl [1]),
      .remove, .call (.del [1])]
    (Spec.start ⟨0, by decide⟩).AdmitsAll es ∧
      ((start ⟨0, by decide⟩).run es).1 =
        [Reply.stored, .flag 1, .value none, .stored, .seconds (-1), .value (some [8])].map some := by
  intro es
  have h : (Spec.start ⟨0, by decide⟩).AdmitsAll es :=
    ⟨trivial, fun _ => by decide, trivial, trivial, trivial, trivial, trivial, trivial, trivial, trivial⟩
  exact ⟨h, (run_refines_ideal ⟨0, by decide⟩ es h).1.trans (by decide)⟩

end System
end Redlike.Store
