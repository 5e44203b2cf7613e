import Redlike.Store.Locks

/-!
# The store of concurrent calls is that of whole calls

Whatever the callers do, and wherever they are dropped, the store looks as if the
calls whose sections have run had been made one at a time, in the order of their
sections. A call dropped before its section has left no trace, and one dropped after
it is whole. This says nothing of replies: a DEL may answer what was true at an earlier
clock reading, but what it leaves behind does not depend on that reading.
-/
namespace Redlike.Store

open Resp Lib
open Linear (Point Schedules)

variable {ι : Type}

/-- Whole calls on the store, one at a time. -/
def serial : List (Point ι Call Instant) → Store → Store
  | [], s => s
  | p :: ps, s => serial ps (p.call.run p.time s).2

theorem serial_append (L L' : List (Point ι Call Instant)) (s : Store) :
    serial (L ++ L') s = serial L' (serial L s) := by
  induction L generalizing s with
  | nil => rfl
  | cons p L ih => exact ih _

/-- The place with its time as histories count it. -/
def nanos (p : Point ι Call Instant) : Point ι Call Nat := ⟨p.id, p.call, p.time.val⟩

theorem map_id_nanos (L : List (Point ι Call Instant)) :
    (L.map nanos).map Point.id = L.map Point.id := by
  rw [List.map_map]
  rfl

/-- Stores that look alike still do after the same call. -/
theorem Call.run_agree {now : Instant} {c : Call} {s s' : Store}
    (ha : TtlMap.Agree now.val (contents s) (contents s'))
    (hr : Ideal.Representable now.val c (contents s)) :
    TtlMap.Agree now.val (contents (c.run now s).2) (contents (c.run now s').2) := by
  have h := (run_ideal now c s hr).2
  have h' := (run_ideal now c s' (Ideal.representable_agree ha.symm hr)).2
  exact h.trans ((Ideal.step_agree ha c).2.trans h'.symm)

/-- Only an EXPIRE leaves something that depends on its clock reading. -/
theorem Call.contents_run {c : Call} (hc : c.takesHeap = false) (now now' : Instant) (s : Store) :
    contents (c.run now s).2 = contents (c.run now' s).2 := by
  cases c with
  | expire key secs => cases hc
  | _ => rfl

/-- The call that is under way, before its section. -/
def Phase.pending : Phase → Option Call
  | .invoked c | .clocked c _ | .heapHeld c | .locked c | .ready c _ => some c
  | _ => none

/-- The deadline that the section about to run sets, if it sets one, is an instant. -/
def InRange (x : State ι) (a : Act ι) : Prop :=
  ∀ i c now, a = .finish i → x.phase i = .ready c now →
    Ideal.Representable now.val c (contents x.store)

theorem inRange_locked {x : State ι} {i : ι} {c : Call} (hp : x.phase i = .locked c) :
    InRange x (.finish i) := by
  rintro _ _ _ ⟨⟩ hr
  cases hp.symm.trans hr

/-- The place that the step gives to a call: an EXPIRE takes effect at its clock reading,
the others at the clock of their section. -/
def placeOf (x : State ι) : Act ι → List (Point ι Call Instant)
  | .finish i =>
    match x.phase i with
    | .locked c => [⟨i, c, x.clock⟩]
    | .ready c now => [⟨i, c, if c.takesHeap then now else x.clock⟩]
    | _ => []
  | _ => []

/-- An EXPIRE that has read the clock; its locks keep everything as it was then. -/
structure Held (s₀ : Store) (x : State ι) (L : List (Point ι Call Instant)) (i : ι) (c : Call)
    (now : Instant) : Prop where
  invoked : ∃ t ≤ now.val, .invoke i c t ∈ x.history
  reading : now ≤ x.clock
  last : ∀ p ∈ L, p.time ≤ now
  agree : TtlMap.Agree now.val (contents x.store) (contents (serial L s₀))

/-- The calls in `L`, which are those whose sections have run, made one at a time on `s₀`,
give what the store looks like. -/
structure Serialized (s₀ : Store) (x : State ι) (L : List (Point ι Call Instant)) : Prop where
  guarded : Guarded x
  sched : Schedules x.history (L.map nanos)
  placed : ∀ p ∈ L, p.time ≤ x.clock
  agree : TtlMap.Agree x.clock.val (contents x.store) (contents (serial L s₀))
  acted : ∀ i, i ∈ L.map Point.id ↔ (x.phase i).acted.isSome = true
  silent : ∀ i, (∀ c now r, x.phase i ≠ .responded c now r) → ∀ r t, .respond i r t ∉ x.history
  called : ∀ i c, (x.phase i).pending = some c → ∃ t ≤ x.clock.val, .invoke i c t ∈ x.history
  expiring : ∀ i key secs now, x.phase i = .ready (.expire key secs) now →
    Held s₀ x L i (.expire key secs) now

theorem serialized_start (t : Instant) (s : Store) : Serialized (ι := ι) s (.start t s) [] where
  guarded := guarded_start t s
  sched := Linear.schedules_nil
  placed := by simp
  agree := .refl _ _
  acted := by simp [State.start, Phase.acted]
  silent := by simp [State.start]
  called := by simp [State.start, Phase.pending]
  expiring := by simp [State.start]

section Environment

variable {s₀ : Store} {x : State ι} {L : List (Point ι Call Instant)}

theorem Serialized.unplaced (hx : Serialized s₀ x L) {i : ι} (h : (x.phase i).acted = none) :
    i ∉ L.map Point.id := by
  rw [hx.acted i, h]
  simp

theorem Serialized.tick (hx : Serialized s₀ x L) {t : Instant} (ht : x.clock ≤ t) :
    Serialized s₀ { x with clock := t } L where
  guarded := ⟨hx.guarded.exclusive, fun now hn => le_trans (hx.guarded.swept now hn) ht⟩
  sched := hx.sched
  placed p hp := le_trans (hx.placed p hp) ht
  agree := hx.agree.mono ht
  acted := hx.acted
  silent := hx.silent
  called i c hc := by
    obtain ⟨u, hle, hm⟩ := hx.called i c hc
    exact ⟨u, le_trans hle ht, hm⟩
  expiring i key secs now hp :=
    { hx.expiring i key secs now hp with
      reading := le_trans (hx.expiring i key secs now hp).reading ht }

/-- The sweeper changes nothing that anybody can see, and nothing at all under an EXPIRE. -/
theorem Serialized.sweepMove (hx : Serialized s₀ x L) {s' : Store} {w : Sweeper}
    (hg : Guarded { x with store := s', sweeper := w })
    (ha : TtlMap.Agree x.clock.val (contents s') (contents x.store))
    (hs : contents s' = contents x.store ∨ x.sweeper.holdsMap = true) :
    Serialized s₀ { x with store := s', sweeper := w } L :=
  { hx with
    guarded := hg
    agree := ha.trans hx.agree
    expiring := by
      intro i key secs now hp
      have hi := hx.expiring i key secs now hp
      rcases hs with hs | hw
      · exact { hi with agree := by rw [hs]; exact hi.agree }
      · have hfree := hx.guarded.exclusive.sweeper hw i
        have hp : x.phase i = .ready (.expire key secs) now := hp
        rw [hp] at hfree
        cases hfree }

theorem Serialized.sweepStep (hx : Serialized s₀ x L) {y : State ι} {a : Act ι} (hs : SweepStep x a y) :
    Serialized s₀ y L := by
  have hg := hx.guarded.sweepStep hs
  cases hs with
  | @remove now candidates hs =>
    have hle := hx.guarded.swept now (by rw [hs]; rfl)
    exact hx.sweepMove hg ((sweepRemove_agree now candidates x.store).mono hle)
      (.inr (by rw [hs]; rfl))
  | _ => exact hx.sweepMove hg (.refl _ _) (.inl rfl)

end Environment

section Calls

variable [DecidableEq ι] {s₀ : Store} {x : State ι} {L : List (Point ι Call Instant)} {i : ι}
  {p : Phase}

theorem acted_of_pending {p : Phase} {c : Call} (h : p.pending = some c) :
    p.acted = none ∧ ∀ c now r, p ≠ .responded c now r := by
  cases p <;> first | exact ⟨rfl, nofun⟩ | cases h

/-- A call moves on before its section, or is dropped. -/
theorem Serialized.move (hx : Serialized s₀ x L) {c : Call} (hc : (x.phase i).pending = some c)
    (hg : Guarded (x.move i p)) (hp : p.pending = some c ∨ p = .failed)
    (hexp : ∀ key secs now, p = .ready (.expire key secs) now →
      Held s₀ x L i (.expire key secs) now) : Serialized s₀ (x.move i p) L := by
  have hnew : p.acted = none ∧ ∀ c now r, p ≠ .responded c now r := by
    rcases hp with hp | rfl
    · exact acted_of_pending hp
    · exact ⟨rfl, nofun⟩
  obtain ⟨hold, hquiet⟩ := acted_of_pending hc
  exact {
    guarded := hg
    sched := hx.sched
    placed := hx.placed
    agree := hx.agree
    acted := by
      intro j
      rw [hx.acted j]
      by_cases hj : j = i
      · subst hj
        simp [State.move, hnew.1, hold]
      · simp [State.move, hj]
    silent := by
      intro j hj
      apply hx.silent j
      by_cases hji : j = i
      · subst hji
        exact hquiet
      · simpa [State.move, hji] using hj
    called := by
      intro j d hd
      apply hx.called j d
      by_cases hji : j = i
      · subst hji
        simp only [State.move, Function.update_self] at hd
        rcases hp with hp | rfl
        · rw [hc, ← hp, hd]
        · cases hd
      · simpa [State.move, hji] using hd
    expiring := by
      intro j key secs now hj
      by_cases hji : j = i
      · subst hji
        simp only [State.move, Function.update_self] at hj
        exact { hexp key secs now hj with }
      · simp only [State.move, Function.update_of_ne hji] at hj
        exact { hx.expiring j key secs now hj with } }

theorem Serialized.invoke (hx : Serialized s₀ x L) (c : Call) (hp : x.phase i = .idle)
    (hg : Guarded ((x.move i (.invoked c)).record (.invoke i c x.clock.val))) :
    Serialized s₀ ((x.move i (.invoked c)).record (.invoke i c x.clock.val)) L where
  guarded := hg
  sched := hx.sched.invoke (by rw [map_id_nanos]; exact hx.unplaced (by rw [hp]; rfl)) c _
  placed := hx.placed
  agree := hx.agree
  acted j := by
    rw [hx.acted j]
    by_cases hj : j = i
    · subst hj
      simp [State.move, State.record, hp, Phase.acted]
    · simp [State.move, State.record, hj]
  silent j hj r t hm := by
    have hm : .respond j r t ∈ x.history := by simpa [State.move, State.record] using hm
    refine hx.silent j ?_ r t hm
    by_cases hji : j = i
    · subst hji
      rw [hp]
      nofun
    · simpa [State.move, State.record, hji] using hj
  called j d hd := by
    by_cases hji : j = i
    · subst hji
      simp only [State.move, State.record, Function.update_self, Phase.pending,
        Option.some.injEq] at hd
      subst hd
      exact ⟨_, le_refl _, List.mem_append_right _ (List.mem_singleton.mpr rfl)⟩
    · simp only [State.move, State.record, Function.update_of_ne hji] at hd
      obtain ⟨t, hle, hm⟩ := hx.called j d hd
      exact ⟨t, hle, List.mem_append_left _ hm⟩
  expiring j key secs now hj := by
    by_cases hji : j = i
    · subst hji
      simp [State.move, State.record] at hj
    · simp only [State.move, State.record, Function.update_of_ne hji] at hj
      have hheld := hx.expiring j key secs now hj
      obtain ⟨t, hle, hm⟩ := hheld.invoked
      exact { hheld with invoked := ⟨t, hle, List.mem_append_left _ hm⟩ }

theorem Serialized.respond (hx : Serialized s₀ x L) {c : Call} {now : Instant} {r : Reply}
    (hp : x.phase i = .finished c now r)
    (hg : Guarded ((x.move i (.responded c now r)).record (.respond i r x.clock.val))) :
    Serialized s₀ ((x.move i (.responded c now r)).record (.respond i r x.clock.val)) L where
  guarded := hg
  sched := by
    refine hx.sched.respond ?_ ?_ r
    · rw [map_id_nanos, hx.acted i, hp]
      rfl
    · intro q hq
      obtain ⟨p, hp, rfl⟩ := List.mem_map.mp hq
      exact hx.placed p hp
  placed := hx.placed
  agree := hx.agree
  acted j := by
    rw [hx.acted j]
    by_cases hj : j = i
    · subst hj
      simp [State.move, State.record, hp, Phase.acted]
    · simp [State.move, State.record, hj]
  silent j hj r' t hm := by
    by_cases hji : j = i
    · subst hji
      exact hj c now r (by simp [State.move, State.record])
    · have hm : .respond j r' t ∈ x.history := by
        simpa [State.move, State.record, hji] using hm
      exact hx.silent j (by simpa [State.move, State.record, hji] using hj) r' t hm
  called j d hd := by
    by_cases hji : j = i
    · subst hji
      simp [State.move, State.record, Phase.pending] at hd
    · simp only [State.move, State.record, Function.update_of_ne hji] at hd
      obtain ⟨t, hle, hm⟩ := hx.called j d hd
      exact ⟨t, hle, List.mem_append_left _ hm⟩
  expiring j key secs now' hj := by
    by_cases hji : j = i
    · subst hji
      simp [State.move, State.record] at hj
    · simp only [State.move, State.record, Function.update_of_ne hji] at hj
      have hheld := hx.expiring j key secs now' hj
      obtain ⟨t, hle, hm⟩ := hheld.invoked
      exact { hheld with invoked := ⟨t, hle, List.mem_append_left _ hm⟩ }

/-- The section runs: the call takes its place, last of all. -/
theorem Serialized.place (hx : Serialized s₀ x L) {c : Call} {now t : Instant} {r : Reply}
    {s' : Store} (hc : (x.phase i).pending = some c) (hhold : (x.phase i).holdsMap = true)
    (hg : Guarded { x.move i (.finished c now r) with store := s' })
    (hinv : ∃ u ≤ t.val, .invoke i c u ∈ x.history) (hle : t ≤ x.clock)
    (hlast : ∀ q ∈ L, q.time ≤ t)
    (ha : TtlMap.Agree x.clock.val (contents s') (contents (serial (L ++ [⟨i, c, t⟩]) s₀))) :
    Serialized s₀ { x.move i (.finished c now r) with store := s' } (L ++ [⟨i, c, t⟩]) := by
  obtain ⟨hold, hquiet⟩ := acted_of_pending hc
  exact {
    guarded := hg
    sched := by
      rw [List.map_append]
      refine hx.sched.append ?_ hinv (hx.silent i hquiet) ?_
      · rw [map_id_nanos]
        exact hx.unplaced hold
      · intro q hq
        obtain ⟨p, hp, rfl⟩ := List.mem_map.mp hq
        exact hlast p hp
    placed := by
      intro q hq
      rcases List.mem_append.mp hq with hq | hq
      · exact hx.placed q hq
      · rw [List.mem_singleton.mp hq]
        exact hle
    agree := ha
    acted := by
      intro j
      rw [List.map_append, List.mem_append, hx.acted j]
      by_cases hj : j = i
      · subst hj
        simp [State.move, Phase.acted]
      · simp [State.move, hj]
    silent := by
      intro j hj
      apply hx.silent j
      by_cases hji : j = i
      · subst hji
        exact hquiet
      · simpa [State.move, hji] using hj
    called := by
      intro j d hd
      apply hx.called j d
      by_cases hji : j = i
      · subst hji
        simp [State.move, Phase.pending] at hd
      · simpa [State.move, hji] using hd
    expiring := by
      -- the map lock was held, so no EXPIRE is about to run
      intro j key secs now' hj
      by_cases hji : j = i
      · subst hji
        simp [State.move] at hj
      · simp only [State.move, Function.update_of_ne hji] at hj
        exact absurd (hx.guarded.exclusive.writer j i (by rw [hj]; rfl) hhold) hji }

theorem Serialized.placeNow (hx : Serialized s₀ x L) {c : Call} {now : Instant} {r : Reply}
    (hc : (x.phase i).pending = some c) (hhold : (x.phase i).holdsMap = true)
    (hg : Guarded { x.move i (.finished c now r) with store := (c.run now x.store).2 })
    (hheap : c.takesHeap = false) (hr : Ideal.Representable x.clock.val c (contents x.store)) :
    Serialized s₀ { x.move i (.finished c now r) with store := (c.run now x.store).2 }
      (L ++ [⟨i, c, x.clock⟩]) := by
  refine hx.place hc hhold hg (hx.called i c hc) le_rfl hx.placed ?_
  rw [Call.contents_run hheap now x.clock, serial_append]
  exact Call.run_agree hx.agree hr

theorem representable_of_noHeap {c : Call} (hc : c.takesHeap = false) (now : Nat) (m : Ideal) :
    Ideal.Representable now c m := by
  cases c with
  | expire key secs => cases hc
  | _ => trivial

theorem Serialized.callStep (hx : Serialized s₀ x L) {a : Act ι} {y : State ι}
    (hs : CallStep x a y) (hf : InRange x a) : Serialized s₀ y (L ++ placeOf x a) := by
  have hg := hx.guarded.callStep hs
  cases hs with
  | invoke c hp => simpa [placeOf] using hx.invoke c hp hg
  | respond hp => simpa [placeOf] using hx.respond hp hg
  | @drop i hp =>
    obtain ⟨c, hc⟩ : ∃ c, (x.phase i).pending = some c := by
      cases hph : x.phase i <;> first | exact ⟨_, rfl⟩ | (rw [hph] at hp; cases hp)
    simpa [placeOf] using hx.move hc hg (.inr rfl) nofun
  | delClock hp => simpa [placeOf] using hx.move (by rw [hp]; rfl) hg (.inl rfl) nofun
  | delLock hp _ => simpa [placeOf] using hx.move (by rw [hp]; rfl) hg (.inl rfl) nofun
  | expireHeap hp _ => simpa [placeOf] using hx.move (by rw [hp]; rfl) hg (.inl rfl) nofun
  | expireLock hp _ => simpa [placeOf] using hx.move (by rw [hp]; rfl) hg (.inl rfl) nofun
  | lock hp _ _ => simpa [placeOf] using hx.move (by rw [hp]; rfl) hg (.inl rfl) nofun
  | @clock i c hp hc =>
    have hpend : (x.phase i).pending = some c := by rw [hp]; rfl
    have hmove := hx.move hpend hg (.inl rfl) (by
      rintro key secs now ⟨⟩
      exact ⟨hx.called i _ hpend, le_rfl, hx.placed, hx.agree⟩)
    simpa [placeOf] using hmove
  | @set i key value hp =>
    rw [show placeOf x (.finish i) = [⟨i, .set key value, x.clock⟩] by simp only [placeOf, hp]]
    exact hx.placeNow (by rw [hp]; rfl) (by rw [hp]; rfl) hg rfl trivial
  | @finish i c now r hp hr =>
    cases hc : c.takesHeap with
    | false =>
      have hnow := hx.placeNow (by rw [hp]; rfl) (by rw [hp]; rfl) hg hc
        (representable_of_noHeap hc _ _)
      simpa [placeOf, hp, hc] using hnow
    | true =>
      obtain ⟨key, secs, rfl⟩ : ∃ key secs, c = .expire key secs := by
        cases c <;> first | exact ⟨_, _, rfl⟩ | cases hc
      have hheld := hx.expiring i key secs now hp
      have hplace := hx.place (r := r) (by rw [hp]; rfl) (by rw [hp]; rfl) hg hheld.invoked
        hheld.reading hheld.last (by
          rw [serial_append]
          exact (Call.run_agree hheld.agree (hf i _ now rfl hp)).mono hheld.reading)
      simpa [placeOf, hp, hc] using hplace
  | @panic i c now hp hr =>
    have hrun := (Call.run_ideal now c x.store (hf i c now rfl hp)).1
    rw [hr] at hrun
    cases hrun

end Calls

/-! ## The call that a step is about -/

/-- The call, while it is known. -/
def Phase.call (p : Phase) : Option Call := p.pending.or (p.acted.map (·.1))

/-- What a step does to the phase of the call `i`. -/
inductive Moves (x : State ι) (i : ι) : Act ι → Phase → Prop where
  | invoke (c : Call) (h : x.phase i = .idle) : Moves x i (.invoke i c) (.invoked c)
  | advance {a : Act ι} {c : Call} {p : Phase}
      (ha : a = .readClock i ∨ a = .lockHeap i ∨ a = .lockMap i)
      (h : (x.phase i).pending = some c) (hp : p.pending = some c) : Moves x i a p
  | finish {c : Call} {now t : Instant} {r : Reply} (h : (x.phase i).pending = some c)
      (hp : placeOf x (.finish i) = [⟨i, c, t⟩]) : Moves x i (.finish i) (.finished c now r)
  | panic {c : Call} {now : Instant} (h : x.phase i = .ready c now)
      (hr : (c.run now x.store).1 = none) : Moves x i (.finish i) .failed
  | respond {c : Call} {now : Instant} {r : Reply} (h : x.phase i = .finished c now r) :
      Moves x i (.respond i) (.responded c now r)
  | drop (h : (x.phase i).droppable = true) : Moves x i (.drop i) .failed

theorem CallStep.moves [DecidableEq ι] {x y : State ι} {a : Act ι} (h : CallStep x a y) :
    ∃ i p, Moves x i a p ∧ y.phase = Function.update x.phase i p := by
  cases h with
  | invoke c hp => exact ⟨_, _, .invoke c hp, rfl⟩
  | delClock hp => exact ⟨_, _, .advance (.inl rfl) (by rw [hp]; rfl) rfl, rfl⟩
  | delLock hp hf => exact ⟨_, _, .advance (.inr (.inr rfl)) (by rw [hp]; rfl) rfl, rfl⟩
  | expireHeap hp hf => exact ⟨_, _, .advance (.inr (.inl rfl)) (by rw [hp]; rfl) rfl, rfl⟩
  | expireLock hp hf => exact ⟨_, _, .advance (.inr (.inr rfl)) (by rw [hp]; rfl) rfl, rfl⟩
  | lock hp hc hf => exact ⟨_, _, .advance (.inr (.inr rfl)) (by rw [hp]; rfl) rfl, rfl⟩
  | clock hp hc => exact ⟨_, _, .advance (.inl rfl) (by rw [hp]; rfl) rfl, rfl⟩
  | set hp => exact ⟨_, _, .finish (by rw [hp]; rfl) (by simp only [placeOf, hp]; rfl), rfl⟩
  | finish hp hr => exact ⟨_, _, .finish (by rw [hp]; rfl) (by simp only [placeOf, hp]; rfl), rfl⟩
  | panic hp hr => exact ⟨_, _, .panic hp hr, rfl⟩
  | respond hp => exact ⟨_, _, .respond hp, rfl⟩
  | drop hp => exact ⟨_, _, .drop hp, rfl⟩

theorem SweepStep.phase_eq {x y : State ι} {a : Act ι} (h : SweepStep x a y) :
    y.phase = x.phase ∧ y.clock = x.clock ∧ y.history = x.history := by
  cases h <;> exact ⟨rfl, rfl, rfl⟩

theorem droppable_eq_pending (p : Phase) : p.droppable = p.pending.isSome := by
  cases p <;> rfl

end Redlike.Store
