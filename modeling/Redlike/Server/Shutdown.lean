import Redlike.Store.Serial
import Redlike.Snapshot.Taking
import Redlike.Server.Visible

/-!
# What a shutdown saves

When the snapshot is taken, every connection task has ended, on its own or aborted at
one of its awaits. Each has made the calls of a prefix of its frames, whole calls in
their order, and that prefix reaches as far as the frames it has answered. The sweeper
may still run while the snapshot is taken: it can only move the moment at which
entries count as expired from the clock reading of `to_snapshot` towards the moment
when the map was read.
-/
namespace Redlike.Server

open Resp Store Lib
open Linear (Point Schedules)

variable {κ : Type} [DecidableEq κ]

/-- No EXPIRE whose section is about to run overflows. -/
def InRange (x : Server κ) (a : Act κ) : Prop := ∀ b, a = .store b → Store.InRange x.calls b

omit [DecidableEq κ] in
theorem inRange_of_ne {x : Server κ} {a : Act κ} (h : ∀ i, a ≠ .store (.finish i)) : InRange x a := by
  rintro _ rfl i _ _ rfl
  exact absurd rfl (h i)

omit [DecidableEq κ] in
theorem inRange_finish {x : Server κ} {i : κ × Nat} {c : Call} {now : Instant}
    (hp : x.calls.phase i = .ready c now ∨ x.calls.phase i = .locked c)
    (hrep : Ideal.Representable now.val c (contents x.calls.store)) :
    InRange x (.store (.finish i)) := by
  rintro _ ⟨⟩ _ d t ⟨⟩ hd
  rcases hp with hp | hp
  · obtain ⟨rfl, rfl⟩ := Phase.ready.inj (hp.symm.trans hd)
    exact hrep
  · cases hp.symm.trans hd

/-- The calls of one connection, in the order they took effect. -/
def callsOf (k : κ) (L : List (Point (κ × Nat) Call Instant)) : List Call :=
  (L.filter fun p => p.id.1 = k).map Point.call

theorem callsOf_append (k : κ) (L L' : List (Point (κ × Nat) Call Instant)) :
    callsOf k (L ++ L') = callsOf k L ++ callsOf k L' := by
  simp [callsOf]

/-! ## One connection -/

theorem placeOf_of_ne {ι : Type} {z : State ι} {a : Store.Act ι} (h : ∀ i, a ≠ .finish i) :
    placeOf z a = [] := by
  cases a with
  | finish i => exact absurd rfl (h i)
  | _ => rfl

theorem placeOf_id {ι : Type} {z : State ι} {a : Store.Act ι} {i : ι} (ha : a.caller = some i) :
    ∀ p ∈ placeOf z a, p.id = i := by
  intro p hp
  unfold placeOf at hp
  split at hp
  · cases ha
    split at hp
    · rw [List.mem_singleton.mp hp]
    · rw [List.mem_singleton.mp hp]
    · cases hp
  · cases hp

/-- A call counts as made from the step on that gives it its place. -/
theorem CallStep.acts {ι : Type} [DecidableEq ι] {z z' : State ι} {a : Store.Act ι} {i : ι}
    (hs : CallStep z a z') (hg : Store.InRange z a) (ha : a.caller = some i) :
    ((z'.phase i).acted.map (·.1)).toList =
      ((z.phase i).acted.map (·.1)).toList ++ (placeOf z a).map Point.call := by
  obtain ⟨j, p, hm, hphase⟩ := hs.moves
  rw [hphase]
  cases hm with
  | invoke c hi =>
    cases ha
    rw [Function.update_self, hi]
    rfl
  | advance hj hold hnew =>
    obtain rfl : j = i := by
      rcases hj with rfl | rfl | rfl <;> exact Option.some.inj ha
    rw [Function.update_self, (acted_of_pending hold).1, (acted_of_pending hnew).1,
      placeOf_of_ne (by rcases hj with rfl | rfl | rfl <;> nofun)]
    rfl
  | finish hold hplace =>
    cases ha
    rw [Function.update_self, (acted_of_pending hold).1, hplace]
    rfl
  | @panic c now hi hr =>
    -- no EXPIRE overflows
    have hrun := (Call.run_ideal now c z.store (hg j c now rfl hi)).1
    rw [hr] at hrun
    cases hrun
  | respond hi =>
    cases ha
    rw [Function.update_self, hi]
    rfl
  | drop hi =>
    cases ha
    rw [droppable_eq_pending] at hi
    obtain ⟨c, hpend⟩ := Option.isSome_iff_exists.mp hi
    rw [Function.update_self, (acted_of_pending hpend).1]
    rfl

section Traced

variable (constantTimeEq : Bytes → Bytes → Bool) (authPassword : Option Bytes)

/-- A connection has made the calls of the frames it has handled, and perhaps that of the
next one. -/
def Traced (phase : κ × Nat → Phase) (L : List (Point (κ × Nat) Call Instant)) (k : κ)
    (log : List Frame) : Prop :=
  callsOf k L = Connection.requests constantTimeEq log (.new authPassword) ++
    ((phase (k, log.length)).acted.map (·.1)).toList

variable {constantTimeEq authPassword} {phase phase' : κ × Nat → Phase}
  {L L' : List (Point (κ × Nat) Call Instant)} {k : κ} {log : List Frame} {y : Session}

/-- Other connections do not matter. -/
theorem Traced.frame (h : Traced constantTimeEq authPassword phase L k log)
    (hp : phase' (k, log.length) = phase (k, log.length)) (hL : callsOf k L' = callsOf k L) :
    Traced constantTimeEq authPassword phase' L' k log := by
  rw [Traced, hL, hp]
  exact h

/-- The next frame is handled, with its call answered if it made one. -/
theorem Traced.handled (h : Traced constantTimeEq authPassword phase L k log) {x : Connection}
    (hx : x = Connection.afterAll constantTimeEq authPassword log) {f : Frame}
    (ha : (phase (k, log.length)).acted.map (·.1) = x.request f)
    (hnext : phase (k, log.length + 1) = .idle) :
    Traced constantTimeEq authPassword phase L k (log ++ [f]) := by
  rw [Traced, h, ha, List.length_append, List.length_singleton, hnext,
    Connection.requests_append, hx]
  exact (List.append_nil _).symm

/-- Each connection has made the calls of a prefix of its frames. -/
theorem Traced.contributes (h : Traced constantTimeEq authPassword phase L k y.log)
    (hplace : Place constantTimeEq authPassword phase k y) :
    ∃ m, y.log.length ≤ m ∧ callsOf k L =
      Connection.requests constantTimeEq ((y.log ++ y.frames).take m) (.new authPassword) := by
  rw [Traced] at h
  cases ha : (phase (k, y.log.length)).acted with
  | none =>
    refine ⟨y.log.length, le_refl _, ?_⟩
    rw [h, ha, List.take_left]
    simp
  | some q =>
    -- the call of the next frame has taken effect, and its answer is still to be sent
    obtain ⟨f, rest, hf, hreq⟩ := hplace.called q.1 (Phase.call_of_acted ha)
    have htake : (y.log ++ f :: rest).take (y.log.length + 1) = y.log ++ [f] := by
      rw [show y.log ++ f :: rest = (y.log ++ [f]) ++ rest by simp]
      exact List.take_left' (by simp)
    refine ⟨y.log.length + 1, Nat.le_succ _, ?_⟩
    rw [hplace.conn] at hreq
    rw [h, ha, hf, htake, Connection.requests_append]
    exact congrArg _ (congrArg Option.toList hreq.symm)

end Traced

/-! ## The invariant -/

/-- The archive holds exactly the entries of `s` that were alive at some moment between the
clock reading of `to_snapshot` and its getting the map. -/
def Exact (s : Store) (d : Dump) : Prop :=
  ∃ moment, d.now ≤ moment ∧ moment ≤ d.taken ∧
    ∀ k v, ⟨k, v⟩ ∈ d.snapshot.entries ↔
      ∃ w, s.hashmap.lookup k = some w ∧ isExpired w moment = false ∧ v = .from (d.clocks k) w

/-- What each stage has reached; `s` is the store of the whole calls so far. -/
def Staged (s : Store) (x : Server κ) : Stage → Prop
  | .accepting | .draining | .aborting => True
  | .joined | .failed | .done => x.Ended
  | .dumping now => x.Ended ∧ ∃ moment, Taking s x.calls now moment
  | .saving d | .saved d => x.Ended ∧ Exact s d

omit [DecidableEq κ] in
/-- While a task runs, the server has not joined them all. -/
theorem staged_of_running {s s' : Store} {x x' : Server κ} {k : κ} {y : Session}
    (h : Staged s x x.stage) (hy : x.Running k y) : Staged s' x' x.stage := by
  cases hst : x.stage with
  | accepting | draining | aborting => trivial
  | joined | failed | done => rw [hst] at h; exact absurd hy.2 (h k y hy.1)
  | dumping _ | saving _ | saved _ => rw [hst] at h; exact absurd hy.2 (h.1 k y hy.1)

section Inv

variable (constantTimeEq : Bytes → Bytes → Bool) (authPassword : Option Bytes)

structure Inv (s₀ : Store) (x : Server κ) (L : List (Point (κ × Nat) Call Instant)) : Prop where
  serialized : Serialized s₀ x.calls L
  unborn : ∀ k, x.session k = none → callsOf k L = []
  traced : ∀ k y, x.session k = some y →
    Traced constantTimeEq authPassword x.calls.phase L k y.log
  staged : Staged (serial L s₀) x x.stage

variable {constantTimeEq authPassword} {archivePath : Bool} {alloc : Allocator} {s₀ : Store}
  {x x' : Server κ} {L L' : List (Point (κ × Nat) Call Instant)} {k : κ} {y y' : Session}

theorem inv_start (t : Instant) (s₀ : Store) :
    Inv constantTimeEq authPassword s₀ (.start t s₀ : Server κ) [] where
  serialized := serialized_start t s₀
  unborn k _ := rfl
  traced := by intro k y hy; cases hy
  staged := trivial

/-- The clock moves, or the sweeper. -/
theorem Inv.environment (h : Inv constantTimeEq authPassword s₀ x L) {z : State (κ × Nat)}
    (hser : Serialized s₀ z L) (hphase : z.phase = x.calls.phase)
    (htaking : ∀ now moment, Taking (serial L s₀) x.calls now moment →
      ∃ moment', Taking (serial L s₀) z now moment') :
    Inv constantTimeEq authPassword s₀ { x with calls := z } L where
  serialized := hser
  unborn := h.unborn
  traced k y hy := (h.traced k y hy).frame (by rw [hphase]) rfl
  staged := by
    have hs := h.staged
    change Staged _ _ x.stage
    cases hst : x.stage with
    | accepting | draining | aborting => trivial
    | joined | failed | done | saving _ | saved _ => rw [hst] at hs; exact hs
    | dumping now =>
      rw [hst] at hs
      obtain ⟨he, moment, hm⟩ := hs
      exact ⟨he, htaking now moment hm⟩

/-- The server goes on to another stage. -/
theorem Inv.restage (h : Inv constantTimeEq authPassword s₀ x L) {stage : Stage}
    (hs : Staged (serial L s₀) x stage) :
    Inv constantTimeEq authPassword s₀ { x with stage := stage } L :=
  { h with staged := by cases stage <;> exact hs }

theorem Inv.serverStep (h : Inv constantTimeEq authPassword s₀ x L)
    (hx : Tidy constantTimeEq authPassword archivePath x) {a : Act κ}
    (hs : ServerStep authPassword archivePath x a x') :
    Inv constantTimeEq authPassword s₀ x' L := by
  have hst := h.staged
  cases hs with
  | cancel =>
    refine { h with staged := ?_ }
    change Staged _ _ x.stage
    cases hx : x.stage <;> (rw [hx] at hst; exact hst)
  | @accept k hs hk =>
    refine ⟨h.serialized, fun j hj => ?_, fun j y hj => ?_, ?_⟩
    · by_cases hjk : j = k
      · subst hjk
        simp [setSession] at hj
      · exact h.unborn j (by simpa [setSession, hjk] using hj)
    · by_cases hjk : j = k
      · subst hjk
        obtain rfl : Session.start authPassword = y := by simpa [setSession] using hj
        have hidle : x.calls.phase (j, 0) = .idle := (hx.unborn j hk).2 0
        show callsOf j L = [] ++ ((x.calls.phase (j, 0)).acted.map (·.1)).toList
        rw [h.unborn j hk, hidle]
        rfl
      · exact h.traced j y (by simpa [setSession, hjk] using hj)
    · change Staged _ _ x.stage
      rw [hs]
      trivial
  | shutdown hs hc => exact h.restage trivial
  | timeout hs => exact h.restage trivial
  | join hs he => exact h.restage he
  | skip hs ha =>
    rw [hs] at hst
    exact h.restage hst
  | dump hs ha =>
    rw [hs] at hst
    refine h.restage ⟨hst, x.calls.clock, ?_⟩
    exact {
      since := le_rfl
      upto := le_rfl
      agree := h.serialized.agree
      gap := fun _ _ _ _ _ hlt => hlt
      popped := by
        intro r candidates hsome hlt
        have hle : r ≤ x.calls.clock := by
          apply h.serialized.guarded.swept
          cases hw : x.calls.sweeper <;> (rw [hw] at hsome; cases hsome) <;> rfl
        exact absurd hlt (not_lt.mpr hle) }
  | @take now clocks hs hf =>
    rw [hs] at hst
    obtain ⟨he, moment, hm⟩ := hst
    exact h.restage ⟨he, moment, hm.since, hm.upto, hm.entries clocks⟩
  | written hs =>
    rw [hs] at hst
    exact h.restage hst
  | unwritten hs =>
    rw [hs] at hst
    exact h.restage hst.1

/-! ## Steps of a connection -/

/-- A connection takes a step, and the others keep still. -/
theorem Inv.task (h : Inv constantTimeEq authPassword s₀ x L) (hy : x.Running k y)
    (hturn : Turn constantTimeEq authPassword x k y' x') (hser : Serialized s₀ x'.calls L')
    (hL : ∀ j ≠ k, callsOf j L' = callsOf j L)
    (htraced : Traced constantTimeEq authPassword x'.calls.phase L' k y'.log) :
    Inv constantTimeEq authPassword s₀ x' L' where
  serialized := hser
  unborn j hj := by
    by_cases hjk : j = k
    · rw [hjk, hturn.here] at hj
      cases hj
    · rw [hturn.session j hjk] at hj
      rw [hL j hjk]
      exact h.unborn j hj
  traced j z hj := by
    by_cases hjk : j = k
    · rw [hjk, hturn.here] at hj
      rw [hjk, ← Option.some.inj hj]
      exact htraced
    · rw [hturn.session j hjk] at hj
      exact (h.traced j z hj).frame (hturn.phase j hjk _) (hL j hjk)
  staged := by
    rw [hturn.stage]
    exact staged_of_running h.staged hy

/-- The call of a connection moves on. -/
theorem Traced.callStep (h : Traced constantTimeEq authPassword x.calls.phase L k y.log)
    {a : Store.Act (κ × Nat)} {z : State (κ × Nat)} (hs : CallStep x.calls a z)
    (hg : Store.InRange x.calls a) (ha : a.caller = some (k, y.log.length)) :
    Traced constantTimeEq authPassword z.phase (L ++ placeOf x.calls a) k y.log ∧
      ∀ j ≠ k, callsOf j (L ++ placeOf x.calls a) = callsOf j L := by
  have hid := placeOf_id (z := x.calls) ha
  constructor
  · have hown : callsOf k (placeOf x.calls a) = (placeOf x.calls a).map Point.call := by
      rw [callsOf, List.filter_eq_self.mpr fun p hp => by simp [hid p hp]]
    rw [Traced, callsOf_append, hown, CallStep.acts hs hg ha, h, List.append_assoc]
  · intro j hj
    have hnone : callsOf j (placeOf x.calls a) = [] := by
      rw [callsOf, List.filter_eq_nil_iff.mpr fun p hp => by simp [hid p hp, Ne.symm hj]]
      rfl
    rw [callsOf_append, hnone, List.append_nil]

theorem Inv.respond (h : Inv constantTimeEq authPassword s₀ x L)
    (hx : Tidy constantTimeEq authPassword archivePath x) (hy : x.Running k y) {f : Frame}
    {rest : List Frame} {c : Call} {now : Instant} {r : Reply} (hf : y.frames = f :: rest)
    (hp : x.calls.phase (k, y.log.length) = .finished c now r) (hg : InRange x
      (.store (.respond (k, y.log.length)))) :
    ∃ L', Inv constantTimeEq authPassword s₀ ((Server.setSession { x with
      calls := (x.calls.move (k, y.log.length) (.responded c now r)).record
        (.respond (k, y.log.length) r x.calls.clock.val) } k
      (y.answer constantTimeEq (r.frame c) f rest)).sent k) L' := by
  have hplace := hx.place k y hy.1
  have hreq : y.conn.request f = some c := by
    obtain ⟨g, rest', hg, hreq⟩ := hplace.called c (by rw [hp]; rfl)
    obtain ⟨rfl, -⟩ := List.cons.inj (hf.symm.trans hg)
    exact hreq
  have hs : CallStep x.calls (.respond (k, y.log.length)) _ := .respond hp
  obtain ⟨hmoved, hL⟩ := (h.traced k y hy.1).callStep hs (hg _ rfl) rfl
  refine ⟨_, h.task hy (hx.respond hy hp) (h.serialized.callStep hs (hg _ rfl)) hL ?_⟩
  rw [show (y.answer constantTimeEq (r.frame c) f rest).log = y.log ++ [f] by
    simp [Session.answer]]
  refine hmoved.handled hplace.conn ?_ ?_
  · show (Function.update x.calls.phase (k, y.log.length) (.responded c now r)
      (k, y.log.length)).acted.map (·.1) = y.conn.request f
    rw [Function.update_self, hreq]
    rfl
  · show Function.update x.calls.phase (k, y.log.length) (.responded c now r) _ = .idle
    rw [Function.update_of_ne (by simp)]
    exact hplace.future _ (Nat.lt_succ_self _)

theorem Inv.taskStep (h : Inv constantTimeEq authPassword s₀ x L)
    (hx : Tidy constantTimeEq authPassword archivePath x) (hy : x.Running k y) {a : Act κ}
    (hs : TaskStep constantTimeEq alloc x k y a x') (hg : InRange x a) :
    ∃ L', Inv constantTimeEq authPassword s₀ x' L' := by
  obtain ⟨y', hturn⟩ := hx.turn hy hs
  have hplace := hx.place k y hy.1
  have htraced := h.traced k y hy.1
  have becomes {z : Session} (hz : x'.session k = some z) : y' = z :=
    Option.some.inj (hturn.here.symm.trans hz)
  have still (hcalls : x'.calls = x.calls) (hlog : y'.log = y.log) :
      ∃ L', Inv constantTimeEq authPassword s₀ x' L' := by
    refine ⟨L, h.task hy hturn (hcalls ▸ h.serialized) (fun _ _ => rfl) ?_⟩
    rw [hcalls, hlog]
    exact htraced
  have called {b : Store.Act (κ × Nat)} (hz : CallStep x.calls b x'.calls)
      (hb : b.caller = some (k, y.log.length)) (hg : Store.InRange x.calls b)
      (hlog : y'.log = y.log) : ∃ L', Inv constantTimeEq authPassword s₀ x' L' := by
    obtain ⟨hmoved, hL⟩ := htraced.callStep hz hg hb
    exact ⟨_, h.task hy hturn (h.serialized.callStep hz hg) hL (hlog ▸ hmoved)⟩
  cases hs with
  | @read buf hf =>
    obtain rfl := becomes (Function.update_self ..)
    exact still rfl (y.read_same alloc buf).1
  | stop | ioError | abort =>
    obtain rfl := becomes (Function.update_self ..)
    exact still rfl rfl
  | send =>
    obtain rfl := becomes hy.1
    exact still rfl rfl
  | @serve f rest hf hr =>
    obtain rfl := becomes (Function.update_self ..)
    have hidle : x.calls.phase (k, y.log.length) = .idle :=
      hplace.idle hy.2 fun g rest' c hfs hreq => by
        obtain ⟨rfl, -⟩ := List.cons.inj (hf.symm.trans hfs)
        rw [hr] at hreq
        cases hreq
    refine ⟨L, h.task hy hturn h.serialized (fun _ _ => rfl) ?_⟩
    rw [(y.turn_same constantTimeEq x.calls.clock f rest x.calls.store).1]
    refine htraced.handled hplace.conn ?_ (hplace.future _ (Nat.lt_succ_self _))
    rw [hidle, hr]
    rfl
  | invoke hf hr hz =>
    obtain rfl := becomes hy.1
    exact called hz rfl (hg _ rfl) rfl
  | call ha hz hp =>
    obtain rfl := becomes hy.1
    exact called hz (by rcases ha with rfl | rfl | rfl | rfl <;> rfl) (hg _ rfl) rfl
  | panic hz hp =>
    obtain rfl := becomes (Function.update_self ..)
    exact called hz rfl (hg _ rfl) rfl
  | respond hf hp => exact h.respond hx hy hf hp hg
  | abortCall hs hz =>
    obtain rfl := becomes (Function.update_self ..)
    exact called hz rfl (hg _ rfl) rfl

theorem Inv.step (h : Inv constantTimeEq authPassword s₀ x L)
    (hx : Tidy constantTimeEq authPassword archivePath x) {a : Act κ}
    (hs : Step constantTimeEq alloc authPassword archivePath x a x') (hg : InRange x a) :
    ∃ L', Inv constantTimeEq authPassword s₀ x' L' := by
  cases hs with
  | tick t ht =>
    exact ⟨L, h.environment (h.serialized.tick ht) rfl fun _ moment hm => ⟨moment, hm.tick ht⟩⟩
  | sweep hs =>
    exact ⟨L, h.environment (h.serialized.sweepStep hs) hs.phase_eq.1 fun _ _ hm =>
      hm.sweepStep hx.orderly.covered h.serialized.guarded hs⟩
  | server hs => exact ⟨L, h.serverStep hx hs⟩
  | task hy hs => exact h.taskStep hx hy hs hg

theorem inv_run {t : Instant} (hs : Started s₀)
    (hr : Run constantTimeEq alloc authPassword archivePath InRange (.start t s₀) x) :
    ∃ L, Inv constantTimeEq authPassword s₀ x L := by
  induction hr with
  | nil => exact ⟨[], inv_start t s₀⟩
  | snoc hr hg hstep ih =>
    obtain ⟨L, hL⟩ := ih
    exact hL.step (tidy_run hs hr) hstep hg

end Inv

/-! ## After the snapshot -/

/-- The connections and their calls are as they were, and readers see the same store. -/
structure Frozen (x y : Server κ) : Prop where
  session : y.session = x.session
  phase : y.calls.phase = x.calls.phase
  history : y.calls.history = x.calls.history
  clock : x.calls.clock ≤ y.calls.clock
  agree : TtlMap.Agree y.calls.clock.val (contents y.calls.store) (contents x.calls.store)

section Frozen

variable {constantTimeEq : Bytes → Bytes → Bool} {alloc : Allocator} {authPassword : Option Bytes}
  {archivePath : Bool} {x y : Server κ}

omit [DecidableEq κ] in
theorem sweepStep_agree {a : Store.Act (κ × Nat)} {z z' : State (κ × Nat)} (hg : Guarded z)
    (hs : SweepStep z a z') :
    TtlMap.Agree z'.clock.val (contents z'.store) (contents z.store) := by
  cases hs with
  | @remove now candidates hs =>
    have hle : now ≤ z.clock := hg.swept now (by rw [hs]; rfl)
    exact (sweepRemove_agree now candidates z.store).mono hle
  | _ => exact .refl _ _

theorem frozen_step (hx : x.Ended) (hst : x.stage.isOver = true) (hg : Guarded x.calls) {a : Act κ}
    (hs : Step constantTimeEq alloc authPassword archivePath x a y) :
    y.stage.isOver = true ∧ Guarded y.calls ∧ Frozen x y := by
  cases hs with
  | tick t ht =>
    exact ⟨hst, ⟨hg.exclusive, fun now hn => le_trans (hg.swept now hn) ht⟩, rfl, rfl, rfl, ht,
      .refl _ _⟩
  | sweep hs =>
    obtain ⟨hphase, hclock, hhistory⟩ := hs.phase_eq
    exact ⟨hst, hg.sweepStep hs, rfl, hphase, hhistory, hclock.ge, sweepStep_agree hg hs⟩
  | task hy hs => exact absurd hy.2 (hx _ _ hy.1)
  | server hs =>
    cases hs with
    | accept hs _ => rw [hs] at hst; cases hst
    | shutdown hs _ => rw [hs] at hst; cases hst
    | timeout hs => rw [hs] at hst; cases hst
    | cancel => exact ⟨hst, hg, rfl, rfl, rfl, le_rfl, .refl _ _⟩
    | _ => exact ⟨rfl, hg, rfl, rfl, rfl, le_rfl, .refl _ _⟩

theorem frozen_run (hx : x.Ended) (hst : x.stage.isOver = true) (hg : Guarded x.calls)
    {G : Server κ → Act κ → Prop}
    (hr : Run constantTimeEq alloc authPassword archivePath G x y) :
    y.stage.isOver = true ∧ Guarded y.calls ∧ Frozen x y := by
  induction hr with
  | nil => exact ⟨hst, hg, rfl, rfl, rfl, le_rfl, .refl _ _⟩
  | snoc _ _ hstep ih =>
    obtain ⟨hst', hg', hf⟩ := ih
    obtain ⟨hst'', hg'', hf'⟩ := frozen_step (by
      intro k z hz
      exact hx k z (by rw [← hf.session]; exact hz)) hst' hg' hstep
    exact ⟨hst'', hg'', hf'.session.trans hf.session, hf'.phase.trans hf.phase,
      hf'.history.trans hf.history, le_trans hf.clock hf'.clock,
      hf'.agree.trans (hf.agree.mono hf'.clock)⟩

end Frozen

/-- In every state that a server can reach, there are calls, whole and in an order and at
clock values that the interleaving allows, such that the store looks as if they had been
made one at a time; each connection contributes the calls of a prefix of its frames,
which covers all that it has answered: these are the frames to which its client has got a whole
reply. What is in a saved archive is what is alive of that store, and from the snapshot on no
connection can change anything. -/
theorem acknowledged_writes_saved (constantTimeEq : Bytes → Bytes → Bool) (alloc : Allocator)
    (authPassword : Option Bytes) (archivePath : Bool) (t : Instant) (s₀ : Store)
    (hs₀ : s₀ = .new ∨ ∃ now clocks snapshot, fromSnapshot now clocks snapshot = .ok s₀)
    (x : Server κ)
    (hrun : Run constantTimeEq alloc authPassword archivePath InRange (.start t s₀) x) :
    ∃ L : List (Point (κ × Nat) Call Instant),
      Schedules x.calls.history (L.map nanos) ∧
      TtlMap.Agree x.calls.clock.val (contents x.calls.store) (contents (serial L s₀)) ∧
      (∀ k, x.session k = none → callsOf k L = []) ∧
      (∀ k y, x.session k = some y → ∃ m, y.log.length ≤ m ∧ callsOf k L =
        Connection.requests constantTimeEq ((y.log ++ y.frames).take m) (.new authPassword)) ∧
      (∀ k y, x.session k = some y → ∃ replies,
        Transcript constantTimeEq authPassword (x.Answers k) y (x.sending k) replies) ∧
      (∀ d, x.stage = .saved d → Exact (serial L s₀) d) ∧
      ∀ d, x.stage = .saving d ∨ x.stage = .saved d →
        ∀ G z, Run constantTimeEq alloc authPassword archivePath G x z →
          (∀ k y, ¬ z.Running k y) ∧ Frozen x z := by
  obtain ⟨L, hL⟩ := inv_run hs₀ hrun
  have hx := tidy_run hs₀ hrun
  refine ⟨L, hL.serialized.sched, hL.serialized.agree, hL.unborn, ?_, ?_, ?_, ?_⟩
  · intro k y hy
    exact (hL.traced k y hy).contributes (hx.place k y hy)
  · intro k y hy
    exact transcript_run hs₀ hrun hy
  · intro d hd
    have hst := hL.staged
    rw [hd] at hst
    exact hst.2
  · intro d hd G z hz
    have hst := hL.staged
    have hover : x.Ended ∧ x.stage.isOver = true := by
      rcases hd with hd | hd <;> rw [hd] at hst ⊢ <;> exact ⟨hst.1, rfl⟩
    obtain ⟨-, -, hf⟩ := frozen_run hover.1 hover.2 hL.serialized.guarded hz
    refine ⟨?_, hf⟩
    rintro k y ⟨hy, hr⟩
    rw [hf.session] at hy
    exact hover.1 k y hy hr

/-- A SET takes effect, its connection is aborted before it can answer, and it is saved. -/
theorem acknowledged_writes_saved_aborted :
    ∃ (x : Server Unit) (d : Dump) (L : List (Point (Unit × Nat) Call Instant)),
      Run (fun a b => a == b) .exact none true InRange (.start ⟨0, by decide⟩ .new) x ∧
        x.stage = .saved d ∧ ⟨[97], ⟨[98], none⟩⟩ ∈ d.snapshot.entries ∧
        Exact (serial L .new) d := by
  let clocks : Key → Clocks := fun _ => ⟨⟨10^18, by decide⟩, ⟨0, by decide⟩⟩
  let f : Frame := .array (some [.bulk (some [83, 69, 84]), .bulk (some [97]), .bulk (some [98])])
  let y : Session := { Session.start none with frames := [f] }
  have hread : (Session.start none).read .exact [83, 69, 84, 32, 97, 32, 98, 10] = y := by
    decide +kernel
  have hreq : y.conn.request f = some (.set [97] [98]) := by decide
  have h : Run (fun a b => a == b) .exact none true InRange (.start ⟨0, by decide⟩ .new)
    (.start ⟨0, by decide⟩ .new : Server Unit) := .nil _
  have h := h.snoc (inRange_of_ne (by simp)) (.server (.accept (k := ()) rfl rfl))
  have h := h.snoc (a := .read () [83, 69, 84, 32, 97, 32, 98, 10]) (inRange_of_ne (by simp))
    (.task (k := ()) (y := .start none) ⟨rfl, rfl⟩ (.read rfl))
  rw [hread] at h
  have h := h.snoc (inRange_of_ne (by simp))
    (.task (k := ()) (y := y) ⟨rfl, rfl⟩ (.invoke rfl hreq (.invoke _ rfl)))
  have h := h.snoc (inRange_of_ne (by simp)) (.task (k := ()) (y := y) ⟨rfl, rfl⟩
    (.call (.inr (.inr (.inl rfl))) (.lock (c := .set [97] [98]) rfl (.inr ⟨_, _, rfl⟩) ⟨rfl, by
      rintro ⟨⟨⟩, n⟩
      cases n <;> rfl⟩) nofun))
  have h := h.snoc (by rintro _ ⟨⟩; exact inRange_locked rfl)
    (.task (k := ()) (y := y) ⟨rfl, rfl⟩ (.call (.inr (.inr (.inr rfl))) (.set rfl) nofun))
  have h := h.snoc (inRange_of_ne (by simp)) (.server .cancel)
  have h := h.snoc (inRange_of_ne (by simp)) (.server (.shutdown rfl rfl))
  have h := h.snoc (inRange_of_ne (by simp)) (.server (.timeout rfl))
  have h := h.snoc (inRange_of_ne (by simp)) (.task (k := ()) (y := y) ⟨rfl, rfl⟩ (.abort rfl rfl))
  have h := h.snoc (inRange_of_ne (by simp)) (.server (.join (.inr rfl) (by
    rintro ⟨⟩ z ⟨⟩
    nofun)))
  have h := h.snoc (inRange_of_ne (by simp)) (.server (.dump rfl rfl))
  have h := h.snoc (inRange_of_ne (by simp)) (.server (.take clocks rfl ⟨rfl, by
    rintro ⟨⟨⟩, n⟩
    cases n <;> rfl⟩))
  have h := h.snoc (inRange_of_ne (by simp)) (.server (.written rfl))
  obtain ⟨L, -, -, -, -, -, hsaved, -⟩ := acknowledged_writes_saved _ _ _ _ _ _ (.inl rfl) _ h
  exact ⟨_, _, L, h, rfl, by decide, hsaved _ rfl⟩

end Redlike.Server
