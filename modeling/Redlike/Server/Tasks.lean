import Redlike.Server.Model
import Redlike.Store.Progress

/-!
# Tasks and their calls

At any time each connection has handled some of its frames, and is somewhere in the call of the
next one or in the reply to it. Calls that are under way belong to tasks that can go on with them,
and what has gone out of a reply that is not yet whole is the beginning of the reply to the
next frame, also after the task was cut off in the middle of it. A task that nobody is in the way
of gets the reply to its next call.
-/
namespace Redlike

open Resp Store Lib

namespace Store

theorem Phase.call_of_running {p : Phase} (h : ¬ p.IsOver) : ∃ c, p.call = some c := by
  cases p with
  | idle | responded | failed => exact absurd trivial h
  | _ => exact ⟨_, rfl⟩

theorem Phase.call_of_acted {p : Phase} {q : Call × Instant × Reply} (h : p.acted = some q) :
    p.call = some q.1 := by
  cases p with
  | finished | responded =>
    cases h
    rfl
  | _ => cases h

theorem Phase.IsOver.free {p : Phase} (h : p.IsOver) :
    p.holdsHeap = false ∧ p.holdsMap = false ∧ p.writesMap = false := by
  cases p with
  | idle | responded | failed => exact ⟨rfl, rfl, rfl⟩
  | _ => cases h

/-- The call of a task stays the same until it is answered or dropped. -/
theorem CallStep.call_eq {ι : Type} [DecidableEq ι] {z z' : State ι} {a : Act ι} {i : ι}
    (h : CallStep z a z') (ha : a.caller = some i) (hn : ∀ j c, a ≠ .invoke j c) {c : Call}
    (hc : (z'.phase i).call = some c) : (z.phase i).call = some c := by
  obtain ⟨j, p, hm, hphase⟩ := h.moves
  rw [hphase] at hc
  cases hm with
  | invoke d hi => exact absurd rfl (hn _ _)
  | drop hd =>
    cases ha
    rw [Function.update_self] at hc
    cases hc
  | panic hp hr =>
    cases ha
    rw [Function.update_self] at hc
    cases hc
  | respond hp =>
    cases ha
    rw [Function.update_self] at hc
    rw [hp]
    exact hc
  | finish hold hplace =>
    cases ha
    rw [Function.update_self] at hc
    rw [Phase.call, hold]
    exact hc
  | advance hj hold hnew =>
    obtain rfl : j = i := by
      rcases hj with rfl | rfl | rfl <;> exact Option.some.inj ha
    rw [Function.update_self, Phase.call, hnew] at hc
    rw [Phase.call, hold]
    exact hc

end Store

/-- The stages of a server with an archive path and of one without. -/
def Stage.Suits (archivePath : Bool) : Stage → Prop
  | .dumping _ | .saving _ | .saved _ | .failed => archivePath = true
  | .done => archivePath = false
  | .accepting | .draining | .aborting | .joined => True

namespace Server

variable {κ : Type}

section Place

variable (constantTimeEq : Bytes → Bytes → Bool) (authPassword : Option Bytes)

/-- Where the calls of a connection stand: one for each frame it has handled, at most, and the
one of the next frame. -/
structure Place (phase : κ × Nat → Phase) (k : κ) (y : Session) : Prop where
  conn : y.conn = Connection.afterAll constantTimeEq authPassword y.log
  past : ∀ n, n < y.log.length → (phase (k, n)).IsOver
  future : ∀ n, y.log.length < n → phase (k, n) = .idle
  called : ∀ c, (phase (k, y.log.length)).call = some c →
    ∃ f rest, y.frames = f :: rest ∧ y.conn.request f = some c
  running : y.status = .running → phase (k, y.log.length) ≠ .idle →
    ¬ (phase (k, y.log.length)).IsOver
  stopped : y.status ≠ .running → (phase (k, y.log.length)).droppable = false

variable {constantTimeEq authPassword} {phase phase' : κ × Nat → Phase} {k : κ} {y y' : Session}

theorem place_start (hp : ∀ n, phase (k, n) = .idle) :
    Place constantTimeEq authPassword phase k (.start authPassword) where
  conn := rfl
  past := nofun
  future n _ := hp n
  called c hc := by rw [hp] at hc; cases hc
  running _ hn := absurd (hp _) hn
  stopped hn := absurd rfl hn

theorem Place.current (h : Place constantTimeEq authPassword phase k y) (hr : y.status = .running)
    (hn : phase (k, y.log.length) ≠ .idle) : ¬ (phase (k, y.log.length)).IsOver ∧
      ∃ f rest c, y.frames = f :: rest ∧ y.conn.request f = some c := by
  have hover := h.running hr hn
  obtain ⟨c, hc⟩ := Phase.call_of_running hover
  obtain ⟨f, rest, hf, hreq⟩ := h.called c hc
  exact ⟨hover, f, rest, c, hf, hreq⟩

/-- A task that has no call to make has none under way. -/
theorem Place.idle (h : Place constantTimeEq authPassword phase k y) (hr : y.status = .running)
    (hn : ∀ f rest c, y.frames = f :: rest → y.conn.request f ≠ some c) :
    phase (k, y.log.length) = .idle := by
  by_contra hi
  obtain ⟨-, f, rest, c, hf, hc⟩ := h.current hr hi
  exact hn f rest c hf hc

theorem Place.frame (h : Place constantTimeEq authPassword phase k y)
    (hp : ∀ n, phase' (k, n) = phase (k, n)) : Place constantTimeEq authPassword phase' k y where
  conn := h.conn
  past n hn := by rw [hp]; exact h.past n hn
  future n hn := by rw [hp]; exact h.future n hn
  called := by rw [hp]; exact h.called
  running := by rw [hp]; exact h.running
  stopped := by rw [hp]; exact h.stopped

/-- The session changes between two frames. -/
theorem Place.between (h : Place constantTimeEq authPassword phase k y)
    (hi : phase (k, y.log.length) = .idle) (hlog : y'.log = y.log) (hconn : y'.conn = y.conn) :
    Place constantTimeEq authPassword phase k y' where
  conn := by rw [hconn, hlog]; exact h.conn
  past n hn := h.past n (by rwa [hlog] at hn)
  future n hn := h.future n (by rwa [hlog] at hn)
  called c hc := by rw [hlog, hi] at hc; cases hc
  running _ hn := by rw [hlog, hi] at hn; exact absurd rfl hn
  stopped _ := by rw [hlog, hi]; rfl

/-- The task ends outside its section. -/
theorem Place.close (h : Place constantTimeEq authPassword phase k y)
    (hp : (phase (k, y.log.length)).droppable = false) {status : Status} (hs : status ≠ .running) :
    Place constantTimeEq authPassword phase k { y with status := status } where
  conn := h.conn
  past := h.past
  future := h.future
  called := h.called
  running hr := absurd hr hs
  stopped _ := hp

/-- The next frame has been handled. -/
theorem Place.handled (h : Place constantTimeEq authPassword phase k y)
    (hp : (phase (k, y.log.length)).IsOver) {f : Frame} (hlog : y'.log = y.log ++ [f])
    (hconn : y'.conn = y.conn.after constantTimeEq f) :
    Place constantTimeEq authPassword phase k y' := by
  have hlen : y'.log.length = y.log.length + 1 := by rw [hlog, List.length_append]; rfl
  have hnext : phase (k, y'.log.length) = .idle := h.future _ (by omega)
  refine ⟨?_, fun n hn => ?_, fun n hn => h.future n (by omega), ?_, ?_, ?_⟩
  · rw [hconn, hlog, Connection.afterAll_append, h.conn]
  · obtain hlt | heq : n < y.log.length ∨ n = y.log.length := by omega
    · exact h.past n hlt
    · rw [heq]
      exact hp
  · intro c hc
    rw [hnext] at hc
    cases hc
  · intro _ hn
    exact absurd hnext hn
  · intro _
    rw [hnext]
    rfl

variable [DecidableEq κ]

/-- The call of the next frame moves on. -/
theorem Place.update (h : Place constantTimeEq authPassword phase k y) {p : Phase} (status : Status)
    (hcall : ∀ c, p.call = some c → ∃ f rest, y.frames = f :: rest ∧ y.conn.request f = some c)
    (hrun : status = .running → ¬ p.IsOver) (hstop : status ≠ .running → p.droppable = false) :
    Place constantTimeEq authPassword (Function.update phase (k, y.log.length) p) k
      { y with status := status } where
  conn := h.conn
  past n hn := by
    rw [Function.update_of_ne (by simp [Nat.ne_of_lt hn])]
    exact h.past n hn
  future n hn := by
    rw [Function.update_of_ne (by simp [Nat.ne_of_gt hn])]
    exact h.future n hn
  called := by
    rw [Function.update_self]
    exact hcall
  running hr _ := by
    rw [Function.update_self]
    exact hrun hr
  stopped hs := by
    rw [Function.update_self]
    exact hstop hs

end Place

/-! ## Replies on their way -/

/-- What has gone out of a reply is a part of the reply to the next frame, without its end. -/
def Sending (constantTimeEq : Bytes → Bytes → Bool) (x : Server κ) (k : κ) (y : Session) : Prop :=
  x.sending k = [] ∨ ∃ f rest r, y.frames = f :: rest ∧ Replying constantTimeEq x k y f r ∧
    x.sending k <+: r.toBytes ∧ x.sending k ≠ r.toBytes

section Sending

variable {constantTimeEq : Bytes → Bytes → Bool} {x x' : Server κ} {k : κ} {y y' : Session}

/-- A task that has no reply to send has sent nothing of one. -/
theorem Sending.nothing (h : Sending constantTimeEq x k y)
    (hn : ∀ f rest r, y.frames = f :: rest → ¬ Replying constantTimeEq x k y f r) :
    x.sending k = [] := by
  rcases h with hnil | ⟨f, rest, r, hf, hr, -⟩
  · exact hnil
  · exact absurd hr (hn f rest r hf)

theorem Replying.frame {f r : Frame} (h : Replying constantTimeEq x k y f r)
    (hp : x'.calls.phase (k, y.log.length) = x.calls.phase (k, y.log.length))
    (hconn : y'.conn = y.conn) (hlog : y'.log = y.log) :
    Replying constantTimeEq x' k y' f r := by
  cases h with
  | own hr ho => exact .own (by rw [hconn]; exact hr) (by rw [hconn]; exact ho)
  | call hp' => exact .call (by rw [hlog, hp]; exact hp')

/-- Elsewhere something has changed, or the task was cut off. -/
theorem Sending.frame (h : Sending constantTimeEq x k y) (hs : x'.sending k = x.sending k)
    (hp : x'.calls.phase (k, y.log.length) = x.calls.phase (k, y.log.length))
    (hconn : y'.conn = y.conn) (hlog : y'.log = y.log) (hframes : y'.frames = y.frames) :
    Sending constantTimeEq x' k y' := by
  rcases h with hnil | ⟨f, rest, r, hf, hr, hpart⟩
  · exact .inl (hs.trans hnil)
  · exact .inr ⟨f, rest, r, hframes.trans hf, hr.frame hp hconn hlog, by rwa [hs]⟩

end Sending

/-- Every call belongs to a task that can go on with it, and what the server has reached fits
its configuration. -/
structure Tidy (constantTimeEq : Bytes → Bytes → Bool) (authPassword : Option Bytes)
    (archivePath : Bool) (x : Server κ) : Prop where
  orderly : Orderly x.calls
  unborn : ∀ k, x.session k = none → x.sending k = [] ∧ ∀ n, x.calls.phase (k, n) = .idle
  place : ∀ k y, x.session k = some y → Place constantTimeEq authPassword x.calls.phase k y
  sends : ∀ k y, x.session k = some y → Sending constantTimeEq x k y
  ended : x.stage.isOver = true → x.Ended
  path : x.stage.Suits archivePath

/-- One task has moved, to the session `y'`. -/
structure Turn (constantTimeEq : Bytes → Bytes → Bool) (authPassword : Option Bytes) (x : Server κ)
    (k : κ) (y' : Session) (x' : Server κ) : Prop where
  here : x'.session k = some y'
  session : ∀ j, j ≠ k → x'.session j = x.session j
  sending : ∀ j, j ≠ k → x'.sending j = x.sending j
  phase : ∀ j, j ≠ k → ∀ n, x'.calls.phase (j, n) = x.calls.phase (j, n)
  stage : x'.stage = x.stage
  cancelled : x'.cancelled = x.cancelled
  clock : x'.calls.clock = x.calls.clock
  sweeper : x'.calls.sweeper = x.calls.sweeper
  place : Place constantTimeEq authPassword x'.calls.phase k y'
  sends : Sending constantTimeEq x' k y'

section Steps

variable [DecidableEq κ] {constantTimeEq : Bytes → Bytes → Bool} {alloc : Allocator}
  {authPassword : Option Bytes} {archivePath : Bool} {x x' : Server κ} {k : κ} {y y' : Session}

theorem turn_setSession (hp : Place constantTimeEq authPassword x.calls.phase k y')
    (hs : Sending constantTimeEq (x.setSession k y') k y') :
    Turn constantTimeEq authPassword x k y' (x.setSession k y') where
  here := Function.update_self ..
  session _ hj := Function.update_of_ne hj ..
  sending _ _ := rfl
  phase _ _ _ := rfl
  stage := rfl
  cancelled := rfl
  clock := rfl
  sweeper := rfl
  place := hp
  sends := hs

/-- The turn of a frame is over, with its call answered if it made one. -/
theorem turn_over {z : State (κ × Nat)}
    (hphase : ∀ j, j ≠ k → ∀ n, z.phase (j, n) = x.calls.phase (j, n))
    (hclock : z.clock = x.calls.clock) (hsweeper : z.sweeper = x.calls.sweeper)
    (hp : Place constantTimeEq authPassword z.phase k y') :
    Turn constantTimeEq authPassword x k y' ((setSession { x with calls := z } k y').sent k) where
  here := Function.update_self ..
  session _ hj := Function.update_of_ne hj ..
  sending _ hj := Function.update_of_ne hj ..
  phase := hphase
  stage := rfl
  cancelled := rfl
  clock := hclock
  sweeper := hsweeper
  place := hp
  sends := .inl (Function.update_self ..)

/-- The call of the next frame has moved to the phase `p`. -/
theorem turn_call {p : Phase} (hsession : x'.session = Function.update x.session k (some y'))
    (hphase : x'.calls.phase = Function.update x.calls.phase (k, y.log.length) p)
    (hsending : x'.sending = x.sending) (hnil : x.sending k = []) (hstage : x'.stage = x.stage)
    (hcancelled : x'.cancelled = x.cancelled) (hclock : x'.calls.clock = x.calls.clock)
    (hsweeper : x'.calls.sweeper = x.calls.sweeper)
    (hp : Place constantTimeEq authPassword (Function.update x.calls.phase (k, y.log.length) p) k y') :
    Turn constantTimeEq authPassword x k y' x' where
  here := by rw [hsession, Function.update_self]
  session j hj := by rw [hsession, Function.update_of_ne hj]
  sending _ _ := by rw [hsending]
  phase j hj n := by rw [hphase, Function.update_of_ne (by simp [hj])]
  stage := hstage
  cancelled := hcancelled
  clock := hclock
  sweeper := hsweeper
  place := by rw [hphase]; exact hp
  sends := .inl (by rw [hsending, hnil])

theorem Running.session_eq (hy : x.Running k y) :
    x.session = Function.update x.session k (some y) := by
  rw [← hy.1, Function.update_eq_self]

/-- What a call can be in once its task has taken it further. -/
theorem call_phase {z z' : State (κ × Nat)} {i : κ × Nat} {a : Store.Act (κ × Nat)}
    (ha : a = .readClock i ∨ a = .lockHeap i ∨ a = .lockMap i ∨ a = .finish i)
    (h : CallStep z a z') (hp : z'.phase i ≠ .failed) : ¬ (z'.phase i).IsOver := by
  obtain ⟨j, p, hm, hphase⟩ := h.moves
  cases hm with
  | invoke | respond | drop => rcases ha with ha | ha | ha | ha <;> cases ha
  | panic hi hr =>
    rcases ha with ha | ha | ha | ha <;> cases ha
    rw [hphase, Function.update_self] at hp
    exact absurd rfl hp
  | @advance _ c p hj hold hnew =>
    obtain rfl : j = i := by
      rcases hj with rfl | rfl | rfl <;> rcases ha with ha | ha | ha | ha <;> cases ha <;> rfl
    rw [hphase, Function.update_self]
    intro hover
    cases p with
    | idle | responded | failed => cases hnew
    | _ => exact hover
  | finish hold hplace =>
    rcases ha with ha | ha | ha | ha <;> cases ha
    rw [hphase, Function.update_self]
    exact id

section Tidy

variable (hx : Tidy constantTimeEq authPassword archivePath x) (hy : x.Running k y)
include hx hy

omit [DecidableEq κ] in
/-- Before its section has run, a call has no reply. -/
theorem Tidy.silent {f : Frame} {rest : List Frame} {c : Call} (hf : y.frames = f :: rest)
    (hr : y.conn.request f = some c)
    (hp : ∀ d now r, x.calls.phase (k, y.log.length) ≠ .finished d now r) :
    x.sending k = [] := by
  refine (hx.sends k y hy.1).nothing fun g rest' r hg hrep => ?_
  cases hrep with
  | own hnone ho =>
    obtain ⟨rfl, -⟩ := List.cons.inj (hf.symm.trans hg)
    rw [hr] at hnone
    cases hnone
  | call hfin => exact hp _ _ _ hfin

/-- The task ends at a read or at a write. -/
theorem Tidy.close (hp : (x.calls.phase (k, y.log.length)).droppable = false) :
    Turn constantTimeEq authPassword x k { y with status := .closed } (x.close k y .closed) :=
  turn_setSession ((hx.place k y hy.1).close hp nofun)
    ((hx.sends k y hy.1).frame rfl rfl rfl rfl rfl)

theorem Tidy.serve {f : Frame} {rest : List Frame} (hf : y.frames = f :: rest)
    (hr : y.conn.request f = none) :
    let y' := (y.turn constantTimeEq x.calls.clock f rest x.calls.store).1
    Turn constantTimeEq authPassword x k y' ((x.setSession k y').sent k) := by
  intro y'
  have hplace := hx.place k y hy.1
  have hi := hplace.idle hy.2 fun g rest' c h hreq => by
    obtain ⟨rfl, -⟩ := List.cons.inj (hf.symm.trans h)
    rw [hr] at hreq
    cases hreq
  obtain ⟨hlog, hconn⟩ := y.turn_same constantTimeEq x.calls.clock f rest x.calls.store
  exact turn_over (fun _ _ _ => rfl) rfl rfl (hplace.handled (by rw [hi]; trivial) hlog hconn)

theorem Tidy.respond {f : Frame} {rest : List Frame} {c : Call} {now : Instant} {r : Reply}
    (hp : x.calls.phase (k, y.log.length) = .finished c now r) :
    let y' := y.answer constantTimeEq (r.frame c) f rest
    Turn constantTimeEq authPassword x k y' ((Server.setSession { x with
      calls := (x.calls.move (k, y.log.length) (.responded c now r)).record
        (.respond (k, y.log.length) r x.calls.clock.val) } k y').sent k) := by
  intro y'
  have hmoved : Place constantTimeEq authPassword
      (Function.update x.calls.phase (k, y.log.length) (.responded c now r)) k
      { y with status := .closed } := by
    refine (hx.place k y hy.1).update .closed (fun d hd => ?_) nofun fun _ => rfl
    exact (hx.place k y hy.1).called d (by rw [hp]; exact hd)
  have hover : (Function.update x.calls.phase (k, y.log.length) (.responded c now r)
      (k, y.log.length)).IsOver := by
    rw [Function.update_self]
    trivial
  refine turn_over (fun j hj n => Function.update_of_ne (by simp [hj]) ..) rfl rfl
    (hmoved.handled (f := f) hover ?_ ?_)
  · simp [y', Session.answer]
  · simp [y', Session.answer]

theorem Tidy.send {f r : Frame} {rest : List Frame} {n : Nat} (hf : y.frames = f :: rest)
    (hr : Replying constantTimeEq x k y f r) (hn : n < r.toBytes.length) :
    Turn constantTimeEq authPassword x k y
      { x with sending := Function.update x.sending k (r.toBytes.take n) } where
  here := hy.1
  session _ _ := rfl
  sending _ hj := Function.update_of_ne hj ..
  phase _ _ _ := rfl
  stage := rfl
  cancelled := rfl
  clock := rfl
  sweeper := rfl
  place := hx.place k y hy.1
  sends := by
    have hsent : Function.update x.sending k (r.toBytes.take n) k = r.toBytes.take n :=
      Function.update_self ..
    refine .inr ⟨f, rest, r, hf, hr.frame rfl rfl rfl, ?_, fun he => ?_⟩
    · show Function.update x.sending k (r.toBytes.take n) k <+: r.toBytes
      rw [hsent]
      exact List.take_prefix n r.toBytes
    · have hlen := congrArg List.length (hsent.symm.trans he)
      rw [List.length_take] at hlen
      omega

theorem Tidy.invoke {f : Frame} {rest : List Frame} {c : Call} (hf : y.frames = f :: rest)
    (hr : y.conn.request f = some c) {z : State (κ × Nat)}
    (h : CallStep x.calls (.invoke (k, y.log.length) c) z) :
    Turn constantTimeEq authPassword x k y { x with calls := z } := by
  cases h with
  | invoke c hi =>
    have hnil := hx.silent hy hf hr fun d now r hfin => by rw [hi] at hfin; cases hfin
    refine turn_call hy.session_eq rfl rfl hnil rfl rfl rfl rfl
      ((hx.place k y hy.1).update y.status (fun d hd => ?_) (fun _ => id) fun hn => absurd hy.2 hn)
    cases hd
    exact ⟨f, rest, hf, hr⟩

/-- A call goes on up to the end of its section. -/
theorem Tidy.call {a : Store.Act (κ × Nat)} (ha : a.caller = some (k, y.log.length))
    (hn : ∀ i c, a ≠ .invoke i c) (ha' : ∀ i, a ≠ .respond i) {x' : Server κ} (status : Status)
    (h : CallStep x.calls a x'.calls)
    (hsession : x'.session = Function.update x.session k (some { y with status := status }))
    (hsending : x'.sending = x.sending) (hstage : x'.stage = x.stage)
    (hcancelled : x'.cancelled = x.cancelled)
    (hrun : status = .running → ¬ (x'.calls.phase (k, y.log.length)).IsOver)
    (hstop : status ≠ .running → (x'.calls.phase (k, y.log.length)).droppable = false) :
    Turn constantTimeEq authPassword x k { y with status := status } x' := by
  have hplace := hx.place k y hy.1
  have hcall {c : Call} (hc : (x'.calls.phase (k, y.log.length)).call = some c) :
      (x.calls.phase (k, y.log.length)).call = some c := h.call_eq ha hn hc
  obtain ⟨i, hi, hadv⟩ := h.advances hn
  obtain rfl : (k, y.log.length) = i := Option.some.inj (ha.symm.trans hi)
  obtain ⟨p, hphase, -⟩ := hadv.phase
  obtain ⟨-, f, rest, c, hf, hr⟩ := hplace.current hy.2 fun hidle => hadv.running (by
    rw [hidle]
    trivial)
  have hnil := hx.silent hy hf hr fun d now r hfin => by
    obtain ⟨j, q, hm, -⟩ := h.moves
    cases hm with
    | invoke => exact hn _ _ rfl
    | respond => exact ha' _ rfl
    | panic hold => cases ha; rw [hfin] at hold; cases hold
    | finish hold => cases ha; rw [hfin] at hold; cases hold
    | drop hold => cases ha; rw [hfin] at hold; cases hold
    | advance hj hold =>
      obtain rfl : j = (k, y.log.length) := by
        rcases hj with rfl | rfl | rfl <;> exact Option.some.inj ha
      rw [hfin] at hold
      cases hold
  rw [hphase, Function.update_self] at hrun hstop hcall
  exact turn_call hsession hphase hsending hnil hstage hcancelled hadv.clock hadv.sweeper
    (hplace.update status (fun c hc => hplace.called c (hcall hc)) hrun hstop)

/-- One step of a task, seen from outside: only this connection changes. -/
theorem Tidy.turn {a : Act κ} (hs : TaskStep constantTimeEq alloc x k y a x') :
    ∃ y', Turn constantTimeEq authPassword x k y' x' := by
  have hplace := hx.place k y hy.1
  have waiting (hf : y.frames = []) : x.calls.phase (k, y.log.length) = .idle :=
    hplace.idle hy.2 fun f rest c h => by rw [hf] at h; cases h
  have quiet (hf : y.frames = []) : x.sending k = [] :=
    (hx.sends k y hy.1).nothing fun f rest r h => by rw [hf] at h; cases h
  cases hs with
  | @read buf hf =>
    obtain ⟨hlog, hconn⟩ := y.read_same alloc buf
    exact ⟨_, turn_setSession (hplace.between (waiting hf) hlog hconn) (.inl (quiet hf))⟩
  | stop hf hc => exact ⟨_, hx.close hy (by rw [waiting hf]; rfl)⟩
  | serve hf hr => exact ⟨_, hx.serve hy hf hr⟩
  | send hf hr hlt hn => exact ⟨_, hx.send hy hf hr hn⟩
  | invoke hf hr h => exact ⟨_, hx.invoke hy hf hr h⟩
  | @call a z ha h hp =>
    have hturn : Turn constantTimeEq authPassword x k y { x with calls := z } := by
      refine hx.call hy ?_ ?_ ?_ y.status h hy.session_eq rfl rfl rfl
        (fun _ => call_phase ha h hp) fun hn => absurd hy.2 hn
      · rcases ha with rfl | rfl | rfl | rfl <;> rfl
      · rcases ha with rfl | rfl | rfl | rfl <;> nofun
      · rcases ha with rfl | rfl | rfl | rfl <;> nofun
    exact ⟨y, hturn⟩
  | @panic z h hp =>
    exact ⟨_, hx.call hy rfl (by nofun) (by nofun) .panicked h rfl rfl rfl rfl nofun fun _ => by
      show (z.phase _).droppable = false
      rw [hp]
      rfl⟩
  | respond hf hp => exact ⟨_, hx.respond hy hp⟩
  | ioError hp => exact ⟨_, hx.close hy hp⟩
  | abort hs hp => exact ⟨_, hx.close hy hp⟩
  | @abortCall z hs h =>
    refine ⟨_, hx.call hy rfl (by nofun) (by nofun) .closed h rfl rfl rfl rfl nofun fun _ => ?_⟩
    cases h with
    | drop hd =>
      show (Function.update x.calls.phase _ _ _).droppable = false
      rw [Function.update_self]
      rfl

end Tidy

theorem TaskStep.orderly {a : Act κ} (h : Orderly x.calls)
    (hs : TaskStep constantTimeEq alloc x k y a x') : Orderly x'.calls := by
  cases hs with
  | invoke hf hr hs => exact h.callStep hs
  | call ha hs hp => exact h.callStep hs
  | panic hs hp => exact h.callStep hs
  | respond hf hp => exact h.callStep (.respond hp)
  | abortCall hs hc => exact h.callStep hc
  | _ => exact h

theorem Tidy.taskStep (hx : Tidy constantTimeEq authPassword archivePath x) (hy : x.Running k y)
    {a : Act κ} (hs : TaskStep constantTimeEq alloc x k y a x') :
    Tidy constantTimeEq authPassword archivePath x' := by
  obtain ⟨y', hturn⟩ := hx.turn hy hs
  have other {j : κ} (hj : x'.session j = none) : j ≠ k := by
    rintro rfl
    rw [hturn.here] at hj
    cases hj
  refine ⟨hs.orderly hx.orderly, fun j hj => ?_, fun j z hj => ?_, fun j z hj => ?_,
    fun hover => ?_, ?_⟩
  · have hjk := other hj
    rw [hturn.session j hjk] at hj
    obtain ⟨hnil, hidle⟩ := hx.unborn j hj
    exact ⟨(hturn.sending j hjk).trans hnil, fun n => (hturn.phase j hjk n).trans (hidle n)⟩
  · by_cases hjk : j = k
    · rw [hjk, hturn.here] at hj
      injection hj with hj
      rw [hjk, ← hj]
      exact hturn.place
    · rw [hturn.session j hjk] at hj
      exact (hx.place j z hj).frame (hturn.phase j hjk)
  · by_cases hjk : j = k
    · rw [hjk, hturn.here] at hj
      injection hj with hj
      rw [hjk, ← hj]
      exact hturn.sends
    · rw [hturn.session j hjk] at hj
      exact (hx.sends j z hj).frame (hturn.sending j hjk) (hturn.phase j hjk _) rfl rfl rfl
  · rw [hturn.stage] at hover
    exact absurd hy.2 (hx.ended hover k y hy.1)
  · rw [hturn.stage]
    exact hx.path

omit [DecidableEq κ] in
/-- The server goes on to another stage. -/
theorem Tidy.restage (hx : Tidy constantTimeEq authPassword archivePath x) {stage : Stage}
    (hended : stage.isOver = true → x.Ended) (hpath : stage.Suits archivePath) :
    Tidy constantTimeEq authPassword archivePath { x with stage := stage } :=
  ⟨hx.orderly, hx.unborn, hx.place, fun k y hy => (hx.sends k y hy).frame rfl rfl rfl rfl rfl,
    hended, hpath⟩

theorem Tidy.accept (hx : Tidy constantTimeEq authPassword archivePath x)
    (hs : x.stage = .accepting) (hk : x.session k = none) :
    Tidy constantTimeEq authPassword archivePath (x.setSession k (.start authPassword)) := by
  obtain ⟨hnil, hidle⟩ := hx.unborn k hk
  have hhere : (x.setSession k (.start authPassword)).session k = some (.start authPassword) :=
    Function.update_self ..
  have hother {j : κ} (hjk : j ≠ k) :
      (x.setSession k (.start authPassword)).session j = x.session j := Function.update_of_ne hjk ..
  refine ⟨hx.orderly, fun j hj => ?_, fun j z hj => ?_, fun j z hj => ?_, fun hover => ?_, hx.path⟩
  · by_cases hjk : j = k
    · rw [hjk, hhere] at hj
      cases hj
    · rw [hother hjk] at hj
      exact hx.unborn j hj
  · by_cases hjk : j = k
    · rw [hjk, hhere] at hj
      cases hj
      rw [hjk]
      exact place_start hidle
    · rw [hother hjk] at hj
      exact hx.place j z hj
  · by_cases hjk : j = k
    · rw [hjk]
      exact .inl hnil
    · rw [hother hjk] at hj
      exact (hx.sends j z hj).frame rfl rfl rfl rfl rfl
  · rw [show (x.setSession k (.start authPassword)).stage = .accepting from hs] at hover
    cases hover

theorem Tidy.serverStep (hx : Tidy constantTimeEq authPassword archivePath x) {a : Act κ}
    (hs : ServerStep authPassword archivePath x a x') :
    Tidy constantTimeEq authPassword archivePath x' := by
  have hpath := hx.path
  have hended := hx.ended
  cases hs with
  | cancel =>
    exact ⟨hx.orderly, hx.unborn, hx.place,
      fun k y hy => (hx.sends k y hy).frame rfl rfl rfl rfl rfl, hx.ended, hx.path⟩
  | accept hs hk => exact hx.accept hs hk
  | shutdown hs hc => exact hx.restage nofun trivial
  | timeout hs => exact hx.restage nofun trivial
  | join hs he => exact hx.restage (fun _ => he) trivial
  | dump hs ha =>
    rw [hs] at hended
    exact hx.restage (fun _ => hended rfl) ha
  | take clocks hs hf =>
    rw [hs] at hended hpath
    exact hx.restage (fun _ => hended rfl) hpath
  | written hs =>
    rw [hs] at hended hpath
    exact hx.restage (fun _ => hended rfl) hpath
  | unwritten hs =>
    rw [hs] at hended hpath
    exact hx.restage (fun _ => hended rfl) hpath
  | skip hs ha =>
    rw [hs] at hended
    exact hx.restage (fun _ => hended rfl) ha

omit [DecidableEq κ] in
/-- The clock moves, or the sweeper. -/
theorem Tidy.environment (hx : Tidy constantTimeEq authPassword archivePath x)
    {z : State (κ × Nat)} (ho : Orderly z) (hphase : z.phase = x.calls.phase) :
    Tidy constantTimeEq authPassword archivePath { x with calls := z } := by
  refine ⟨ho, fun k hk => ?_, fun k y hy => ?_, fun k y hy => ?_, hx.ended, hx.path⟩
  · obtain ⟨hnil, hidle⟩ := hx.unborn k hk
    exact ⟨hnil, fun n => by rw [hphase]; exact hidle n⟩
  · exact (hx.place k y hy).frame fun n => by rw [hphase]
  · exact (hx.sends k y hy).frame rfl (by rw [hphase]) rfl rfl rfl

theorem Tidy.step (hx : Tidy constantTimeEq authPassword archivePath x) {a : Act κ}
    (hs : Step constantTimeEq alloc authPassword archivePath x a x') :
    Tidy constantTimeEq authPassword archivePath x' := by
  cases hs with
  | tick t ht => exact hx.environment (hx.orderly.step (.tick t ht)) rfl
  | sweep hs => exact hx.environment (hx.orderly.sweepStep hs) hs.phase_eq.1
  | server hs => exact hx.serverStep hs
  | task hy hs => exact hx.taskStep hy hs

theorem tidy_run {G : Server κ → Act κ → Prop} {t : Instant} {s₀ : Store} (hs₀ : Started s₀)
    (hr : Run constantTimeEq alloc authPassword archivePath G (.start t s₀) x) :
    Tidy constantTimeEq authPassword archivePath x := by
  induction hr with
  | nil => exact ⟨orderly_start t hs₀, fun _ _ => ⟨rfl, fun _ => rfl⟩, nofun, nofun, nofun, trivial⟩
  | snoc _ _ hstep ih => exact ih.step hstep

end Steps

/-! ## A task alone on the store -/

/-- No task is in a call, and the sweeper has nothing in its hands. -/
structure Quiet (x : Server κ) : Prop where
  sweeper : x.calls.sweeper = .idle
  calls : ∀ j, (x.calls.phase j).IsOver

section Alone

variable [DecidableEq κ] {constantTimeEq : Bytes → Bytes → Bool} {alloc : Allocator}
  {authPassword : Option Bytes} {archivePath : Bool} {G : Server κ → Act κ → Prop}
  {x₀ x : Server κ} {k : κ} {y : Session} {c : Call} {r : Reply}

/-- The server while one call has come to the phase `p`, and nothing else has happened. -/
def during (x : Server κ) (i : κ × Nat) (c : Call) (p : Phase) (s : Store) : Server κ :=
  { x with calls := { x.calls with
    store := s
    phase := Function.update x.calls.phase i p
    history := x.calls.history ++ [.invoke i c x.calls.clock.val] } }

theorem during_phase (x : Server κ) (i : κ × Nat) (c : Call) (p : Phase) (s : Store) :
    (x.during i c p s).calls.phase i = p := Function.update_self ..

/-- The call goes on to its next phase. -/
theorem during_step (hy : x.Running k y) {p p' : Phase} {s s' : Store} {a : Store.Act (κ × Nat)}
    (ha : a = .readClock (k, y.log.length) ∨ a = .lockHeap (k, y.log.length) ∨
      a = .lockMap (k, y.log.length) ∨ a = .finish (k, y.log.length)) (hp : p' ≠ .failed)
    (hs : CallStep (x.during (k, y.log.length) c p s).calls a
      { (x.during (k, y.log.length) c p s).calls.move (k, y.log.length) p' with store := s' }) :
    Step constantTimeEq alloc authPassword archivePath (x.during (k, y.log.length) c p s) (.store a)
      (x.during (k, y.log.length) c p' s') := by
  have hmove : { (x.during (k, y.log.length) c p s).calls.move (k, y.log.length) p' with
      store := s' } = (x.during (k, y.log.length) c p' s').calls := by
    simp only [State.move, during, Function.update_idem]
  rw [hmove] at hs
  exact .task hy (.call ha hs ((during_phase x _ c p' s').trans_ne hp))

theorem Quiet.free (hx : x.Quiet) {i : κ × Nat} {p : Phase} (s : Store) {held : Phase → Bool}
    (hover : ∀ {q : Phase}, q.IsOver → held q = false) (hp : held p = false) (j : κ × Nat) :
    held ((x.during i c p s).calls.phase j) = false := by
  show held (Function.update x.calls.phase i p j) = false
  by_cases hj : j = i
  · rw [hj, Function.update_self]
    exact hp
  · rw [Function.update_of_ne hj]
    exact hover (hx.calls j)

theorem Quiet.mapFree (hx : x.Quiet) {i : κ × Nat} {p : Phase} (s : Store)
    (hp : p.holdsMap = false) : (x.during i c p s).calls.MapFree c := by
  refine ⟨congrArg Sweeper.holdsMap hx.sweeper, fun j => ?_⟩
  have hmap := hx.free (c := c) (i := i) s (fun h => h.free.2.1) hp j
  split
  · cases hw : ((x.during i c p s).calls.phase j).writesMap with
    | false => rfl
    | true => rw [writesMap_holdsMap hw] at hmap; cases hmap
  · exact hmap

/-- A call that is alone gets its locks, reads the clock and is carried out. -/
theorem Quiet.finishes (hx : x.Quiet) (hy : x.Running k y)
    (hr : (c.run x.calls.clock x.calls.store).1 = some r)
    (hG : ∀ z b, (∀ i, b ≠ .finish i) → G z (.store b))
    (hfinish : ∀ z : Server κ, z.calls.store = x.calls.store →
      z.calls.phase (k, y.log.length) = .ready c x.calls.clock ∨
        z.calls.phase (k, y.log.length) = .locked c → G z (.store (.finish (k, y.log.length))))
    (hrun : Run constantTimeEq alloc authPassword archivePath G x₀
      (x.during (k, y.log.length) c (.invoked c) x.calls.store)) :
    Run constantTimeEq alloc authPassword archivePath G x₀
      (x.during (k, y.log.length) c (.finished c x.calls.clock r)
        (c.run x.calls.clock x.calls.store).2) := by
  have phase (p : Phase) : (x.during (k, y.log.length) c p x.calls.store).calls.phase
      (k, y.log.length) = p := during_phase ..
  have free {p : Phase} (hp : p.holdsMap = false) := hx.mapFree (c := c) (i := (k, y.log.length))
    x.calls.store hp
  -- what is left to do once the clock is read
  have carried (hready : Run constantTimeEq alloc authPassword archivePath G x₀
      (x.during (k, y.log.length) c (.ready c x.calls.clock) x.calls.store)) :
      Run constantTimeEq alloc authPassword archivePath G x₀
        (x.during (k, y.log.length) c (.finished c x.calls.clock r)
          (c.run x.calls.clock x.calls.store).2) :=
    hready.snoc (hfinish _ rfl (.inl (phase _)))
      (during_step hy (.inr (.inr (.inr rfl))) (by nofun) (.finish (phase _) hr))
  cases c with
  | get key | ttl key =>
    have hrun := hrun.snoc (hG _ _ (by nofun)) (during_step hy (.inr (.inr (.inl rfl))) (by nofun)
      (.lock (phase _) (.inl rfl) (free rfl)))
    exact carried (hrun.snoc (hG _ _ (by nofun))
      (during_step hy (.inl rfl) (by nofun) (.clock (phase _) (.inl rfl))))
  | set key value =>
    have hrun := hrun.snoc (hG _ _ (by nofun)) (during_step hy (.inr (.inr (.inl rfl))) (by nofun)
      (.lock (phase _) (.inr ⟨_, _, rfl⟩) (free rfl)))
    obtain rfl := Option.some.inj hr
    exact hrun.snoc (hfinish _ rfl (.inr (phase _)))
      (during_step hy (.inr (.inr (.inr rfl))) (by nofun) (.set (phase _)))
  | del key =>
    have hrun := hrun.snoc (hG _ _ (by nofun)) (during_step hy (.inl rfl) (by nofun) (.delClock (phase _)))
    exact carried (hrun.snoc (hG _ _ (by nofun)) (during_step hy (.inr (.inr (.inl rfl))) (by nofun)
      (.delLock (phase _) (free rfl))))
  | expire key secs =>
    have hrun := hrun.snoc (hG _ _ (by nofun)) (during_step hy (.inr (.inl rfl)) (by nofun)
      (.expireHeap (phase _) ⟨congrArg Sweeper.holdsHeap hx.sweeper,
        hx.free _ (fun h => h.free.1) rfl⟩))
    have hrun := hrun.snoc (hG _ _ (by nofun)) (during_step hy (.inr (.inr (.inl rfl))) (by nofun)
      (.expireLock (phase _) (free rfl)))
    exact carried (hrun.snoc (hG _ _ (by nofun))
      (during_step hy (.inl rfl) (by nofun) (.clock (phase _) (.inr ⟨_, _, rfl⟩))))

/-- The next frame of a task that is alone makes its call and gets the reply. -/
theorem Quiet.answered (hx : x.Quiet) (hy : x.Running k y)
    (hidle : x.calls.phase (k, y.log.length) = .idle) {f : Frame} {rest : List Frame}
    (hf : y.frames = f :: rest) (hreq : y.conn.request f = some c)
    (hr : (c.run x.calls.clock x.calls.store).1 = some r)
    (hG : ∀ z b, (∀ i, b ≠ .finish i) → G z (.store b))
    (hfinish : ∀ z : Server κ, z.calls.store = x.calls.store →
      z.calls.phase (k, y.log.length) = .ready c x.calls.clock ∨
        z.calls.phase (k, y.log.length) = .locked c → G z (.store (.finish (k, y.log.length))))
    (hrun : Run constantTimeEq alloc authPassword archivePath G x₀ x) :
    ∃ x', Run constantTimeEq alloc authPassword archivePath G x₀ x' ∧ x'.Quiet ∧
      x'.session = Function.update x.session k
        (some (y.answer constantTimeEq (r.frame c) f rest)) ∧
      x'.calls.phase = Function.update x.calls.phase (k, y.log.length)
        (.responded c x.calls.clock r) ∧
      x'.calls.store = (c.run x.calls.clock x.calls.store).2 ∧ x'.calls.clock = x.calls.clock ∧
      x'.stage = x.stage := by
  have hfinished := hx.finishes hy hr hG hfinish
    (hrun.snoc (hG _ _ (by nofun)) (.task hy (.invoke hf hreq (.invoke c hidle))))
  have hanswered := hfinished.snoc (hG _ _ (by nofun))
    (.task hy (.respond hf (during_phase x _ c _ _)))
  have hphase : Function.update (Function.update x.calls.phase (k, y.log.length)
      (.finished c x.calls.clock r)) (k, y.log.length) (.responded c x.calls.clock r) =
        Function.update x.calls.phase (k, y.log.length) (.responded c x.calls.clock r) :=
    Function.update_idem ..
  refine ⟨_, hanswered, ⟨hx.sweeper, fun j => ?_⟩, rfl, hphase, rfl, rfl, rfl⟩
  show (Function.update (Function.update x.calls.phase _ _) _ _ j).IsOver
  rw [hphase]
  by_cases hj : j = (k, y.log.length)
  · rw [hj, Function.update_self]
    trivial
  · rw [Function.update_of_ne hj]
    exact hx.calls j

end Alone
end Server
end Redlike
