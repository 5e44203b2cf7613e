import Mathlib.Algebra.Order.BigOperators.Group.Finset
import Redlike.Server.Tasks

/-!
# The server gets on

Left alone, the server needs no help from outside to get through its work, except that a reply
goes out only as its client takes it. Every connection whose client reads handles the frames it has
in hand, in any interleaving with the others and with the sweeper, whatever the other
clients do. If all of them read and the token is cancelled, then each task stops; the server joins
them all and saves, without a timeout and without an abort. For a client that does not read, a task
may wait in a write, where it does not see the token: the timeout ends it.
-/
namespace Redlike

open Resp Store Lib Lib.Settling

/-- The frame makes `run` return. -/
def Resp.Frame.Ends (f : Frame) : Prop :=
  Command.tryFrom f = .ok .quit ∨ Command.tryFrom f = .error .invalidCommandFrame ∨
    Command.tryFrom f = .error .io

namespace Session

/-- What has become of the frames in hand: they are handled in order, all of them if the
task was not ended by one of them. -/
structure Onward (y y' : Session) : Prop where
  kept : y'.log ++ y'.frames = y.log ++ y.frames
  ended : y.status = .running → y'.status ≠ .running →
    y'.frames = [] ∨ y'.status = .panicked ∨ ∃ f, y'.log.getLast? = some f ∧ f.Ends

theorem Onward.refl (y : Session) : Onward y y := ⟨rfl, fun hr hn => absurd hr hn⟩

theorem Onward.trans {y y' y'' : Session} (h : Onward y y') (hr : y'.status = .running)
    (h' : Onward y' y'') : Onward y y'' :=
  ⟨h'.kept.trans h.kept, fun _ => h'.ended hr⟩

theorem settle_onward {y z : Session} (hk : z.log ++ z.frames = y.log ++ y.frames)
    (hr : z.status = .running) : Onward y (settle z) := by
  unfold settle
  split
  · rename_i hf
    rw [Bool.and_eq_true, List.isEmpty_iff] at hf
    exact ⟨hk, fun _ _ => .inl hf.1⟩
  · exact ⟨hk, fun _ hn => absurd hr hn⟩

variable (constantTimeEq : Bytes → Bytes → Bool)

theorem processCommand_goes_on {command : Command} (hc : command ≠ .quit) (now : Instant)
    (x : Connection) (s : Store) :
    (x.processCommand constantTimeEq command now s).next ≠ .outcome .quit ∧
      (x.processCommand constantTimeEq command now s).next ≠ .returned := by
  unfold Connection.processCommand
  split
  · simp
  · cases command with
    | quit => exact absurd rfl hc
    | auth key =>
      simp only [Connection.authenticateConnection]
      split
      · simp
      · split <;> simp
    | expire key value =>
      dsimp only
      split <;> simp
    | _ => simp

/-- Other frames do not end the task. -/
theorem handle_goes_on {f : Frame} (hf : ¬ f.Ends) (now : Instant) (x : Connection) (s : Store) :
    (x.handle constantTimeEq f now s).next ≠ .outcome .quit ∧
      (x.handle constantTimeEq f now s).next ≠ .returned := by
  unfold Frame.Ends at hf
  unfold Connection.handle
  cases hcmd : Command.tryFrom f with
  | ok command =>
    refine processCommand_goes_on constantTimeEq (fun hq => hf (.inl ?_)) now x s
    rw [hcmd, hq]
  | error e =>
    cases e with
    | io => exact absurd (.inr (.inr hcmd)) hf
    | invalidCommandFrame => exact absurd (.inr (.inl hcmd)) hf
    | unknownCommand | wrongArgumentType | wrongArity => exact ⟨nofun, nofun⟩

theorem turn_onward {y : Session} {f : Frame} {rest : List Frame} (hf : y.frames = f :: rest)
    (hr : y.status = .running) (now : Instant) (s : Store) :
    Onward y (y.turn constantTimeEq now f rest s).1 := by
  have hk : (y.log ++ [f]) ++ rest = y.log ++ y.frames := by rw [hf, List.append_assoc]; rfl
  have hlast : (y.log ++ [f]).getLast? = some f := List.getLast?_concat
  unfold turn
  dsimp only
  split
  · exact settle_onward hk hr
  · rename_i hn
    refine ⟨hk, fun _ _ => .inr (.inr ⟨f, hlast, ?_⟩)⟩
    by_contra hf
    exact (handle_goes_on constantTimeEq hf now y.conn s).1 hn
  · exact settle_onward hk hr
  · rename_i hn
    refine ⟨hk, fun _ _ => .inr (.inr ⟨f, hlast, ?_⟩)⟩
    by_contra hf
    exact (handle_goes_on constantTimeEq hf now y.conn s).2 hn
  · exact ⟨hk, fun _ _ => .inr (.inl rfl)⟩

theorem answer_onward {y : Session} {f : Frame} {rest : List Frame} (hf : y.frames = f :: rest)
    (hr : y.status = .running) (response : Frame) :
    Onward y (y.answer constantTimeEq response f rest) :=
  settle_onward (by rw [hf, List.append_assoc]; rfl) hr

/-- The steps that a task has left, where its current call is in the phase `p`. -/
def left (p : Phase) (y : Session) : Nat :=
  match y.status, y.frames with
  | .running, [] => 1
  | .running, _ :: rest => 1 + 24 * rest.length + match p with
    | .idle => 24
    | p => p.work
  | _, _ => 0

theorem left_idle_le (y : Session) : y.left .idle ≤ 1 + 24 * y.frames.length := by
  unfold left
  split
  · omega
  · rename_i rest _ hf
    show 1 + 24 * rest.length + 24 ≤ _
    rw [hf, List.length_cons]
    omega
  · omega

theorem left_cons {y : Session} {f : Frame} {rest : List Frame} (hf : y.frames = f :: rest)
    (hr : y.status = .running) {p : Phase} (hp : p ≠ .idle) :
    y.left p = 1 + 24 * rest.length + p.work := by
  unfold left
  rw [hr, hf]
  cases p with
  | idle => exact absurd rfl hp
  | _ => rfl

theorem left_stopped {y : Session} (hr : y.status ≠ .running) (p : Phase) : y.left p = 0 := by
  unfold left
  cases hs : y.status with
  | running => exact absurd hs hr
  | _ => rfl

end Session

/-- The place of `server_from_listener` on its way to the end. -/
def Stage.rank : Stage → Nat
  | accepting => 6
  | draining => 5
  | aborting => 4
  | joined => 3
  | dumping _ => 2
  | saving _ => 1
  | saved _ | failed | done => 0

namespace Server

variable {κ : Type}

/-- The steps that the server makes by itself: clients send nothing, and the clock stands still.
Only a forced shutdown has a timeout, after which tasks are aborted. -/
def Act.Own (forced : Bool) : Act κ → Prop
  | .cancel | .accept _ | .read .. | .send .. | .ioError _ | .store (.tick _) => False
  | .timeout | .abort _ | .store (.drop _) => forced = true
  | _ => True

/-- The own steps that are bound to come where the clients of `reads` go on reading. For another
one a turn may wait at its reply, and the timer may wait for its millisecond. -/
def Act.Certain (forced : Bool) (reads : κ → Prop) : Act κ → Prop
  | .serve k | .store (.respond (k, _)) => reads k
  | .store .alarm => False
  | a => a.Own forced

/-- A client takes a part of a reply. -/
def Act.Taken : Act κ → Prop
  | .send .. => True
  | _ => False

theorem Act.Certain.own {forced : Bool} {reads : κ → Prop} {a : Act κ}
    (h : a.Certain forced reads) : a.Own forced := by
  cases a with
  | serve => trivial
  | store a =>
    cases a with
    | respond => trivial
    | alarm => cases h
    | _ => exact h
  | _ => exact h

/-- The task has paid for its step. -/
def Spent (x : Server κ) (k : κ) (y y' : Session) (x' : Server κ) : Prop :=
  sweepWork x.calls.clock x'.calls.store x.calls.sweeper +
      y'.left (x'.calls.phase (k, y'.log.length)) <
    sweepWork x.calls.clock x.calls.store x.calls.sweeper +
      y.left (x.calls.phase (k, y.log.length))

section Steps

variable [DecidableEq κ] {constantTimeEq : Bytes → Bytes → Bool} {alloc : Allocator}
  {authPassword : Option Bytes} {archivePath : Bool} {x x' : Server κ} {k : κ} {y y' : Session}

omit [DecidableEq κ] in
/-- A frame that has been handled is no longer paid for. -/
theorem spent_handled {f : Frame} {rest : List Frame} (hf : y.frames = f :: rest)
    (hr : y.status = .running) (hstore : x'.calls.store = x.calls.store)
    (hframes : y'.frames = rest) (hnext : x'.calls.phase (k, y'.log.length) = .idle)
    (hpos : x.calls.phase (k, y.log.length) = .idle ∨
      0 < (x.calls.phase (k, y.log.length)).work) : Spent x k y y' x' := by
  have hnew := y'.left_idle_le
  have hold : 1 + 24 * rest.length < y.left (x.calls.phase (k, y.log.length)) := by
    rcases hpos with hi | hw
    · rw [hi]
      unfold Session.left
      rw [hr, hf]
      show _ < 1 + 24 * rest.length + 24
      omega
    · rw [Session.left_cons hf hr (by intro hi; rw [hi] at hw; cases hw)]
      omega
  unfold Spent
  rw [hstore, hnext]
  rw [hframes] at hnew
  omega

theorem Tidy.serve_pays (hx : Tidy constantTimeEq authPassword archivePath x) (hy : x.Running k y)
    {f : Frame} {rest : List Frame} (hf : y.frames = f :: rest) (hr : y.conn.request f = none) :
    let y' := (y.turn constantTimeEq x.calls.clock f rest x.calls.store).1
    y.Onward y' ∧ Spent x k y y' ((x.setSession k y').sent k) := by
  intro y'
  have hplace := hx.place k y hy.1
  have hi := hplace.idle hy.2 fun g rest' c h hreq => by
    obtain ⟨rfl, -⟩ := List.cons.inj (hf.symm.trans h)
    rw [hr] at hreq
    cases hreq
  have hlog : y'.log = y.log ++ [f] :=
    (y.turn_same constantTimeEq x.calls.clock f rest x.calls.store).1
  have hon : y.Onward y' := Session.turn_onward constantTimeEq hf hy.2 _ _
  refine ⟨hon, spent_handled hf hy.2 rfl ?_ ?_ (.inl hi)⟩
  · have hkept := hon.kept
    rw [hlog, hf, List.append_assoc] at hkept
    exact (List.cons.inj (List.append_cancel_left hkept)).2
  · refine hplace.future _ ?_
    rw [hlog, List.length_append]
    exact Nat.lt_succ_self _

theorem Tidy.respond_pays (hx : Tidy constantTimeEq authPassword archivePath x)
    (hy : x.Running k y) {f : Frame} {rest : List Frame} (hf : y.frames = f :: rest) {c : Call}
    {now : Instant} {r : Reply} (hp : x.calls.phase (k, y.log.length) = .finished c now r) :
    let y' := y.answer constantTimeEq (r.frame c) f rest
    y.Onward y' ∧ Spent x k y y' ((Server.setSession { x with
      calls := (x.calls.move (k, y.log.length) (.responded c now r)).record
        (.respond (k, y.log.length) r x.calls.clock.val) } k y').sent k) := by
  intro y'
  have hframes : y'.frames = rest := by simp [y', Session.answer]
  have hlen : y'.log.length = y.log.length + 1 := by simp [y', Session.answer]
  refine ⟨Session.answer_onward constantTimeEq hf hy.2 _,
    spent_handled hf hy.2 rfl hframes ?_ (.inr (by rw [hp]; exact Nat.one_pos))⟩
  show Function.update x.calls.phase (k, y.log.length) _ (k, y'.log.length) = .idle
  rw [Function.update_of_ne (by simp [hlen])]
  exact (hx.place k y hy.1).future _ (by omega)

theorem invoke_pays (hy : x.Running k y) {f : Frame} {rest : List Frame} (hf : y.frames = f :: rest)
    {c : Call} {z : State (κ × Nat)} (h : CallStep x.calls (.invoke (k, y.log.length) c) z) :
    Spent x k y y { x with calls := z } := by
  cases h with
  | invoke c hi =>
    have hcost := Phase.work_le (.invoked c)
    have hold : y.left .idle = 1 + 24 * rest.length + 24 := by
      unfold Session.left
      rw [hy.2, hf]
    have hnew := y.left_cons hf hy.2 (p := .invoked c) nofun
    unfold Spent
    show sweepWork _ x.calls.store _ +
      y.left (Function.update x.calls.phase (k, y.log.length) (.invoked c) (k, y.log.length)) < _
    rw [Function.update_self, hi, hold, hnew]
    omega

/-- A call pays for its step up to the end of its section. -/
theorem Tidy.call_pays (hx : Tidy constantTimeEq authPassword archivePath x) (hy : x.Running k y)
    {a : Store.Act (κ × Nat)} (ha : a.caller = some (k, y.log.length))
    (hn : ∀ i c, a ≠ .invoke i c) (x' : Server κ) (status : Status)
    (h : CallStep x.calls a x'.calls)
    (hrun : status = .running → ¬ (x'.calls.phase (k, y.log.length)).IsOver) :
    Spent x k y { y with status := status } x' := by
  obtain ⟨i, hi, hadv⟩ := h.advances hn
  obtain rfl : (k, y.log.length) = i := Option.some.inj (ha.symm.trans hi)
  obtain ⟨p, hphase, hlt⟩ := hadv.phase
  have hold : x.calls.phase (k, y.log.length) ≠ .idle := by
    intro hidle
    exact hadv.running (by rw [hidle]; trivial)
  obtain ⟨-, f, rest, c, hf, hr⟩ := (hx.place k y hy.1).current hy.2 hold
  rw [hphase, Function.update_self] at hrun
  unfold Spent
  rw [Session.left_cons hf hy.2 hold]
  show _ + Session.left (x'.calls.phase (k, y.log.length)) _ < _
  rw [hphase, Function.update_self]
  by_cases hs : status = .running
  · have hidle : p ≠ .idle := by
      intro hidle
      exact hrun hs (by rw [hidle]; trivial)
    rw [Session.left_cons (y := { y with status := status }) hf hs hidle]
    omega
  · rw [Session.left_stopped (y := { y with status := status }) hs]
    omega

omit [DecidableEq κ] in
/-- A task that ends has nothing left to do. -/
theorem spent_stopped (hy : x.Running k y) (hstore : x'.calls.store = x.calls.store)
    (hn : y'.status ≠ .running) : Spent x k y y' x' := by
  have hold : 0 < y.left (x.calls.phase (k, y.log.length)) := by
    unfold Session.left
    rw [hy.2]
    cases y.frames with
    | nil => exact Nat.one_pos
    | cons f rest =>
      show 0 < 1 + 24 * rest.length + _
      omega
  unfold Spent
  rw [hstore, Session.left_stopped hn]
  omega

/-- An own step of a task brings it nearer to its end, past its frames or, by force, without them. -/
theorem Tidy.pays (hx : Tidy constantTimeEq authPassword archivePath x) (hy : x.Running k y)
    {forced : Bool} {a : Act κ} (hs : TaskStep constantTimeEq alloc x k y a x') (ha : a.Own forced)
    (hhere : x'.session k = some y') :
    Spent x k y y' x' ∧ (forced = false → y.Onward y') := by
  have becomes {z : Session} (hz : x'.session k = some z) : z = y' :=
    Option.some.inj (hz.symm.trans hhere)
  have unforced (h : forced = true) {p : Prop} (hf : forced = false) : p := by
    rw [h] at hf
    cases hf
  cases hs with
  | read | send | ioError => cases ha
  | abort hs hp =>
    obtain rfl := becomes (Function.update_self ..)
    exact ⟨spent_stopped hy rfl nofun, unforced ha⟩
  | @abortCall z hs h =>
    obtain rfl := becomes (Function.update_self ..)
    cases h with
    | drop hd => exact ⟨spent_stopped hy rfl nofun, unforced ha⟩
  | stop hf hc =>
    obtain rfl := becomes (Function.update_self ..)
    exact ⟨spent_stopped hy rfl nofun, fun _ => ⟨rfl, fun _ _ => .inl hf⟩⟩
  | serve hf hr =>
    obtain rfl := becomes (Function.update_self ..)
    obtain ⟨hon, hspent⟩ := hx.serve_pays hy hf hr
    exact ⟨hspent, fun _ => hon⟩
  | invoke hf hr h =>
    obtain rfl := becomes hy.1
    exact ⟨invoke_pays hy hf h, fun _ => .refl y⟩
  | @call a z hact h hp =>
    obtain rfl := becomes hy.1
    refine ⟨hx.call_pays hy ?_ ?_ { x with calls := z } y.status h fun _ => call_phase hact h hp,
      fun _ => .refl y⟩
    · rcases hact with rfl | rfl | rfl | rfl <;> rfl
    · rcases hact with rfl | rfl | rfl | rfl <;> nofun
  | @panic z h hp =>
    obtain rfl := becomes (Function.update_self ..)
    exact ⟨hx.call_pays hy rfl (by nofun) (Server.close { x with calls := z } k y .panicked) .panicked h
      nofun, fun _ => ⟨rfl, fun _ _ => .inr (.inl rfl)⟩⟩
  | respond hf hp =>
    obtain rfl := becomes (Function.update_self ..)
    obtain ⟨hon, hspent⟩ := hx.respond_pays hy hf hp
    exact ⟨hspent, fun _ => hon⟩

/-! ## What is left to do -/

/-- What the task of a connection has left. -/
def left (x : Server κ) (k : κ) : Nat :=
  match x.session k with
  | none => 0
  | some y => y.left (x.calls.phase (k, y.log.length))

/-- All that is left to do, with the tasks that run among `ks`. -/
def workLeft (ks : Finset κ) (x : Server κ) : Nat :=
  sweepWork x.calls.clock x.calls.store x.calls.sweeper + ∑ k ∈ ks, x.left k + x.stage.rank

/-- Only the tasks of `ks` run. -/
def Within (ks : Finset κ) (x : Server κ) : Prop := ∀ k y, x.Running k y → k ∈ ks

theorem Turn.within {ks : Finset κ} (h : Turn constantTimeEq authPassword x k y' x')
    (hy : x.Running k y) (hx : Within ks x) : Within ks x' := by
  intro j z hz
  by_cases hjk : j = k
  · rw [hjk]
    exact hx k y hy
  · exact hx j z ⟨by rw [← h.session j hjk]; exact hz.1, hz.2⟩

theorem Turn.work_lt {ks : Finset κ} (h : Turn constantTimeEq authPassword x k y' x')
    (hy : x.Running k y) (hx : Within ks x) (hs : Spent x k y y' x') :
    workLeft ks x' < workLeft ks x := by
  have hsum : ∑ j ∈ ks, x'.left j + x.left k = ∑ j ∈ ks, x.left j + x'.left k := by
    refine sum_add_eq (hx k y hy) fun j hj => ?_
    unfold left
    rw [h.session j hj]
    cases x.session j with
    | none => rfl
    | some z =>
      show z.left _ = z.left _
      rw [h.phase j hj]
  have hold : x.left k = y.left (x.calls.phase (k, y.log.length)) := by
    unfold left
    rw [hy.1]
  have hnew : x'.left k = y'.left (x'.calls.phase (k, y'.log.length)) := by
    unfold left
    rw [h.here]
  unfold Spent at hs
  rw [workLeft, h.clock, h.sweeper, h.stage, workLeft]
  omega

theorem ServerStep.rank_lt {forced : Bool} {a : Act κ}
    (hs : ServerStep authPassword archivePath x a x') (ha : a.Own forced) :
    x' = { x with stage := x'.stage } ∧ x'.stage.rank < x.stage.rank := by
  cases hs with
  | cancel | accept => cases ha
  | timeout hs => exact ⟨rfl, by rw [hs]; exact Nat.lt_succ_self 4⟩
  | join hs he =>
    refine ⟨rfl, ?_⟩
    rcases hs with hs | hs
    · rw [hs]; exact Nat.lt_add_of_pos_right Nat.two_pos
    · rw [hs]; exact Nat.lt_succ_self 3
  | shutdown hs _ => exact ⟨rfl, by rw [hs]; exact Nat.lt_succ_self 5⟩
  | dump hs _ => exact ⟨rfl, by rw [hs]; exact Nat.lt_succ_self 2⟩
  | take _ hs _ => exact ⟨rfl, by rw [hs]; exact Nat.lt_succ_self 1⟩
  | written hs => exact ⟨rfl, by rw [hs]; exact Nat.one_pos⟩
  | unwritten hs => exact ⟨rfl, by rw [hs]; exact Nat.one_pos⟩
  | skip hs _ => exact ⟨rfl, by rw [hs]; exact Nat.succ_pos 2⟩

/-- What has become of each connection. -/
def Onward (x x' : Server κ) : Prop :=
  ∀ k y, x.session k = some y → ∃ y', x'.session k = some y' ∧ y.Onward y'

/-- What the server keeps while it is left alone. -/
structure Driven (constantTimeEq : Bytes → Bytes → Bool) (authPassword : Option Bytes)
    (archivePath forced : Bool) (ks : Finset κ) (x₀ x : Server κ) : Prop where
  tidy : Tidy constantTimeEq authPassword archivePath x
  within : Within ks x
  cancelled : x.cancelled = x₀.cancelled
  onward : forced = false → Onward x₀ x

variable {x₀ : Server κ} {forced : Bool} {ks : Finset κ}

theorem Driven.turn (hx : Driven constantTimeEq authPassword archivePath forced ks x₀ x)
    (hy : x.Running k y) (ht : Turn constantTimeEq authPassword x k y' x')
    (hx' : Tidy constantTimeEq authPassword archivePath x') (hon : forced = false → y.Onward y') :
    Driven constantTimeEq authPassword archivePath forced ks x₀ x' where
  tidy := hx'
  within := ht.within hy hx.within
  cancelled := ht.cancelled.trans hx.cancelled
  onward hf j z hj := by
    obtain ⟨z', hz', hzon⟩ := hx.onward hf j z hj
    by_cases hjk : j = k
    · subst hjk
      obtain rfl : y = z' := Option.some.inj (hy.1.symm.trans hz')
      exact ⟨y', ht.here, hzon.trans hy.2 (hon hf)⟩
    · exact ⟨z', (ht.session j hjk).trans hz', hzon⟩

theorem driven_spends (constantTimeEq : Bytes → Bytes → Bool) (alloc : Allocator)
    (authPassword : Option Bytes) (archivePath forced : Bool) (ks : Finset κ) (x₀ : Server κ) :
    Spends (Step constantTimeEq alloc authPassword archivePath) (Act.Own forced)
      (Driven constantTimeEq authPassword archivePath forced ks x₀) (workLeft ks) where
  keep := by
    intro x a x' hx ha hs
    have hx' := hx.tidy.step hs
    cases hs with
    | tick => cases ha
    | sweep hs => exact ⟨hx', hx.within, hx.cancelled, hx.onward⟩
    | server hs =>
      rw [(hs.rank_lt ha).1] at hx' ⊢
      exact ⟨hx', hx.within, hx.cancelled, hx.onward⟩
    | task hy hs =>
      obtain ⟨y', hturn⟩ := hx.tidy.turn hy hs
      exact hx.turn hy hturn hx' (hx.tidy.pays hy hs ha hturn.here).2
  lower := by
    intro x a x' hx ha hs
    cases hs with
    | tick => cases ha
    | @sweep _ z hs =>
      have hlt := hs.work_lt hx.tidy.orderly.guarded hx.tidy.orderly.targeted
      obtain ⟨hphase, hclock, -⟩ := hs.phase_eq
      have hleft (k : κ) : ({ x with calls := z } : Server κ).left k = x.left k := by
        unfold left
        rw [hphase]
      simp only [workLeft, hleft, hclock]
      omega
    | server hs =>
      obtain ⟨heq, hlt⟩ := hs.rank_lt ha
      rw [heq]
      simp only [workLeft, left]
      omega
    | task hy hs =>
      obtain ⟨y', hturn⟩ := hx.tidy.turn hy hs
      exact hturn.work_lt hy hx.within (hx.tidy.pays hy hs ha hturn.here).1

/-- In how many pieces the replies are taken makes no difference. -/
theorem Driven.taken (hx : Driven constantTimeEq authPassword archivePath forced ks x₀ x) {a : Act κ}
    (ha : a.Taken) (hs : Step constantTimeEq alloc authPassword archivePath x a x') :
    Driven constantTimeEq authPassword archivePath forced ks x₀ x' ∧
      workLeft ks x' ≤ workLeft ks x := by
  have hx' := hx.tidy.step hs
  cases hs with
  | tick | sweep => cases ha
  | server hs => cases hs <;> cases ha
  | task hy hs =>
    cases hs with
    | send hf hr hlt hn => exact ⟨⟨hx', hx.within, hx.cancelled, hx.onward⟩, Nat.le_refl _⟩
    | _ => cases ha

/-! ## At rest -/

section Rest

variable {reads : κ → Prop} (hx : Tidy constantTimeEq authPassword archivePath x)
  (hr : AtRest (Step constantTimeEq alloc authPassword archivePath) (Act.Certain forced reads) x)
include hx hr

theorem Tidy.inner_rest : AtRest Store.Step Store.Act.Inner x.calls := by
  intro a z ha hs
  cases hs with
  | tick => cases ha
  | sweep hs =>
    have hcertain : Act.Certain forced reads (.store a : Act κ) := by
      cases hs with
      | alarm => cases ha
      | _ => trivial
    exact hr (.store a) _ hcertain (.sweep hs)
  | call h =>
    obtain ⟨⟨k, n⟩, hact, hdrop, hfail⟩ := h.inner ha
    have hcertain : Act.Certain forced reads (.store a : Act κ) := by
      rcases hact with rfl | rfl | rfl | rfl <;> trivial
    -- the call is the one that a running task is in
    cases hk : x.session k with
    | none =>
      rw [(hx.unborn k hk).2 n] at hdrop
      cases hdrop
    | some y =>
      have hplace := hx.place k y hk
      have hn : n = y.log.length := by
        rcases Nat.lt_trichotomy n y.log.length with hlt | heq | hgt
        · have hover := hplace.past n hlt
          cases hp : x.calls.phase (k, n) with
          | idle | responded | failed => rw [hp] at hdrop; cases hdrop
          | _ => rw [hp] at hover; cases hover
        · exact heq
        · rw [hplace.future n hgt] at hdrop
          cases hdrop
      subst hn
      by_cases hrun : y.status = .running
      · by_cases hp : z.phase (k, y.log.length) = .failed
        · have hfinish := hfail hp
          subst hfinish
          exact hr _ _ hcertain (.task ⟨hk, hrun⟩ (.panic h hp))
        · exact hr _ _ hcertain (.task ⟨hk, hrun⟩ (.call hact h hp))
      · rw [hplace.stopped hrun] at hdrop
        cases hdrop

/-- At rest no task has a frame in hand, unless it waits for its client. -/
theorem Tidy.rest_idle (hy : x.Running k y) (hk : reads k) : y.frames = [] := by
  have hdrop := hx.orderly.not_droppable (hx.inner_rest hr) (k, y.log.length)
  by_cases hi : x.calls.phase (k, y.log.length) = .idle
  · cases hf : y.frames with
    | nil => rfl
    | cons f rest =>
      exfalso
      cases hreq : y.conn.request f with
      | none => exact hr (.serve k) _ hk (.task hy (.serve hf hreq))
      | some c =>
        exact hr (.store (.invoke _ c)) _ trivial (.task hy (.invoke hf hreq (.invoke c hi)))
  · obtain ⟨hover, f, rest, c, hf, -⟩ := (hx.place k y hy.1).current hy.2 hi
    exfalso
    cases hp : x.calls.phase (k, y.log.length) with
    | idle | responded | failed => rw [hp] at hover; exact hover trivial
    | finished c now r =>
      exact hr (.store (.respond (k, y.log.length))) _ hk (.task hy (.respond hf hp))
    | invoked | clocked | heapHeld | locked | ready => rw [hp] at hdrop; cases hdrop

end Rest

/-! ## From any state on -/

/-- Only finitely many connections have been accepted. -/
theorem accepted_run {G : Server κ → Act κ → Prop} {t : Instant} {s₀ : Store} (hs₀ : Started s₀)
    (hr : Run constantTimeEq alloc authPassword archivePath G (.start t s₀) x) :
    ∃ ks : Finset κ, ∀ k, x.session k ≠ none → k ∈ ks := by
  induction hr with
  | nil => exact ⟨∅, fun k hk => absurd rfl hk⟩
  | @snoc y z a hr _ hs ih =>
    obtain ⟨ks, hks⟩ := ih
    have hy := tidy_run hs₀ hr
    cases hs with
    | tick | sweep => exact ⟨ks, hks⟩
    | @task _ k _ _ hrun hs =>
      obtain ⟨y', hturn⟩ := hy.turn hrun hs
      refine ⟨ks, fun j hj => hks j ?_⟩
      by_cases hjk : j = k
      · rw [hjk, hrun.1]
        nofun
      · rwa [hturn.session j hjk] at hj
    | server hs =>
      cases hs with
      | @accept k _ _ =>
        refine ⟨insert k ks, fun j hj => ?_⟩
        by_cases hjk : j = k
        · exact Finset.mem_insert.mpr (.inl hjk)
        · refine Finset.mem_insert_of_mem (hks j ?_)
          change Function.update y.session k _ j ≠ none at hj
          rwa [Function.update_of_ne hjk] at hj
      | _ => exact ⟨ks, hks⟩

/-- The frames that a connection has still to handle. -/
def inHand (x : Server κ) (k : κ) : Nat := (x.session k).elim 0 fun y => y.frames.length

omit [DecidableEq κ] in
theorem Tidy.left_le (hx : Tidy constantTimeEq authPassword archivePath x) (k : κ) :
    x.left k ≤ 1 + 24 * x.inHand k := by
  unfold left inHand
  cases hk : x.session k with
  | none => exact Nat.zero_le _
  | some y =>
    show y.left (x.calls.phase (k, y.log.length)) ≤ 1 + 24 * y.frames.length
    by_cases hrun : y.status = .running
    · by_cases hi : x.calls.phase (k, y.log.length) = .idle
      · rw [hi]
        exact y.left_idle_le
      · obtain ⟨-, f, rest, c, hf, -⟩ := (hx.place k y hk).current hrun hi
        have hwork := Phase.work_le (x.calls.phase (k, y.log.length))
        rw [Session.left_cons hf hrun hi, hf, List.length_cons]
        omega
    · rw [Session.left_stopped hrun]
      exact Nat.zero_le _

/-- The bound on the steps of a server that is left alone. -/
theorem driven_run {G : Server κ → Act κ → Prop} {t : Instant} {s₀ : Store} (hs₀ : Started s₀)
    (hr : Run constantTimeEq alloc authPassword archivePath G (.start t s₀) x) :
    ∃ ks : Finset κ, (∀ k, k ∈ ks ↔ ∃ y, x.Running k y) ∧
      (∀ forced, Driven constantTimeEq authPassword archivePath forced ks x x) ∧
      workLeft ks x ≤
        ∑ k ∈ ks, (1 + 24 * x.inHand k) + 9 * x.calls.store.expirationHeap.entries.length + 32 := by
  classical
  have hx := tidy_run hs₀ hr
  obtain ⟨ks₀, hks₀⟩ := accepted_run hs₀ hr
  let ks := ks₀.filter fun k => ∃ y, x.Running k y
  have hmem (k : κ) : k ∈ ks ↔ ∃ y, x.Running k y := by
    rw [Finset.mem_filter]
    refine ⟨And.right, fun ⟨y, hy⟩ => ⟨hks₀ k ?_, y, hy⟩⟩
    rw [hy.1]
    nofun
  refine ⟨ks, hmem, fun _ => ⟨hx, fun k y hy => (hmem k).mpr ⟨y, hy⟩, rfl,
    fun _ k y hy => ⟨y, hy, .refl y⟩⟩, ?_⟩
  have hsweep := sweepWork_le x.calls.clock x.calls.store x.calls.sweeper
  have hsum : ∑ k ∈ ks, x.left k ≤ ∑ k ∈ ks, (1 + 24 * x.inHand k) :=
    Finset.sum_le_sum fun k _ => hx.left_le k
  have hrank : x.stage.rank ≤ 6 := by
    cases x.stage <;> simp [Stage.rank]
  unfold workLeft
  omega

/-- From every reachable state, whatever the server does by itself ends within a bound that is
linear in the frames in hand and in the heap, in any interleaving of the connections and the
sweeper, and in whatever pieces the clients take their replies. It ends with no frame in hand of a
task that runs for a client that reads: each connection has handled its frames in order, and that
of a client that reads all of them, unless one of them ended it or a call panicked. -/
theorem requests_are_handled (constantTimeEq : Bytes → Bytes → Bool) (alloc : Allocator)
    (authPassword : Option Bytes) (archivePath : Bool) {G : Server κ → Act κ → Prop} {t : Instant}
    {s₀ : Store} (hs₀ : Started s₀) {x : Server κ}
    (hr : Run constantTimeEq alloc authPassword archivePath G (.start t s₀) x) :
    (∃ ks : Finset κ, (∀ k, k ∈ ks ↔ ∃ y, x.Running k y) ∧
      ∀ n z, Among (Step constantTimeEq alloc authPassword archivePath) (Act.Own false) Act.Taken
          n x z →
        n ≤ ∑ k ∈ ks, (1 + 24 * x.inHand k) + 9 * x.calls.store.expirationHeap.entries.length + 32) ∧
    ∀ reads : κ → Prop,
      (∃ n z, Takes (Step constantTimeEq alloc authPassword archivePath) (Act.Certain false reads)
          n x z ∧
        AtRest (Step constantTimeEq alloc authPassword archivePath) (Act.Certain false reads) z) ∧
      ∀ n z, Among (Step constantTimeEq alloc authPassword archivePath) (Act.Own false) Act.Taken
          n x z →
        AtRest (Step constantTimeEq alloc authPassword archivePath) (Act.Certain false reads) z →
        (∀ k y, z.Running k y → reads k → y.frames = []) ∧ Onward x z := by
  obtain ⟨ks, hmem, hx, hwork⟩ := driven_run hs₀ hr
  have hspends := driven_spends constantTimeEq alloc authPassword archivePath false ks x
  refine ⟨⟨ks, hmem, fun n z hz => ?_⟩, fun reads => ⟨?_, fun n z hz hrest => ?_⟩⟩
  · have htakes := (hspends.among (fun hx ha hs => hx.taken ha hs) (hx false) hz).2
    omega
  · exact (hspends.mono fun _ => Act.Certain.own).settles (hx false)
  · have hz' := (hspends.among (fun hx ha hs => hx.taken ha hs) (hx false) hz).1
    exact ⟨fun k y hy hk => hz'.tidy.rest_idle hrest hy hk, hz'.onward rfl⟩

/-- A connection has a SET and a GET in hand. -/
theorem requests_are_handled_pipelined :
    ∃ x : Server Unit, Run (fun a b => a == b) .exact none false (fun _ _ => True)
        (.start ⟨0, by decide⟩ .new) x ∧ x.inHand () = 2 ∧
      ∃ n z, Takes (Step (fun a b => a == b) .exact none false)
          (Act.Certain false fun _ => True) n x z ∧
        ∀ y, z.Running () y → y.frames = [] := by
  have hread : ((Session.start none).read .exact
      [83, 69, 84, 32, 97, 32, 98, 10, 71, 69, 84, 32, 97, 10]).frames.length = 2 := by
    decide +kernel
  have h : Run (fun a b => a == b) .exact none false (fun _ _ => True) (.start ⟨0, by decide⟩ .new)
    (.start ⟨0, by decide⟩ .new : Server Unit) := .nil _
  have h := h.snoc trivial (.server (.accept (k := ()) rfl rfl))
  have h := h.snoc (a := .read () [83, 69, 84, 32, 97, 32, 98, 10, 71, 69, 84, 32, 97, 10]) trivial
    (.task (k := ()) (y := .start none) ⟨rfl, rfl⟩ (.read rfl))
  obtain ⟨⟨n, z, ht, hz⟩, hend⟩ := (requests_are_handled _ _ _ _ (.inl rfl) h).2 fun _ => True
  exact ⟨_, h, hread, n, z, ht,
    fun y hy => (hend n z (ht.among fun _ => Act.Certain.own) hz).1 () y hy trivial⟩

end Steps
end Server
end Redlike
