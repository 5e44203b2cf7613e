import Redlike.Store.Concurrent
import Redlike.Snapshot.Model
import Redlike.Connection.Request

/-!
# The server

`server_from_listener` with the tasks it spawns. It accepts connections until the
shutdown token is cancelled, waits for the open ones, aborts those that do not end in
time, waits for these too, and saves the store if an archive path is set. A connection
task goes through its session; its calls are those of `Store.Concurrent`, where the
`n`-th frame of connection `k` makes the call `(k, n)`. A reply goes out in pieces, as the
client takes them, and its task waits for that; the step that ends a turn takes the last piece.
A task can be aborted wherever it awaits something: a read, a lock or a write, which then
leaves a reply cut off. Finished tasks are also joined while the server still accepts, which
changes nothing here. Whether the file of the archive could be written is left open.
-/
namespace Redlike

open Resp Store

/-- The snapshot that `save` has taken: the clock reading of `to_snapshot`, the clock when
it got the map, and the readings of the conversions. -/
structure Dump where
  now : Instant
  taken : Instant
  clocks : Key → Clocks
  snapshot : Snapshot

inductive Stage where
  | accepting
  | draining
  | aborting
  /-- No connection is left. -/
  | joined
  /-- `to_snapshot` has read the clock and waits for the map. -/
  | dumping (now : Instant)
  | saving (d : Dump)
  | saved (d : Dump)
  /-- `save` has failed. -/
  | failed
  /-- There is no archive. -/
  | done

/-- Every connection has been joined. -/
def Stage.isOver : Stage → Bool
  | accepting | draining | aborting => false
  | joined | dumping _ | saving _ | saved _ | failed | done => true

/-- A connection without a session has not been accepted yet. -/
structure Server (κ : Type) where
  calls : State (κ × Nat)
  session : κ → Option Session
  /-- What has gone out of the reply to the next frame; `written` has the whole replies. -/
  sending : κ → Bytes
  cancelled : Bool
  stage : Stage

namespace Server

variable {κ : Type}

def start (t : Instant) (s : Store) : Server κ :=
  ⟨.start t s, fun _ => none, fun _ => [], false, .accepting⟩

/-- The task of the connection runs. -/
def Running (x : Server κ) (k : κ) (y : Session) : Prop :=
  x.session k = some y ∧ y.status = .running

/-- Every task that was spawned has ended. -/
def Ended (x : Server κ) : Prop := ∀ k y, x.session k = some y → y.status ≠ .running

inductive Act (κ : Type) where
  | cancel
  | accept (k : κ)
  | shutdown
  | timeout
  | join
  | dump
  | take (clocks : Key → Clocks)
  | write (ok : Bool)
  | skip
  | read (k : κ) (buf : Bytes)
  | serve (k : κ)
  | send (k : κ) (n : Nat)
  | stop (k : κ)
  | ioError (k : κ)
  | abort (k : κ)
  /-- A step on the store, by a connection or by the sweeper, or of the clock. -/
  | store (a : Store.Act (κ × Nat))

variable [DecidableEq κ]

def setSession (x : Server κ) (k : κ) (y : Session) : Server κ :=
  { x with session := Function.update x.session k (some y) }

/-- The turn of the frame is over, and with it the sending of its reply. -/
def sent (x : Server κ) (k : κ) : Server κ :=
  { x with sending := Function.update x.sending k [] }

/-- The task of the connection ends. -/
def close (x : Server κ) (k : κ) (y : Session) (status : Status) : Server κ :=
  x.setSession k { y with status := status }

variable (constantTimeEq : Bytes → Bytes → Bool) (alloc : Allocator) (authPassword : Option Bytes)
  (archivePath : Bool)

/-- The steps of `server_from_listener`. -/
inductive ServerStep (x : Server κ) : Act κ → Server κ → Prop where
  | cancel : ServerStep x .cancel { x with cancelled := true }
  | accept {k : κ} (hs : x.stage = .accepting) (hk : x.session k = none) :
      ServerStep x (.accept k) (x.setSession k (.start authPassword))
  | shutdown (hs : x.stage = .accepting) (hc : x.cancelled = true) :
      ServerStep x .shutdown { x with stage := .draining }
  | timeout (hs : x.stage = .draining) : ServerStep x .timeout { x with stage := .aborting }
  | join (hs : x.stage = .draining ∨ x.stage = .aborting) (he : x.Ended) :
      ServerStep x .join { x with stage := .joined }
  | dump (hs : x.stage = .joined) (ha : archivePath = true) :
      ServerStep x .dump { x with stage := .dumping x.calls.clock }
  | take {now : Instant} (clocks : Key → Clocks) (hs : x.stage = .dumping now)
      (hf : x.calls.sweeper.holdsMap = false ∧ ∀ j, (x.calls.phase j).writesMap = false) :
      ServerStep x (.take clocks) { x with
        stage := .saving ⟨now, x.calls.clock, clocks, x.calls.store.toSnapshot now clocks⟩ }
  | written {d : Dump} (hs : x.stage = .saving d) :
      ServerStep x (.write true) { x with stage := .saved d }
  | unwritten {d : Dump} (hs : x.stage = .saving d) :
      ServerStep x (.write false) { x with stage := .failed }
  | skip (hs : x.stage = .joined) (ha : archivePath = false) :
      ServerStep x .skip { x with stage := .done }

/-- The reply to the frame `f`, once it is known: that of the connection itself, or that to a call
whose section has run. -/
inductive Replying (x : Server κ) (k : κ) (y : Session) (f : Frame) : Frame → Prop where
  | own {r : Frame} (hr : y.conn.request f = none) (ho : y.conn.ownReply constantTimeEq f = some r) :
      Replying x k y f r
  | call {c : Call} {now : Instant} {r : Reply}
      (hp : x.calls.phase (k, y.log.length) = .finished c now r) : Replying x k y f (r.frame c)

/-- The steps of `Connection::run`. Its place in a call on the store is the phase of the call
of the frame after those it has handled. -/
inductive TaskStep (x : Server κ) (k : κ) (y : Session) : Act κ → Server κ → Prop where
  | read {buf : Bytes} (hf : y.frames = []) :
      TaskStep x k y (.read k buf) (x.setSession k (y.read alloc buf))
  /-- At the `select!`, once the token is cancelled. -/
  | stop (hf : y.frames = []) (hc : x.cancelled = true) :
      TaskStep x k y (.stop k) (x.close k y .closed)
  | serve {f : Frame} {rest : List Frame} (hf : y.frames = f :: rest)
      (hr : y.conn.request f = none) :
      TaskStep x k y (.serve k)
        ((x.setSession k (y.turn constantTimeEq x.calls.clock f rest x.calls.store).1).sent k)
  /-- The client has taken `n` bytes of a reply, and there are more. -/
  | send {f r : Frame} {rest : List Frame} {n : Nat} (hf : y.frames = f :: rest)
      (hr : Replying constantTimeEq x k y f r) (hlt : (x.sending k).length < n)
      (hn : n < r.toBytes.length) :
      TaskStep x k y (.send k n)
        { x with sending := Function.update x.sending k (r.toBytes.take n) }
  | invoke {f : Frame} {rest : List Frame} {c : Call} {z : State (κ × Nat)}
      (hf : y.frames = f :: rest) (hr : y.conn.request f = some c)
      (h : CallStep x.calls (.invoke (k, y.log.length) c) z) :
      TaskStep x k y (.store (.invoke (k, y.log.length) c)) { x with calls := z }
  | call {a : Store.Act (κ × Nat)} {z : State (κ × Nat)}
      (ha : a = .readClock (k, y.log.length) ∨ a = .lockHeap (k, y.log.length) ∨
        a = .lockMap (k, y.log.length) ∨ a = .finish (k, y.log.length))
      (h : CallStep x.calls a z) (hp : z.phase (k, y.log.length) ≠ .failed) :
      TaskStep x k y (.store a) { x with calls := z }
  | panic {z : State (κ × Nat)} (h : CallStep x.calls (.finish (k, y.log.length)) z)
      (hp : z.phase (k, y.log.length) = .failed) :
      TaskStep x k y (.store (.finish (k, y.log.length)))
        (close { x with calls := z } k y .panicked)
  /-- `send_response` after a call. -/
  | respond {f : Frame} {rest : List Frame} {c : Call} {now : Instant} {r : Reply}
      (hf : y.frames = f :: rest) (hp : x.calls.phase (k, y.log.length) = .finished c now r) :
      TaskStep x k y (.store (.respond (k, y.log.length)))
        ((setSession { x with
          calls := (x.calls.move (k, y.log.length) (.responded c now r)).record
            (.respond (k, y.log.length) r x.calls.clock.val) } k
          (y.answer constantTimeEq (r.frame c) f rest)).sent k)
  /-- A read or a write fails. -/
  | ioError (hp : (x.calls.phase (k, y.log.length)).droppable = false) :
      TaskStep x k y (.ioError k) (x.close k y .closed)
  /-- Aborted at a read or at a write. -/
  | abort (hs : x.stage = .aborting)
      (hp : (x.calls.phase (k, y.log.length)).droppable = false) :
      TaskStep x k y (.abort k) (x.close k y .closed)
  /-- Aborted at a lock. -/
  | abortCall {z : State (κ × Nat)} (hs : x.stage = .aborting)
      (h : CallStep x.calls (.drop (k, y.log.length)) z) :
      TaskStep x k y (.store (.drop (k, y.log.length))) (close { x with calls := z } k y .closed)

inductive Step : Server κ → Act κ → Server κ → Prop where
  | tick {x : Server κ} (t : Instant) (h : x.calls.clock ≤ t) :
      Step x (.store (.tick t)) { x with calls := { x.calls with clock := t } }
  | sweep {x : Server κ} {a : Store.Act (κ × Nat)} {z : State (κ × Nat)}
      (h : SweepStep x.calls a z) : Step x (.store a) { x with calls := z }
  | server {x x' : Server κ} {a : Act κ} (h : ServerStep authPassword archivePath x a x') :
      Step x a x'
  | task {x x' : Server κ} {k : κ} {y : Session} {a : Act κ} (hy : x.Running k y)
      (h : TaskStep constantTimeEq alloc x k y a x') : Step x a x'

/-- A run of steps that all meet the condition `G` on the state before them. -/
inductive Run (G : Server κ → Act κ → Prop) : Server κ → Server κ → Prop where
  | nil (x : Server κ) : Run G x x
  | snoc {x y z : Server κ} {a : Act κ} (hr : Run G x y) (hg : G y a)
      (hs : Step constantTimeEq alloc authPassword archivePath y a z) : Run G x z

end Server
end Redlike
