import Redlike.Resp.Parser
import Redlike.Store.Ideal
import Redlike.Connection.Command

/-!
# A client connection

`Connection::process_command` and `Connection::run`. The loop of `run` is cut into
its two kinds of step: a read, whose bytes go through the parser, and the handling
of one of the frames it gave. Every handled frame has a clock reading of its own.
The comparison of passwords is a parameter, and so is the allocator of the parser;
a panic ends the task of the connection. The list of calls a command makes on the
store is recorded beside its effect.
-/
namespace Redlike

open Resp Store

/-- `auth_password` is shared by all connections, `authenticated` belongs to one. -/
structure Connection where
  authPassword : Option Bytes
  authenticated : Bool
  deriving DecidableEq

inductive ProcessOutcome where
  | quit
  | noop
  | respond (response : Frame)
  deriving DecidableEq

/-- What handling a frame leads to: `returned` is a `return` from `run`. -/
inductive Next where
  | outcome (o : ProcessOutcome)
  | returned
  | panicked
  deriving DecidableEq

def Next.reply : Next → Option Frame
  | .outcome (.respond response) => some response
  | _ => none

structure Handled where
  next : Next
  conn : Connection
  store : Store
  calls : List Call

namespace Connection

def new (authPassword : Option Bytes) : Connection := ⟨authPassword, false⟩

def noAuth : Frame := .simpleError "NOAUTH Authentication required"

variable (constantTimeEq : Bytes → Bytes → Bool)

def isAuthorized (x : Connection) : Bool := x.authPassword.isNone || x.authenticated

def authenticateConnection (password : Bytes) (x : Connection) : ProcessOutcome × Connection :=
  match x.authPassword with
  | none => (.respond (.simpleError "AUTH called without any password configured"), x)
  | some secret =>
    if constantTimeEq secret password then
      (.respond (.simpleString "OK"), { x with authenticated := true })
    else (.respond (.simpleError "AUTH invalid password"), x)

def canExecute (command : Command) (x : Connection) : Bool :=
  (match command with
    | .auth _ | .ping | .quit | .noop => true
    | _ => false) || x.isAuthorized

def processCommand (command : Command) (now : Instant) (x : Connection) (s : Store) : Handled :=
  if x.canExecute command = false then ⟨.outcome (.respond noAuth), x, s, []⟩
  else
    match command with
    | .noop => ⟨.outcome .noop, x, s, []⟩
    | .quit => ⟨.outcome .quit, x, s, []⟩
    | .ping => ⟨.outcome (.respond (.simpleString "PONG")), x, s, []⟩
    | .set key value =>
      ⟨.outcome (.respond (.simpleString "OK")), x, (s.set key value).2, [.set key value]⟩
    | .get key => ⟨.outcome (.respond (.bulk (s.get now key))), x, s, [.get key]⟩
    | .del key =>
      let deleted := ((s.del now key).1.map fun _ => 1).getD 0
      ⟨.outcome (.respond (.integer deleted)), x, (s.del now key).2, [.del key]⟩
    | .expire key value =>
      match (s.expire now key value).1 with
      | none => ⟨.panicked, x, (s.expire now key value).2, [.expire key value]⟩
      | some n =>
        ⟨.outcome (.respond (.integer (UInt64.ofNat n).toInt64)), x, (s.expire now key value).2,
          [.expire key value]⟩
    | .ttl key => ⟨.outcome (.respond (.integer (s.ttl now key))), x, s, [.ttl key]⟩
    | .auth key =>
      let r := x.authenticateConnection constantTimeEq key
      ⟨.outcome r.1, r.2, s, []⟩

/-- The body of the `for` loop, up to the outcome. -/
def handle (f : Frame) (now : Instant) (x : Connection) (s : Store) : Handled :=
  match Command.tryFrom f with
  | .ok cmd => x.processCommand constantTimeEq cmd now s
  | .error .unknownCommand => ⟨.outcome (.respond (.simpleError "Unknown Command")), x, s, []⟩
  | .error (.wrongArity ..) =>
    ⟨.outcome (.respond (.simpleError "Wrong number of arguments")), x, s, []⟩
  | .error .wrongArgumentType =>
    ⟨.outcome (.respond (.simpleError "Wrong Argument Type")), x, s, []⟩
  | .error .io => ⟨.returned, x, s, []⟩
  | .error .invalidCommandFrame => ⟨.returned, x, s, []⟩

end Connection

inductive Status where
  | running
  | closed
  | panicked
  deriving DecidableEq

/-- The task of a connection: its locals, what it has written, and the frames it has
handled so far. -/
structure Session where
  conn : Connection
  parser : Parser
  /-- Frames of the last read that are still to be handled. -/
  frames : List Frame
  /-- `halting_error.is_some()`. -/
  halting : Bool
  status : Status
  written : Bytes
  log : List Frame
  deriving DecidableEq

namespace Session

variable (constantTimeEq : Bytes → Bytes → Bool)

def start (authPassword : Option Bytes) : Session :=
  ⟨.new authPassword, .new, [], false, .running, [], []⟩

/-- After the `for` loop, a parse error ends the connection. -/
def settle (x : Session) : Session :=
  if x.frames.isEmpty && x.halting then { x with status := .closed } else x

/-- A read that gave these bytes; an empty one is the end of the stream. -/
def read (alloc : Allocator) (buf : Bytes) (x : Session) : Session :=
  if buf.isEmpty then { x with status := .closed }
  else
    match x.parser.parse alloc buf with
    | none => { x with status := .panicked }
    | some (result, parser) =>
      settle { x with
        parser := parser, frames := result.frames, halting := result.error.isSome }

/-- One turn of the `for` loop, with the calls it makes. -/
def turn (now : Instant) (f : Frame) (rest : List Frame) (x : Session) (s : Store) :
    Session × Store × List Call :=
  let h := x.conn.handle constantTimeEq f now s
  let x := { x with conn := h.conn, frames := rest, log := x.log ++ [f] }
  (match h.next with
    | .outcome .noop => settle x
    | .outcome .quit => { x with status := .closed }
    | .outcome (.respond response) => settle { x with written := x.written ++ response.toBytes }
    | .returned => { x with status := .closed }
    | .panicked => { x with status := .panicked },
    h.store, h.calls)

/-- What may happen to the task: bytes arrive when it waits for them, or it goes on with
the next frame. -/
inductive Input where
  | read (buf : Bytes)
  | next
  deriving DecidableEq

/-- Inputs that do not fit where the task stands change nothing. -/
def step (alloc : Allocator) (now : Instant) (i : Input) (x : Session) (s : Store) :
    Session × Store × List Call :=
  match x.status, x.frames, i with
  | .running, [], .read buf => (x.read alloc buf, s, [])
  | .running, f :: rest, .next => x.turn constantTimeEq now f rest s
  | _, _, _ => (x, s, [])

variable (alloc : Allocator)

/-- One connection alone on its store; the clock is read once for each frame. -/
def run (clock : Nat → Instant) : List Input → Session → Store → Session × Store × List Call
  | [], x, s => (x, s, [])
  | i :: is, x, s =>
    let r := x.step constantTimeEq alloc (clock x.log.length) i s
    let q := run clock is r.1 r.2.1
    (q.1, q.2.1, r.2.2 ++ q.2.2)

/-- The loop of `run`, for the reads it gets: each read is parsed, and the frames it gave are
handled before the next one. -/
def runReads (clock : Nat → Instant) : List Bytes → Session → Store → Session × Store
  | [], x, s => (x, s)
  | buf :: reads, x, s =>
    let x := (x.step constantTimeEq alloc (clock x.log.length) (.read buf) s).1
    let r := x.run constantTimeEq alloc clock (List.replicate x.frames.length .next) s
    runReads clock reads r.1 r.2.1

end Session
end Redlike
