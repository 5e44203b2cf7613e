import Redlike.Connection.Model

/-!
# The calls of a connection

On a server the handling of a frame is not one step: the call on the store waits for
locks among the calls of other connections, and the reply is sent afterwards. Which
call a frame makes depends on the connection alone, not on the store; `turn_call` and
`turn_local` say that the pieces put together are one turn of the loop.
-/
namespace Redlike

open Resp Store

/-- The call a data command makes on the store. -/
def Command.call : Command → Option Call
  | .get key => some (.get key)
  | .set key value => some (.set key value)
  | .del key => some (.del key)
  | .expire key value => some (.expire key value)
  | .ttl key => some (.ttl key)
  | .ping | .quit | .noop | .auth _ => none

/-- How a call is answered. -/
def Store.Reply.frame (c : Call) : Reply → Frame
  | .value v =>
    match c with
    | .del _ => .integer ((v.map fun _ => 1).getD 0)
    | _ => .bulk v
  | .stored => .simpleString "OK"
  | .flag n => .integer (UInt64.ofNat n).toInt64
  | .seconds n => .integer (Int64.ofInt n)

namespace Connection

/-- The call on the store that the frame leads to, if it leads to one. -/
def request (f : Frame) (x : Connection) : Option Call :=
  match Command.tryFrom f with
  | .ok cmd => if x.canExecute cmd then cmd.call else none
  | .error _ => none

theorem canExecute_data {cmd : Command} {c : Call} (h : cmd.call = some c) (x : Connection) :
    x.canExecute cmd = x.isAuthorized := by
  cases cmd <;> first | rfl | cases h

/-- A data command makes its call if the connection is authorized. -/
theorem request_data {f : Frame} {cmd : Command} {c : Call} (hf : Command.tryFrom f = .ok cmd)
    (hc : cmd.call = some c) (x : Connection) :
    x.request f = if x.isAuthorized then some c else none := by
  unfold request
  rw [hf]
  dsimp only
  rw [canExecute_data hc, hc]

theorem request_unauthorized {x : Connection} (h : x.isAuthorized = false) (f : Frame) :
    x.request f = none := by
  cases hf : Command.tryFrom f with
  | error e => rw [request, hf]
  | ok cmd =>
    cases hc : cmd.call with
    | some c => rw [request_data hf hc, h]; rfl
    | none => simp [request, hf, hc]

variable (constantTimeEq : Bytes → Bytes → Bool)

/-- The connection once the frame is handled. -/
def after (x : Connection) (f : Frame) : Connection :=
  match Command.tryFrom f with
  | .ok (.auth key) => (x.authenticateConnection constantTimeEq key).2
  | _ => x

/-- The calls of a sequence of frames. -/
def requests : List Frame → Connection → List Call
  | [], _ => []
  | f :: fs, x => (x.request f).toList ++ requests fs (x.after constantTimeEq f)

theorem requests_append (fs : List Frame) (f : Frame) (x : Connection) :
    requests constantTimeEq (fs ++ [f]) x = requests constantTimeEq fs x ++
      ((fs.foldl (after constantTimeEq) x).request f).toList := by
  induction fs generalizing x with
  | nil => simp [requests]
  | cons g fs ih => simp only [List.cons_append, requests, ih, List.append_assoc, List.foldl_cons]

theorem processCommand_conn {cmd : Command} (h : ∀ key, cmd ≠ .auth key) (now : Instant)
    (x : Connection) (s : Store) : (x.processCommand constantTimeEq cmd now s).conn = x := by
  unfold processCommand
  split
  · rfl
  · cases cmd with
    | auth key => exact absurd rfl (h key)
    | expire key value =>
      dsimp only
      cases (s.expire now key value).1 <;> rfl
    | _ => rfl

theorem handle_after (f : Frame) (now : Instant) (x : Connection) (s : Store) :
    (x.handle constantTimeEq f now s).conn = x.after constantTimeEq f := by
  unfold handle after
  cases Command.tryFrom f with
  | error e => cases e <;> rfl
  | ok cmd =>
    cases cmd with
    | auth key => rfl
    | _ => exact processCommand_conn constantTimeEq (by simp) now x s

/-- A frame without a call is handled without the store. -/
theorem handle_local {f : Frame} {x : Connection} (h : x.request f = none) (now now' : Instant)
    (s s' : Store) :
    let r := x.handle constantTimeEq f now s
    r.next = (x.handle constantTimeEq f now' s').next ∧ r.store = s ∧ r.calls = [] := by
  intro r
  unfold r handle
  unfold request at h
  cases hf : Command.tryFrom f with
  | error e => cases e <;> exact ⟨rfl, rfl, rfl⟩
  | ok cmd =>
    rw [hf] at h
    dsimp only at h ⊢
    unfold processCommand
    by_cases hc : x.canExecute cmd = true
    · rw [if_pos hc] at h
      cases cmd <;> first | (simp [canExecute]; done) | cases h
    · simp [hc]

/-- The reply to a frame that makes no call, if it has one. The store is not used. -/
def ownReply (f : Frame) (x : Connection) : Option Frame :=
  (x.handle constantTimeEq f ⟨0, instantLimit_pos⟩ .new).next.reply

/-- A connection after these frames. -/
def afterAll (authPassword : Option Bytes) (log : List Frame) : Connection :=
  log.foldl (after constantTimeEq) (.new authPassword)

theorem afterAll_append (authPassword : Option Bytes) (log : List Frame) (f : Frame) :
    afterAll constantTimeEq authPassword (log ++ [f]) =
      (afterAll constantTimeEq authPassword log).after constantTimeEq f := by
  rw [afterAll, List.foldl_append]
  rfl

/-- A frame with a call is answered with the reply to the call. -/
theorem handle_call {f : Frame} {x : Connection} {c : Call} (h : x.request f = some c)
    (now : Instant) (s : Store) :
    let r := x.handle constantTimeEq f now s
    r.store = (c.run now s).2 ∧ r.calls = [c] ∧
      r.next = match (c.run now s).1 with
        | some reply => .outcome (.respond (reply.frame c))
        | none => .panicked := by
  intro r
  unfold r handle
  unfold request at h
  cases hf : Command.tryFrom f with
  | error e => rw [hf] at h; cases h
  | ok cmd =>
    rw [hf] at h
    dsimp only at h ⊢
    split at h
    · rename_i hc
      unfold processCommand
      rw [if_neg (by simp [hc])]
      cases cmd with
      | noop | quit | ping | auth _ => cases h
      | get _ | set _ _ | del _ =>
        cases h
        simp [Call.run, Reply.frame]
      | ttl key =>
        cases h
        simp [Call.run, Reply.frame, Int64.ofInt_toInt]
      | expire key value =>
        cases h
        simp only [Call.run]
        cases (s.expire now key value).1 <;> simp [Reply.frame]
    · cases h

end Connection

namespace Session

variable (constantTimeEq : Bytes → Bytes → Bool)

/-- The end of a turn: the reply has been sent. -/
def answer (response : Frame) (f : Frame) (rest : List Frame) (x : Session) : Session :=
  settle { x with
    conn := x.conn.after constantTimeEq f, frames := rest, log := x.log ++ [f],
    written := x.written ++ response.toBytes }

/-- A turn with a call is the call, and then its answer, if it has one. -/
theorem turn_call {x : Session} {f : Frame} {c : Call} (h : x.conn.request f = some c)
    (now : Instant) (rest : List Frame) (s : Store) :
    x.turn constantTimeEq now f rest s =
      (match (c.run now s).1 with
        | some r => x.answer constantTimeEq (r.frame c) f rest
        | none => { x with
          conn := x.conn.after constantTimeEq f, frames := rest, log := x.log ++ [f],
          status := .panicked },
        (c.run now s).2, [c]) := by
  obtain ⟨hstore, hcalls, hnext⟩ := Connection.handle_call constantTimeEq h now s
  simp only [turn, hstore, hcalls, hnext, Connection.handle_after, answer]
  cases (c.run now s).1 <;> rfl

@[simp] theorem settle_log (x : Session) : (settle x).log = x.log := by
  unfold settle
  split <;> rfl

@[simp] theorem settle_frames (x : Session) : (settle x).frames = x.frames := by
  unfold settle
  split <;> rfl

@[simp] theorem settle_conn (x : Session) : (settle x).conn = x.conn := by
  unfold settle
  split <;> rfl

@[simp] theorem settle_written (x : Session) : (settle x).written = x.written := by
  unfold settle
  split <;> rfl

theorem read_same (alloc : Allocator) (buf : Bytes) (x : Session) :
    (x.read alloc buf).log = x.log ∧ (x.read alloc buf).conn = x.conn := by
  unfold read
  split
  · exact ⟨rfl, rfl⟩
  · split
    · exact ⟨rfl, rfl⟩
    · simp

theorem turn_same (now : Instant) (f : Frame) (rest : List Frame) (x : Session) (s : Store) :
    let y := (x.turn constantTimeEq now f rest s).1
    y.log = x.log ++ [f] ∧ y.conn = x.conn.after constantTimeEq f := by
  intro y
  simp only [y, turn]
  split <;> simp [Connection.handle_after]

end Session
end Redlike
