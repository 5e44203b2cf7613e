import Redlike.Store.Linearizability
import Redlike.Store.Sweep
import Redlike.Connection.Replies
import Redlike.Server.Tasks

/-!
# What the clients see

The bytes that the connections of a server have written, all together, are those of a server
that makes one call at a time. The calls have their places in one order that never
contradicts real time, and every connection has written, for the frames it has handled and
in their order, the reply to the call of each frame in that order, or the reply that the
connection gives by itself. What is not yet written of the next reply, or never will be because
the task was cut off, is missing at its end.
-/
namespace Redlike

open Resp Store Lib
open Linear (Linearizes)

section Transcript

variable (constantTimeEq : Bytes → Bytes → Bool) (authPassword : Option Bytes)

/-- The replies to the frames of a log, where `answer n r` says that `r` is the answer to the call
of the frame `n`. -/
inductive Replies (answer : Nat → Reply → Prop) : List Frame → List Frame → Prop where
  | nil : Replies answer [] []
  | own {log replies : List Frame} {f : Frame} (h : Replies answer log replies)
      (hf : (Connection.afterAll constantTimeEq authPassword log).request f = none) :
      Replies answer (log ++ [f]) (replies ++
        ((Connection.afterAll constantTimeEq authPassword log).ownReply constantTimeEq f).toList)
  | call {log replies : List Frame} {f : Frame} {c : Call} {r : Reply}
      (h : Replies answer log replies)
      (hf : (Connection.afterAll constantTimeEq authPassword log).request f = some c)
      (hr : answer log.length r) : Replies answer (log ++ [f]) (replies ++ [r.frame c])

/-- A session has written these replies to the frames it has handled, and `part` of the next one. -/
structure Transcript (answer : Nat → Reply → Prop) (y : Session) (part : Bytes)
    (replies : List Frame) : Prop where
  whole : Replies constantTimeEq authPassword answer y.log replies
  written : y.written = replies.flatMap Frame.toBytes
  begun : part = [] ∨ ∃ f rest r, y.frames = f :: rest ∧
    Replies constantTimeEq authPassword answer (y.log ++ [f]) (replies ++ [r]) ∧
    part <+: r.toBytes ∧ part ≠ r.toBytes

variable {constantTimeEq authPassword} {answer answer' : Nat → Reply → Prop}

theorem Replies.mono (h : ∀ n r, answer n r → answer' n r) {log replies : List Frame}
    (hr : Replies constantTimeEq authPassword answer log replies) :
    Replies constantTimeEq authPassword answer' log replies := by
  induction hr with
  | nil => exact .nil
  | own _ hf ih => exact .own ih hf
  | call _ hf hr ih => exact .call ih hf (h _ _ hr)

theorem Transcript.mono (h : ∀ n r, answer n r → answer' n r) {y : Session} {part : Bytes}
    {replies : List Frame} (ht : Transcript constantTimeEq authPassword answer y part replies) :
    Transcript constantTimeEq authPassword answer' y part replies where
  whole := ht.whole.mono h
  written := ht.written
  begun := ht.begun.imp_right fun ⟨f, rest, r, hf, hr, hpart⟩ => ⟨f, rest, r, hf, hr.mono h, hpart⟩

end Transcript

namespace Session

theorem read_written (alloc : Allocator) (buf : Bytes) (x : Session) :
    (x.read alloc buf).written = x.written := by
  unfold read
  split
  · rfl
  · split
    · rfl
    · rw [settle_written]

/-- A frame without a call is answered by the connection itself. -/
theorem turn_written (constantTimeEq : Bytes → Bytes → Bool) {x : Session} {f : Frame}
    (h : x.conn.request f = none) (now : Instant) (rest : List Frame) (s : Store) :
    (x.turn constantTimeEq now f rest s).1.written =
      x.written ++ (x.conn.ownReply constantTimeEq f).toList.flatMap Frame.toBytes := by
  obtain ⟨hnext, -, -⟩ := Connection.handle_local constantTimeEq h now ⟨0, Store.instantLimit_pos⟩ s .new
  unfold turn Connection.ownReply
  rw [← hnext]
  dsimp only
  cases (x.conn.handle constantTimeEq f now s).next with
  | returned | panicked => simp [Next.reply]
  | outcome o =>
    cases o with
    | quit | noop => simp [Next.reply]
    | respond response => simp [Next.reply]

end Session

namespace Server

variable {κ : Type} [DecidableEq κ] {constantTimeEq : Bytes → Bytes → Bool} {alloc : Allocator}
  {authPassword : Option Bytes} {archivePath : Bool} {x x' : Server κ} {k : κ} {y : Session}

/-- The calls of a server are a run of the store. -/
theorem step_calls {a : Act κ} (hs : Step constantTimeEq alloc authPassword archivePath x a x') :
    x'.calls = x.calls ∨ ∃ b, a = .store b ∧ Store.Step x.calls b x'.calls := by
  cases hs with
  | tick t ht => exact .inr ⟨_, rfl, .tick t ht⟩
  | sweep hs => exact .inr ⟨_, rfl, .sweep hs⟩
  | server hs => cases hs <;> exact .inl rfl
  | task hy hs =>
    cases hs with
    | invoke hf hr h => exact .inr ⟨_, rfl, .call h⟩
    | call ha h hp => exact .inr ⟨_, rfl, .call h⟩
    | panic h hp => exact .inr ⟨_, rfl, .call h⟩
    | respond hf hp => exact .inr ⟨_, rfl, .call (.respond hp)⟩
    | abortCall hs h => exact .inr ⟨_, rfl, .call h⟩
    | _ => exact .inl rfl

theorem history_subset {ι : Type} [DecidableEq ι] {z z' : State ι} {b : Store.Act ι}
    (hs : Store.Step z b z') : z.history ⊆ z'.history := by
  cases hs with
  | tick t ht => exact fun e he => he
  | sweep h =>
    rw [h.phase_eq.2.2]
    exact fun e he => he
  | call h =>
    cases h with
    | invoke | respond => exact fun e he => List.mem_append_left _ he
    | _ => exact fun e he => he

/-- Neither an overtaken DEL nor an EXPIRE that overflows. -/
def InOrder (x : Server κ) (a : Act κ) : Prop := ∀ b, a = .store b → Store.InOrder x.calls b

theorem run_calls {G : Server κ → Act κ → Prop} {H : State (κ × Nat) → Store.Act (κ × Nat) → Prop}
    (hG : ∀ x b, G x (.store b) → H x.calls b) {x₀ : Server κ}
    (hr : Run constantTimeEq alloc authPassword archivePath G x₀ x) : Store.Run H x₀.calls x.calls := by
  induction hr with
  | nil => exact .nil _
  | @snoc y z a _ hg hs ih =>
    rcases step_calls hs with heq | ⟨b, rfl, hb⟩
    · rw [heq]
      exact ih
    · exact ih.snoc (hG y b hg) hb

/-! ## Transcripts -/

/-- The call of the frame `n` of the connection has been answered by `r`. -/
def Answered (h : List (Linear.Event (κ × Nat) Call Reply Nat)) (k : κ) (n : Nat) (r : Reply) :
    Prop :=
  ∃ t, .respond (k, n) r t ∈ h

/-- The call has been answered, or its answer is on its way. -/
def Answers (x : Server κ) (k : κ) (n : Nat) (r : Reply) : Prop :=
  Answered x.calls.history k n r ∨ ∃ c now, x.calls.phase (k, n) = .finished c now r

/-- Every connection has written what the history says. -/
def Seen (constantTimeEq : Bytes → Bytes → Bool) (authPassword : Option Bytes) (x : Server κ) :
    Prop :=
  ∀ k y, x.session k = some y → ∃ replies,
    Replies constantTimeEq authPassword (Answered x.calls.history k) y.log replies ∧
      y.written = replies.flatMap Frame.toBytes

omit [DecidableEq κ] in
theorem Answered.mono {h h' : List (Linear.Event (κ × Nat) Call Reply Nat)} (hh : h ⊆ h') {n : Nat}
    {r : Reply} (ha : Answered h k n r) : Answered h' k n r := by
  obtain ⟨t, ht⟩ := ha
  exact ⟨t, hh ht⟩

/-- One connection has moved on to `y'`. -/
theorem Seen.update (hx : Seen constantTimeEq authPassword x)
    (hh : x.calls.history ⊆ x'.calls.history) {y' : Session}
    (hsession : ∀ j, j ≠ k → x'.session j = x.session j) (hhere : x'.session k = some y')
    (replies : List Frame)
    (hk : Replies constantTimeEq authPassword (Answered x'.calls.history k) y'.log replies)
    (hw : y'.written = replies.flatMap Frame.toBytes) : Seen constantTimeEq authPassword x' := by
  intro j z hz
  by_cases hjk : j = k
  · subst hjk
    obtain rfl : y' = z := Option.some.inj (hhere.symm.trans hz)
    exact ⟨replies, hk, hw⟩
  · rw [hsession j hjk] at hz
    obtain ⟨others, hothers, hw⟩ := hx j z hz
    exact ⟨others, hothers.mono fun n r => Answered.mono hh, hw⟩

theorem Seen.taskStep (hx : Seen constantTimeEq authPassword x)
    (ht : Tidy constantTimeEq authPassword archivePath x) (hy : x.Running k y) {a : Act κ}
    (hs : TaskStep constantTimeEq alloc x k y a x') : Seen constantTimeEq authPassword x' := by
  obtain ⟨replies, hseen, hwritten⟩ := hx k y hy.1
  have hplace := ht.place k y hy.1
  have hlog : Connection.afterAll constantTimeEq authPassword y.log = y.conn := hplace.conn.symm
  -- a session that has written and handled what it had
  have same {y' : Session} (hl : y'.log = y.log) (hw : y'.written = y.written) :
      Seen constantTimeEq authPassword (x.setSession k y') := by
    refine hx.update (k := k) (fun e he => he) (fun j hj => Function.update_of_ne hj ..)
      (Function.update_self ..) replies ?_ (hw.trans hwritten)
    rw [hl]
    exact hseen
  have moved {b : Store.Act (κ × Nat)} {z : State (κ × Nat)} (h : CallStep x.calls b z)
      (status : Status) : Seen constantTimeEq authPassword (close { x with calls := z } k y status) :=
    hx.update (k := k) (history_subset (.call h)) (fun j hj => Function.update_of_ne hj ..)
      (Function.update_self ..) _ (hseen.mono fun n r => Answered.mono (history_subset (.call h)))
      hwritten
  have stays {b : Store.Act (κ × Nat)} {z : State (κ × Nat)} (h : CallStep x.calls b z) :
      Seen constantTimeEq authPassword { x with calls := z } :=
    hx.update (k := k) (history_subset (.call h)) (fun _ _ => rfl) hy.1 _
      (hseen.mono fun n r => Answered.mono (history_subset (.call h))) hwritten
  cases hs with
  | @read buf hf => exact same (y.read_same alloc buf).1 (y.read_written alloc buf)
  | stop | ioError | abort => exact same rfl rfl
  | send => exact hx
  | invoke hf hr h => exact stays h
  | call ha h hp => exact stays h
  | panic h hp => exact moved h .panicked
  | abortCall hs h => exact moved h .closed
  | @serve f rest hf hr =>
    refine hx.update (k := k) (fun e he => he) (fun j hj => Function.update_of_ne hj ..)
      (Function.update_self ..)
      (replies ++ (y.conn.ownReply constantTimeEq f).toList) ?_ ?_
    · rw [(y.turn_same constantTimeEq _ f rest _).1, ← hlog]
      exact .own hseen (by rw [hlog]; exact hr)
    · rw [y.turn_written constantTimeEq hr, hwritten, List.flatMap_append]
  | @respond f rest c now r hf hp =>
    have hreq : y.conn.request f = some c := by
      obtain ⟨g, rest', hg, hreq⟩ := hplace.called c (by rw [hp]; rfl)
      obtain ⟨rfl, -⟩ := List.cons.inj (hf.symm.trans hg)
      exact hreq
    refine hx.update (k := k) (fun e he => List.mem_append_left _ he)
      (fun j hj => Function.update_of_ne hj ..) (Function.update_self ..)
      (replies ++ [r.frame c]) ?_ ?_
    · rw [show (y.answer constantTimeEq (r.frame c) f rest).log = y.log ++ [f] by
        simp [Session.answer]]
      refine .call (hseen.mono fun n r => Answered.mono fun e he => List.mem_append_left _ he)
        (by rw [hlog]; exact hreq) ⟨x.calls.clock.val, ?_⟩
      exact List.mem_append_right _ (List.mem_singleton.mpr rfl)
    · simp [Session.answer, hwritten]

theorem Seen.step (hx : Seen constantTimeEq authPassword x)
    (ht : Tidy constantTimeEq authPassword archivePath x) {a : Act κ}
    (hs : Step constantTimeEq alloc authPassword archivePath x a x') :
    Seen constantTimeEq authPassword x' := by
  cases hs with
  | tick t _ => exact hx
  | sweep hs =>
    intro k y hy
    obtain ⟨replies, hseen, hwritten⟩ := hx k y hy
    exact ⟨replies, hseen.mono fun n r => Answered.mono (history_subset (.sweep hs)), hwritten⟩
  | task hy hs => exact hx.taskStep ht hy hs
  | server hs =>
    cases hs with
    | @accept k hs hk =>
      exact hx.update (k := k) (fun e he => he) (fun j hj => Function.update_of_ne hj ..)
        (Function.update_self ..) [] .nil rfl
    | _ => exact hx

theorem seen_run {G : Server κ → Act κ → Prop} {t : Instant} {s₀ : Store} (hs₀ : Started s₀)
    (hr : Run constantTimeEq alloc authPassword archivePath G (.start t s₀) x) :
    Seen constantTimeEq authPassword x := by
  induction hr with
  | nil => exact fun k y hy => by cases hy
  | snoc hr hg hs ih => exact ih.step (tidy_run hs₀ hr) hs

/-- In every reachable state the bytes that a client has got are a transcript. -/
theorem transcript_run {G : Server κ → Act κ → Prop} {t : Instant} {s₀ : Store} (hs₀ : Started s₀)
    (hr : Run constantTimeEq alloc authPassword archivePath G (.start t s₀) x)
    (hy : x.session k = some y) : ∃ replies,
      Transcript constantTimeEq authPassword (x.Answers k) y (x.sending k) replies := by
  obtain ⟨replies, hseen, hwritten⟩ := seen_run hs₀ hr k y hy
  have hx := tidy_run hs₀ hr
  have hplace := hx.place k y hy
  have hwhole : Replies constantTimeEq authPassword (x.Answers k) y.log replies :=
    hseen.mono fun n r => .inl
  refine ⟨replies, hwhole, hwritten, ?_⟩
  rcases hx.sends k y hy with hnil | ⟨f, rest, r, hf, hrep, hpart⟩
  · exact .inl hnil
  · refine .inr ⟨f, rest, r, hf, ?_, hpart⟩
    cases hrep with
    | own hnone ho =>
      rw [hplace.conn] at hnone ho
      have hnext := hwhole.own hnone
      rwa [ho] at hnext
    | @call c now r hp =>
      obtain ⟨g, rest', hg, hreq⟩ := hplace.called c (by rw [hp]; rfl)
      obtain ⟨rfl, -⟩ := List.cons.inj (hf.symm.trans hg)
      exact hwhole.call (by rw [← hplace.conn]; exact hreq) (.inr ⟨c, now, hp⟩)

/-- In every state that a server can reach without an overtaken DEL and without an EXPIRE that
overflows: the calls of all connections have places in one order, at times and in an order
that the history allows, and what each connection has written for the frames it has handled
are the replies in that order, and its own. There may be a part of the next reply after these: it
goes out in pieces, and the connection can break off. -/
theorem clients_see_one_order (constantTimeEq : Bytes → Bytes → Bool) (alloc : Allocator)
    (authPassword : Option Bytes) (archivePath : Bool) (t : Instant) (s₀ : Store)
    (hs₀ : Started s₀) (x : Server κ)
    (hrun : Run constantTimeEq alloc authPassword archivePath InOrder (.start t s₀) x) :
    ∃ L : List (Linear.Point (κ × Nat) Call Nat),
      Linearizes Ideal.step (contents s₀) x.calls.history L ∧
      ∀ k y, x.session k = some y → ∃ replies,
        Transcript constantTimeEq authPassword
          (fun n r => ((k, n), r) ∈ Linear.replies Ideal.step L (contents s₀)) y (x.sending k)
          replies := by
  obtain ⟨L, hL⟩ := Store.inv_run (run_calls (fun _ b h => h b rfl) hrun)
  refine ⟨L, hL.core.lin, fun k y hy => ?_⟩
  obtain ⟨replies, ht⟩ := transcript_run hs₀ hrun hy
  refine ⟨replies, ht.mono fun n r hn => ?_⟩
  rcases hn with ⟨t', ht'⟩ | ⟨c, now, hp⟩
  · exact hL.core.lin.replied _ r t' ht'
  · have hcall := hL.calls (k, n)
    rw [hp] at hcall
    exact hcall.2

/-- A SET is answered, and the connection breaks off in the answer to a PING. -/
theorem clients_see_one_order_set :
    ∃ (x : Server Unit) (y : Session) (L : List (Linear.Point (Unit × Nat) Call Nat))
      (replies : List Frame),
      Run (fun a b => a == b) .exact none false InOrder (.start ⟨0, by decide⟩ .new) x ∧
        x.session () = some y ∧ y.status = .closed ∧ y.written = [43, 79, 75, 13, 10] ∧
        x.sending () = [43, 80] ∧
        Transcript (fun a b => a == b) none
          (fun n r => (((), n), r) ∈ Linear.replies Ideal.step L (contents .new)) y [43, 80]
          replies := by
  have skip {x : Server Unit} {a : Act Unit} (h : ∀ i, a ≠ .store (.finish i)) : InOrder x a := by
    intro b hb i c now ha
    subst hb ha
    exact absurd rfl (h i)
  let f : Frame := .array (some [.bulk (some [83, 69, 84]), .bulk (some [97]), .bulk (some [98])])
  let g : Frame := .array (some [.bulk (some [80, 73, 78, 71])])
  let y : Session := { Session.start none with frames := [f, g] }
  have hread : (Session.start none).read .exact
      [83, 69, 84, 32, 97, 32, 98, 10, 80, 73, 78, 71, 10] = y := by
    decide +kernel
  have hreq : y.conn.request f = some (.set [97] [98]) := by decide
  have h : Run (fun a b => a == b) .exact none false InOrder (.start ⟨0, by decide⟩ .new)
    (.start ⟨0, by decide⟩ .new : Server Unit) := .nil _
  have h := h.snoc (skip (by simp)) (.server (.accept (k := ()) rfl rfl))
  have h := h.snoc (a := .read () [83, 69, 84, 32, 97, 32, 98, 10, 80, 73, 78, 71, 10])
    (skip (by simp)) (.task (k := ()) (y := .start none) ⟨rfl, rfl⟩ (.read rfl))
  rw [hread] at h
  have h := h.snoc (skip (by simp))
    (.task (k := ()) (y := y) ⟨rfl, rfl⟩ (.invoke rfl hreq (.invoke _ rfl)))
  have h := h.snoc (skip (by simp)) (.task (k := ()) (y := y) ⟨rfl, rfl⟩
    (.call (.inr (.inr (.inl rfl))) (.lock (c := .set [97] [98]) rfl (.inr ⟨_, _, rfl⟩) ⟨rfl, by
      intro j
      obtain ⟨⟨⟩, n⟩ := j
      cases n <;> rfl⟩) nofun))
  have h := h.snoc (by intro b hb; cases hb; exact inOrder_locked rfl)
    (.task (k := ()) (y := y) ⟨rfl, rfl⟩ (.call (.inr (.inr (.inr rfl))) (.set rfl) nofun))
  have h := h.snoc (skip (by simp)) (.task (k := ()) (y := y) ⟨rfl, rfl⟩ (.respond rfl rfl))
  let y' : Session := { y with frames := [g], log := [f], written := [43, 79, 75, 13, 10] }
  have hanswer : y.answer (fun a b => a == b) (Reply.stored.frame (.set [97] [98])) f [g] = y' := by
    decide
  rw [show Session.answer (fun a b => a == b) _ f [g] y = y' from hanswer] at h
  have h := h.snoc (a := .send () 2) (skip (by simp)) (.task (k := ()) (y := y') ⟨rfl, rfl⟩
    (.send (r := .simpleString "PONG") rfl (.own (by decide) (by decide)) (by decide) (by decide)))
  have h := h.snoc (a := .ioError ()) (skip (by simp))
    (.task (k := ()) (y := y') ⟨rfl, rfl⟩ (.ioError rfl))
  obtain ⟨L, -, hL⟩ := clients_see_one_order _ _ _ _ _ _ (.inl rfl) _ h
  obtain ⟨replies, ht⟩ := hL () _ rfl
  exact ⟨_, _, L, replies, h, rfl, rfl, rfl, by decide, ht⟩

end Server
end Redlike
