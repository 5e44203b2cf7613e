import Redlike.Server.Authority

/-!
# What can be learnt of the password

The password is one for the whole server, and each AUTH is compared with it. That is all it is
used for: take another password that gives the same verdict on every AUTH that has been answered, or
is being answered, and the server could have gone through the very same run with it, with every
byte to every client and every call on the store the same, under any interleaving of the tasks and
at any speed.
-/
namespace Redlike

open Resp Store

variable {constantTimeEq : Bytes → Bytes → Bool} {p p' : Bytes}

/-- If the frame is an AUTH, then it is judged alike under the two passwords. -/
def SameVerdict (constantTimeEq : Bytes → Bytes → Bool) (p p' : Bytes) (f : Frame) : Prop :=
  ∀ guess, Command.tryFrom f = .ok (.auth guess) → constantTimeEq p guess = constantTimeEq p' guess

namespace Connection

variable {x : Connection}

/-- Another password is configured. -/
def withPassword (p : Bytes) (x : Connection) : Connection := { x with authPassword := some p }

theorem canExecute_withPassword (hx : x.authPassword = some p) (cmd : Command) :
    (x.withPassword p').canExecute cmd = x.canExecute cmd := by
  simp [canExecute, isAuthorized, withPassword, hx]

theorem request_withPassword (hx : x.authPassword = some p) (f : Frame) :
    (x.withPassword p').request f = x.request f := by
  simp only [request, canExecute_withPassword hx]

theorem authenticateConnection_withPassword (hx : x.authPassword = some p) {guess : Bytes}
    (h : constantTimeEq p guess = constantTimeEq p' guess) :
    (x.withPassword p').authenticateConnection constantTimeEq guess =
      ((x.authenticateConnection constantTimeEq guess).1,
        (x.authenticateConnection constantTimeEq guess).2.withPassword p') := by
  simp only [authenticateConnection, hx, withPassword, ← h]
  cases constantTimeEq p guess <;> rfl

theorem processCommand_withPassword (hx : x.authPassword = some p) {cmd : Command}
    (h : ∀ guess, cmd = .auth guess → constantTimeEq p guess = constantTimeEq p' guess)
    (now : Instant) (s : Store) :
    let r := x.processCommand constantTimeEq cmd now s
    (x.withPassword p').processCommand constantTimeEq cmd now s =
      { r with conn := r.conn.withPassword p' } := by
  intro r
  unfold r processCommand
  rw [canExecute_withPassword hx]
  split
  · rfl
  · cases cmd with
    | auth guess => simp only [authenticateConnection_withPassword hx (h guess rfl)]
    | expire key value =>
      dsimp only
      cases (s.expire now key value).1 <;> rfl
    | _ => rfl

theorem handle_withPassword (hx : x.authPassword = some p) {f : Frame}
    (h : SameVerdict constantTimeEq p p' f) (now : Instant) (s : Store) :
    let r := x.handle constantTimeEq f now s
    (x.withPassword p').handle constantTimeEq f now s =
      { r with conn := r.conn.withPassword p' } := by
  intro r
  unfold r handle
  cases hf : Command.tryFrom f with
  | error e => cases e <;> rfl
  | ok cmd => exact processCommand_withPassword hx (fun guess hc => h guess (hc ▸ hf)) now s

theorem after_withPassword (hx : x.authPassword = some p) {f : Frame}
    (h : SameVerdict constantTimeEq p p' f) :
    (x.withPassword p').after constantTimeEq f = (x.after constantTimeEq f).withPassword p' := by
  have hsame := handle_withPassword hx h ⟨0, by decide⟩ .new
  rw [← handle_after, ← handle_after, hsame]

theorem ownReply_withPassword (hx : x.authPassword = some p) {f : Frame}
    (h : SameVerdict constantTimeEq p p' f) :
    (x.withPassword p').ownReply constantTimeEq f = x.ownReply constantTimeEq f := by
  unfold ownReply
  rw [handle_withPassword hx h]

theorem after_authPassword (f : Frame) (x : Connection) :
    (x.after constantTimeEq f).authPassword = x.authPassword := by
  unfold after
  split
  · unfold authenticateConnection
    cases hp : x.authPassword with
    | none => exact hp
    | some secret =>
      dsimp only
      split
      · rfl
      · exact hp
  · rfl

end Connection

namespace Session

variable {y : Session}

def withPassword (p : Bytes) (y : Session) : Session := { y with conn := y.conn.withPassword p }

theorem start_withPassword (p p' : Bytes) :
    (Session.start (some p)).withPassword p' = .start (some p') := rfl

theorem settle_withPassword (y : Session) : (settle y).withPassword p = settle (y.withPassword p) := by
  unfold settle
  rw [apply_ite (withPassword p)]
  rfl

theorem read_withPassword (alloc : Allocator) (buf : Bytes) (y : Session) :
    (y.read alloc buf).withPassword p = (y.withPassword p).read alloc buf := by
  have hparser : (y.withPassword p).parser = y.parser := rfl
  unfold read
  rw [hparser]
  split
  · rfl
  · cases y.parser.parse alloc buf with
    | none => rfl
    | some r => exact settle_withPassword _

theorem answer_withPassword (hy : y.conn.authPassword = some p) {f : Frame}
    (h : SameVerdict constantTimeEq p p' f) (response : Frame) (rest : List Frame) :
    (y.answer constantTimeEq response f rest).withPassword p' =
      (y.withPassword p').answer constantTimeEq response f rest := by
  unfold answer
  rw [settle_withPassword]
  simp only [withPassword, Connection.after_withPassword hy h]

theorem turn_withPassword (hy : y.conn.authPassword = some p) {f : Frame}
    (h : SameVerdict constantTimeEq p p' f) (now : Instant) (rest : List Frame) (s : Store) :
    (y.turn constantTimeEq now f rest s).1.withPassword p' =
      ((y.withPassword p').turn constantTimeEq now f rest s).1 := by
  have hhandle := Connection.handle_withPassword hy h now s
  simp only [turn, withPassword, hhandle]
  cases (y.conn.handle constantTimeEq f now s).next with
  | outcome o =>
    cases o with
    | quit => rfl
    | noop => exact settle_withPassword _
    | respond response => exact settle_withPassword _
  | returned => rfl
  | panicked => rfl

end Session

namespace Server

variable {κ : Type} [DecidableEq κ] {alloc : Allocator} {archivePath : Bool} {x x' : Server κ}
  {k : κ} {y : Session}

/-- The same server, with another password. -/
def withPassword (p : Bytes) (x : Server κ) : Server κ :=
  { x with session := fun k => (x.session k).map (·.withPassword p) }

/-- All connections have this password. -/
def HasPassword (p : Bytes) (x : Server κ) : Prop :=
  ∀ k y, x.session k = some y → y.conn.authPassword = some p

/-- The frame has been handled, or its reply is on its way. -/
def Judged (x : Server κ) (k : κ) (y : Session) (f : Frame) : Prop :=
  f ∈ y.log ∨ x.sending k ≠ [] ∧ y.frames.head? = some f

/-- Every AUTH whose verdict has been given is judged alike. -/
def SameVerdicts (constantTimeEq : Bytes → Bytes → Bool) (p p' : Bytes) (x : Server κ) : Prop :=
  ∀ k y, x.session k = some y → ∀ f, Judged x k y f → SameVerdict constantTimeEq p p' f

theorem setSession_withPassword (x : Server κ) (k : κ) (y : Session) :
    (x.setSession k y).withPassword p = (x.withPassword p).setSession k (y.withPassword p) := by
  unfold setSession withPassword
  congr 1
  funext j
  by_cases hj : j = k
  · subst hj
    simp
  · simp [Function.update_of_ne hj]

theorem sent_withPassword (x : Server κ) (k : κ) :
    (x.sent k).withPassword p = (x.withPassword p).sent k := rfl

omit [DecidableEq κ] in
theorem Running.withPassword (h : x.Running k y) :
    (x.withPassword p).Running k (y.withPassword p) := by
  refine ⟨?_, h.2⟩
  show (x.session k).map _ = _
  rw [h.1]
  rfl

omit [DecidableEq κ] in
theorem Ended.withPassword (h : x.Ended) : (x.withPassword p).Ended := by
  intro k y hy
  obtain ⟨z, hz, rfl⟩ := Option.map_eq_some_iff.mp hy
  exact h k z hz

/-! ## One step -/

theorem ServerStep.withPassword {a : Act κ} (h : ServerStep (some p) archivePath x a x') :
    ServerStep (some p') archivePath (x.withPassword p') a (x'.withPassword p') := by
  cases h with
  | cancel => exact .cancel
  | accept hs hk =>
    rw [setSession_withPassword, Session.start_withPassword]
    refine .accept hs ?_
    show (x.session _).map _ = none
    rw [hk]
    rfl
  | shutdown hs hc => exact .shutdown hs hc
  | timeout hs => exact .timeout hs
  | join hs he => exact .join hs he.withPassword
  | dump hs ha => exact .dump hs ha
  | take clocks hs hf => exact .take clocks hs hf
  | written hs => exact .written hs
  | unwritten hs => exact .unwritten hs
  | skip hs ha => exact .skip hs ha

omit [DecidableEq κ] in
theorem Replying.withPassword (hy : y.conn.authPassword = some p) {f r : Frame}
    (hv : SameVerdict constantTimeEq p p' f) (h : Replying constantTimeEq x k y f r) :
    Replying constantTimeEq (x.withPassword p') k (y.withPassword p') f r := by
  cases h with
  | own hr ho =>
    refine .own ?_ ?_
    · rw [← hr]
      exact Connection.request_withPassword hy f
    · rw [← ho]
      exact Connection.ownReply_withPassword hy hv
  | call hp => exact .call hp

/-- The step is one of the other server, if the frame it has handled is judged alike. -/
theorem TaskStep.withPassword {a : Act κ} (hrun : x.session k = some y)
    (hy : y.conn.authPassword = some p) (hv : SameVerdicts constantTimeEq p p' x')
    (h : TaskStep constantTimeEq alloc x k y a x') :
    TaskStep constantTimeEq alloc (x.withPassword p') k (y.withPassword p') a
      (x'.withPassword p') := by
  have handled {z : Session} {f : Frame} (hz : x'.session k = some z) (hf : f ∈ z.log) :
      SameVerdict constantTimeEq p p' f := hv k z hz f (.inl hf)
  cases h with
  | read hf =>
    rw [setSession_withPassword, Session.read_withPassword]
    exact .read hf
  | stop hf hc =>
    rw [close, setSession_withPassword]
    exact .stop hf hc
  | @serve f rest hf hr =>
    have hf' : SameVerdict constantTimeEq p p' f := handled (Function.update_self k _ _) (by
      rw [(Session.turn_same constantTimeEq _ f rest y _).1]
      simp)
    rw [sent_withPassword, setSession_withPassword, Session.turn_withPassword hy hf']
    exact .serve hf (by rw [← hr]; exact Connection.request_withPassword hy f)
  | @send f r rest n hf hr hlt hn =>
    have hsent : Function.update x.sending k (r.toBytes.take n) k ≠ [] := by
      rw [Function.update_self]
      intro he
      have hlen := congrArg List.length he
      rw [List.length_take, List.length_nil] at hlen
      omega
    have hf' : SameVerdict constantTimeEq p p' f :=
      hv k y hrun f (.inr ⟨hsent, by rw [hf]; rfl⟩)
    exact .send hf (hr.withPassword hy hf') hlt hn
  | invoke hf hr h =>
    exact .invoke hf (by rw [← hr]; exact Connection.request_withPassword hy _) h
  | call ha h hp => exact .call ha h hp
  | panic h hp =>
    rw [close, setSession_withPassword]
    exact .panic h hp
  | @respond f rest c now r hf hp =>
    have hf' : SameVerdict constantTimeEq p p' f :=
      handled (Function.update_self k _ _) (by simp [Session.answer])
    rw [sent_withPassword, setSession_withPassword, Session.answer_withPassword hy hf']
    exact .respond hf hp
  | ioError hp =>
    rw [close, setSession_withPassword]
    exact .ioError hp
  | abort hs hp =>
    rw [close, setSession_withPassword]
    exact .abort hs hp
  | abortCall hs h =>
    rw [close, setSession_withPassword]
    exact .abortCall hs h

theorem Step.withPassword {a : Act κ} (hx : HasPassword p x)
    (hv : SameVerdicts constantTimeEq p p' x')
    (h : Step constantTimeEq alloc (some p) archivePath x a x') :
    Step constantTimeEq alloc (some p') archivePath (x.withPassword p') a (x'.withPassword p') := by
  cases h with
  | tick t ht => exact .tick t ht
  | sweep hs => exact .sweep hs
  | server hs => exact .server hs.withPassword
  | task hy hs => exact .task hy.withPassword (hs.withPassword hy.1 (hx _ _ hy.1) hv)

/-! ## Runs -/

/-- A step gives no connection another password, and takes no verdict back. -/
theorem Step.session_cases {a : Act κ} {authPassword : Option Bytes}
    (h : Step constantTimeEq alloc authPassword archivePath x a x') (j : κ) :
    (x'.session j = x.session j ∧ x'.sending j = x.sending j) ∨
      (x.session j = none ∧ x'.session j = some (.start authPassword)) ∨
      ∃ z z', x.session j = some z ∧ x'.session j = some z' ∧
        (∀ f, Judged x j z f → Judged x' j z' f) ∧ z'.conn.authPassword = z.conn.authPassword := by
  cases h with
  | tick t ht => exact .inl ⟨rfl, rfl⟩
  | sweep hs => exact .inl ⟨rfl, rfl⟩
  | server hs =>
    cases hs with
    | @accept k hs hk =>
      by_cases hjk : j = k
      · subst hjk
        exact .inr (.inl ⟨hk, Function.update_self j _ _⟩)
      · exact .inl ⟨Function.update_of_ne hjk _ _, rfl⟩
    | _ => exact .inl ⟨rfl, rfl⟩
  | task hy hs =>
    rename_i k y
    obtain ⟨y', hsession, -, hsending, hout⟩ := hs.outcome hy
    by_cases hjk : j = k
    · subst hjk
      refine .inr (.inr ⟨y, y', hy.1, by rw [hsession, Function.update_self], ?_⟩)
      rcases hout with ⟨hstands, hkeep⟩ | ⟨f, hhandles⟩
      · refine ⟨fun g hg => ?_, by rw [hstands.conn]⟩
        rcases hg with hlog | ⟨hbegun, hhead⟩
        · exact .inl (by rw [hstands.log]; exact hlog)
        · rcases hstands.frames with ⟨hnil, -⟩ | hframes
          · rw [hnil] at hhead
            cases hhead
          · exact .inr ⟨hkeep hbegun, by rw [hframes]; exact hhead⟩
      · refine ⟨fun g hg => .inl ?_, ?_⟩
        · rw [hhandles.log]
          rcases hg with hlog | ⟨-, hhead⟩
          · exact List.mem_append_left _ hlog
          · obtain ⟨rest, hf⟩ := hhandles.head
            rw [hf] at hhead
            exact List.mem_append_right _ (List.mem_singleton.mpr (Option.some.inj hhead).symm)
        · rw [hhandles.conn]
          exact Connection.after_authPassword f y.conn
    · exact .inl ⟨by rw [hsession, Function.update_of_ne hjk], hsending j hjk⟩

theorem HasPassword.step {a : Act κ} (hx : HasPassword p x)
    (h : Step constantTimeEq alloc (some p) archivePath x a x') : HasPassword p x' := by
  intro k z' hz'
  rcases h.session_cases k with ⟨hsame, -⟩ | ⟨-, hstart⟩ | ⟨z, w, hz, hw, -, hp⟩
  · exact hx k z' (hsame ▸ hz')
  · rw [hstart] at hz'
    obtain rfl := Option.some.inj hz'
    rfl
  · rw [hw] at hz'
    obtain rfl := Option.some.inj hz'
    rw [hp]
    exact hx k z hz

theorem SameVerdicts.before {a : Act κ} {authPassword : Option Bytes}
    (hv : SameVerdicts constantTimeEq p p' x')
    (h : Step constantTimeEq alloc authPassword archivePath x a x') :
    SameVerdicts constantTimeEq p p' x := by
  intro k z hz f hf
  rcases h.session_cases k with ⟨hsame, hsent⟩ | ⟨hnone, -⟩ | ⟨y, w, hy, hw, hsub, -⟩
  · exact hv k z (hsame ▸ hz) f (hf.imp_right fun h => ⟨hsent ▸ h.1, h.2⟩)
  · rw [hnone] at hz
    cases hz
  · rw [hy] at hz
    obtain rfl := Option.some.inj hz
    exact hv k w hw f (hsub f hf)

/-- Every run of a server with one password is, step by step, a run of the server with another one:
the same actions, from states that differ in the password alone, so with the same effect on
the store and the same bytes to every client. This is so if the AUTHs that have been answered in
it, wholly or in part, get the same verdicts from both passwords. So all that the clients together
can learn of the password are the verdicts on their own guesses. -/
theorem password_shows_in_verdicts_only (archivePath : Bool) {G : Server κ → Act κ → Prop}
    {t : Instant} {s₀ : Store}
    (hr : Run constantTimeEq alloc (some p) archivePath G (.start t s₀) x)
    (hv : SameVerdicts constantTimeEq p p' x) :
    Run constantTimeEq alloc (some p') archivePath (fun z a => ∃ x, z = x.withPassword p' ∧ G x a)
        (.start t s₀) (x.withPassword p') ∧
      (x.withPassword p').calls = x.calls ∧ (x.withPassword p').sending = x.sending ∧
      ∀ k, ((x.withPassword p').session k).map (fun y => (y.status, y.log, y.written)) =
        (x.session k).map fun y => (y.status, y.log, y.written) := by
  refine ⟨?_, rfl, rfl, fun k => ?_⟩
  · have hrun : HasPassword p x ∧ Run constantTimeEq alloc (some p') archivePath
        (fun z a => ∃ x, z = x.withPassword p' ∧ G x a) (.start t s₀) (x.withPassword p') := by
      induction hr with
      | nil => exact ⟨fun k y hy => by (cases hy), .nil _⟩
      | snoc hr hg hs ih =>
        obtain ⟨hx, hsame⟩ := ih (hv.before hs)
        exact ⟨hx.step hs, hsame.snoc ⟨_, rfl, hg⟩ (hs.withPassword hx hv)⟩
    exact hrun.2
  · show ((x.session k).map _).map _ = _
    rw [Option.map_map]
    rfl

/-- A wrong guess, which is neither of the two passwords; its verdict has just begun to go out. -/
theorem password_shows_in_verdicts_only_wrong :
    ∃ (x : Server Unit) (y : Session), x.session () = some y ∧ x.sending () = [45] ∧
      Run (fun a b => a == b) .exact (some [112]) false (fun _ a => a ≠ .cancel)
        (.start ⟨0, by decide⟩ .new) x ∧
      Run (fun a b => a == b) .exact (some [113]) false
        (fun z a => ∃ x : Server Unit, z = x.withPassword [113] ∧ a ≠ .cancel)
        (.start ⟨0, by decide⟩ .new) (x.withPassword [113]) := by
  let g : Frame := .array (some [.bulk (some [65, 85, 84, 72]), .bulk (some [120])])
  let y : Session := { Session.start (some [112]) with frames := [g] }
  have hread : (Session.start (some [112])).read .exact [65, 85, 84, 72, 32, 120, 10] = y := by
    decide +kernel
  have h : Run (fun a b => a == b) .exact (some [112]) false (fun _ a => a ≠ .cancel)
    (.start ⟨0, by decide⟩ .new) (.start ⟨0, by decide⟩ .new : Server Unit) := .nil _
  have h := h.snoc (a := .accept ()) nofun (.server (.accept rfl rfl))
  have h := h.snoc (a := .read () [65, 85, 84, 72, 32, 120, 10]) nofun
    (.task (k := ()) (y := .start (some [112])) ⟨rfl, rfl⟩ (.read rfl))
  rw [hread] at h
  have h := h.snoc (a := .send () 1) nofun (.task (k := ()) (y := y) ⟨rfl, rfl⟩
    (.send (r := .simpleError "AUTH invalid password") rfl (.own (by decide) (by decide)) (by decide)
      (by decide)))
  have hg : Command.tryFrom g = .ok (.auth [120]) := by decide
  refine ⟨_, _, rfl, by decide, h, (password_shows_in_verdicts_only false h ?_).1⟩
  intro k z hz f hf guess hguess
  cases hz
  rcases hf with hlog | ⟨-, hhead⟩
  · cases hlog
  · cases hhead
    rw [hg] at hguess
    cases hguess
    rfl

end Server
end Redlike
