import Redlike.Resp.Image
import Redlike.Connection.Replies
import Redlike.Store.Expire
import Redlike.Server.Visible

/-!
# What is on the wire

Whatever the clients send and however the tasks of a server take turns, what a connection
has sent so far are the encodings of the replies to the requests it has handled and a part of the
next one, and a reader of the protocol gets back these replies. The values that travel from one
client to another through the store, through calls in progress and through the archive are never
too long to be written: they come out of vectors.
-/
namespace Redlike

open Resp Store Lib

namespace Store

theorem Fits.below {s s' : Store} (h : s.Fits) (hb : TtlMap.Below (contents s') (contents s)) :
    s'.Fits := fun k e he => h k e (hb k e he)

/-- The value to store is not too long. -/
def Call.Fits (c : Call) : Prop := ∀ key value, c = .set key value → value.length < 2^63

def Reply.Fits (r : Reply) : Prop := ∀ value, r = .value (some value) → value.length < 2^63

theorem Reply.Fits.encodable {r : Reply} (h : r.Fits) (c : Call) : (r.frame c).Encodable := by
  cases r with
  | stored => exact ⟨Connection.noCrlf_texts _ (by simp), trivial⟩
  | flag n => exact ⟨trivial, trivial⟩
  | seconds n => exact ⟨trivial, trivial⟩
  | value v =>
    cases c with
    | del key => exact ⟨trivial, trivial⟩
    | get _ | set _ _ | expire _ _ | ttl _ =>
      cases v with
      | none => exact ⟨trivial, trivial⟩
      | some value => exact ⟨trivial, h value rfl⟩

theorem fits_value {s : Store} (h : s.Fits) (now : Instant) (k : Key) :
    Reply.Fits (.value (((contents s).read now.val k).map (·.value))) := by
  intro value hv
  obtain ⟨e, he, rfl⟩ := Option.map_eq_some_iff.mp (Reply.value.inj hv)
  exact h k e (TtlMap.read_eq_some.mp he).1

theorem Call.Fits.run {c : Call} (hc : c.Fits) {s : Store} (hs : s.Fits) (now : Instant) :
    (c.run now s).2.Fits ∧ ∀ r, (c.run now s).1 = some r → r.Fits := by
  cases c with
  | get key =>
    refine ⟨hs, fun r hr => ?_⟩
    obtain rfl := Option.some.inj hr
    rw [get_eq]
    exact fits_value hs now key
  | set key value =>
    refine ⟨hs.set (hc key value rfl), fun r hr => ?_⟩
    obtain rfl := Option.some.inj hr
    exact fun _ h => by cases h
  | del key =>
    refine ⟨hs.del now key, fun r hr => ?_⟩
    obtain rfl := Option.some.inj hr
    rw [del_eq]
    exact fits_value hs now key
  | ttl key =>
    refine ⟨hs, fun r hr => ?_⟩
    obtain rfl := Option.some.inj hr
    exact fun _ h => by cases h
  | expire key secs =>
    constructor
    · by_cases hr : Ideal.Representable now.val (.expire key secs) (contents s)
      · exact hs.expire hr
      · obtain ⟨hlive, hlim⟩ := Classical.not_imp.mp hr
        obtain ⟨v, hl, he⟩ := isSome_read.mp hlive
        simp only [Call.run, expire_panics hl he hlim]
        refine hs.below ?_
        show TtlMap.Below (mapContents (s.hashmap.erase key)) _
        rw [mapContents_erase]
        exact TtlMap.remove_below _ key
    · intro r hr
      obtain ⟨n, -, rfl⟩ := Option.map_eq_some_iff.mp hr
      exact fun _ h => by cases h

def Phase.Fits : Phase → Prop
  | .invoked c | .heapHeld c | .locked c => c.Fits
  | .clocked c _ | .ready c _ => c.Fits
  | .finished _ _ r | .responded _ _ r => r.Fits
  | .idle | .failed => True

/-- No value in the store, in a call or in a reply is too long. -/
structure State.Fits {ι : Type} (x : State ι) : Prop where
  store : x.store.Fits
  phase : ∀ i, (x.phase i).Fits
  history : ∀ i r t, .respond i r t ∈ x.history → r.Fits

variable {ι : Type} [DecidableEq ι] {x z : State ι}

theorem State.Fits.move (h : x.Fits) {i : ι} {p : Phase} (hp : p.Fits) : (x.move i p).Fits := by
  refine ⟨h.store, fun j => ?_, h.history⟩
  show (Function.update x.phase i p j).Fits
  by_cases hj : j = i
  · subst hj
    rw [Function.update_self]
    exact hp
  · rw [Function.update_of_ne hj]
    exact h.phase j

omit [DecidableEq ι] in
theorem State.Fits.record (h : x.Fits) {e : Linear.Event ι Call Reply Nat}
    (he : ∀ i r t, e = .respond i r t → r.Fits) : (x.record e).Fits := by
  refine ⟨h.store, h.phase, fun i r t hm => ?_⟩
  rcases List.mem_append.mp hm with hm | hm
  · exact h.history i r t hm
  · exact he i r t (List.mem_singleton.mp hm).symm

theorem CallStep.fits {a : Act ι} (hs : CallStep x a z) (h : x.Fits)
    (ha : ∀ i c, a = .invoke i c → c.Fits) : z.Fits := by
  have hphase : ∀ {i p}, x.phase i = p → p.Fits := fun hp => hp ▸ h.phase _
  cases hs with
  | invoke c hp => exact (h.move (p := .invoked c) (ha _ c rfl)).record (by simp)
  | delClock hp | delLock hp | expireHeap hp | expireLock hp | lock hp | clock hp =>
    have hc := hphase hp
    exact h.move hc
  | @set i key value hp =>
    have hmove := h.move (i := i) (p := .finished (.set key value) x.clock .stored)
      fun _ hv => by cases hv
    exact ⟨h.store.set (hphase hp key value rfl), hmove.phase, h.history⟩
  | @finish i c now r hp hr =>
    have hrun := Call.Fits.run (hphase hp) h.store now
    exact ⟨hrun.1, (h.move (p := .finished c now r) (hrun.2 r hr)).phase, h.history⟩
  | @panic i c now hp hr =>
    exact ⟨(Call.Fits.run (hphase hp) h.store now).1, (h.move (p := .failed) trivial).phase,
      h.history⟩
  | @respond i c now r hp =>
    have hr : r.Fits := hphase hp
    refine (h.move (p := .responded c now r) hr).record ?_
    rintro _ _ _ ⟨⟩
    exact hr
  | drop hp => exact h.move trivial

omit [DecidableEq ι] in
theorem SweepStep.fits {a : Act ι} (hs : SweepStep x a z) (h : x.Fits) : z.Fits := by
  obtain ⟨hphase, -, hhistory⟩ := hs.phase_eq
  refine ⟨?_, by rw [hphase]; exact h.phase, by rw [hhistory]; exact h.history⟩
  cases hs with
  | remove hs => exact h.store.below (sweepRemove_below _ _ _)
  | _ => exact h.store

end Store

section Replies

variable {constantTimeEq : Bytes → Bytes → Bool} {authPassword : Option Bytes}
  {answer : Nat → Reply → Prop} {log replies : List Frame}

theorem Connection.continues_of_request {f : Frame} {x : Connection} {c : Call}
    (h : x.request f = some c) : Continues f := by
  unfold request at h
  constructor <;> intro hf <;> rw [hf] at h <;> cases h

variable (constantTimeEq) in
/-- A frame without a call has a reply exactly if the conversation goes on after it. -/
theorem Connection.ownReply_cases {f : Frame} {x : Connection} (h : x.request f = none) :
    (Continues f ∧ ∃ r, x.ownReply constantTimeEq f = some r ∧ r.Encodable) ∨
      ¬ Continues f ∧ x.ownReply constantTimeEq f = none := by
  by_cases hc : Continues f
  · obtain ⟨-, -, hcalls⟩ := handle_local constantTimeEq h ⟨0, instantLimit_pos⟩
      ⟨0, instantLimit_pos⟩ .new .new
    have hanswered : ∃ r, (x.handle constantTimeEq f ⟨0, instantLimit_pos⟩ .new).next =
        .outcome (.respond r) ∧ r.NoCrlf ∧ (Store.Fits .new → r.Fits) :=
      handle_continues hc (by rw [hcalls]; simp)
    obtain ⟨r, hnext, hn, hfit⟩ := hanswered
    exact .inl ⟨hc, r, by rw [ownReply, hnext]; rfl, hn, hfit fun k e he => by cases he⟩
  · refine .inr ⟨hc, ?_⟩
    have hf : Command.tryFrom f = .ok .quit ∨ Command.tryFrom f = .error .invalidCommandFrame := by
      by_contra hn
      exact hc (not_or.mp hn)
    rcases hf with hf | hf
    · simp [ownReply, handle, hf, processCommand, canExecute, Next.reply]
    · simp [ownReply, handle, hf, Next.reply]

/-- Replies can be written if what answers the calls is not too long. -/
theorem Replies.encodable (h : Replies constantTimeEq authPassword answer log replies)
    (hfit : ∀ n r, answer n r → r.Fits) : ∀ r ∈ replies, r.Encodable := by
  induction h with
  | nil => simp
  | own _ hf ih =>
    intro r hr
    rcases List.mem_append.mp hr with hr | hr
    · exact ih r hr
    · rcases Connection.ownReply_cases constantTimeEq hf with
        ⟨-, r', hown, henc⟩ | ⟨-, hnone⟩
      · rw [hown] at hr
        exact List.mem_singleton.mp hr ▸ henc
      · rw [hnone] at hr
        cases hr
  | @call _ _ _ c r' _ hf hr' ih =>
    intro r hr
    rcases List.mem_append.mp hr with hr | hr
    · exact ih r hr
    · exact List.mem_singleton.mp hr ▸ (hfit _ _ hr').encodable c

/-- There is one for each frame the conversation goes on after. -/
theorem Replies.length_eq (h : Replies constantTimeEq authPassword answer log replies) :
    replies.length = (log.filter fun f => decide (Continues f)).length := by
  induction h with
  | nil => rfl
  | own _ hf ih =>
    rcases Connection.ownReply_cases constantTimeEq hf with
      ⟨hc, r, hown, -⟩ | ⟨hc, hnone⟩
    · simp [ih, hown, hc]
    · simp [ih, hnone, hc]
  | call _ hf _ ih => simp [ih, Connection.continues_of_request hf]

/-- What a client has got can be read back, the part of a reply at its end excepted. -/
theorem Transcript.reads_back {y : Session} {part : Bytes}
    (h : Transcript constantTimeEq authPassword answer y part replies)
    (hfit : ∀ n r, answer n r → r.Fits) {chunks : List Bytes}
    (hc : chunks.flatten = y.written ++ part) :
    ∃ results q, Parser.new.parseAll .exact chunks = some (results, q) ∧
      (∀ r ∈ results, ∃ frames, r = .complete frames) ∧
      results.flatMap ParseResult.frames = replies ∧ (part = [] → q = .new) := by
  refine Parser.parseAll_encodings (h.whole.encodable hfit) ?_ (h.written ▸ hc)
  refine h.begun.imp_right fun ⟨f, rest, r, hf, hnext, hpart⟩ => ⟨r, ?_, hpart⟩
  exact hnext.encodable hfit r (List.mem_append_right _ (List.mem_singleton.mpr rfl))

end Replies

namespace Session

/-- Everything in the session can be written. -/
structure Legible (y : Session) : Prop where
  sound : y.parser.Sound
  frames : ∀ f ∈ y.frames, f.Encodable

variable {y : Session}

theorem legible_start (authPassword : Option Bytes) : (start authPassword).Legible where
  sound := Parser.new_sound
  frames := by simp [start]

theorem Legible.settle (h : y.Legible) : (settle y).Legible := by
  unfold Session.settle
  split <;> exact ⟨h.sound, h.frames⟩

theorem Legible.read (h : y.Legible) {buf : Bytes} (hb : (y.parser.feed buf).buf.length < 2^63) :
    (y.read .exact buf).Legible := by
  unfold Session.read
  split
  · exact ⟨h.sound, h.frames⟩
  · split
    · exact ⟨h.sound, h.frames⟩
    · rename_i result parser hparse
      obtain ⟨hsound, hframes⟩ := Parser.parse_sound ⟨hb, h.sound.levels⟩ hparse
      exact settle ⟨hsound, hframes⟩

variable (constantTimeEq : Bytes → Bytes → Bool) {f : Frame} {rest : List Frame}

theorem Legible.later (h : y.Legible) (hf : y.frames = f :: rest) : ∀ g ∈ rest, g.Encodable :=
  fun g hg => h.frames g (hf ▸ List.mem_cons_of_mem f hg)

theorem Legible.turn (h : y.Legible) (hf : y.frames = f :: rest) (now : Instant) (s : Store) :
    (y.turn constantTimeEq now f rest s).1.Legible := by
  unfold Session.turn
  dsimp only
  split
  · exact settle ⟨h.sound, h.later hf⟩
  · exact ⟨h.sound, h.later hf⟩
  · exact settle ⟨h.sound, h.later hf⟩
  · exact ⟨h.sound, h.later hf⟩
  · exact ⟨h.sound, h.later hf⟩

theorem Legible.answer (h : y.Legible) (hf : y.frames = f :: rest) (r : Frame) :
    (y.answer constantTimeEq r f rest).Legible := settle ⟨h.sound, h.later hf⟩

end Session

/-- The call of a frame stores no more than was in the frame. -/
theorem Connection.request_fits {f : Frame} {x : Connection} {c : Call} (h : x.request f = some c)
    (hf : f.Fits) : c.Fits := by
  intro key value hc
  unfold request at h
  cases hcmd : Command.tryFrom f with
  | error e => rw [hcmd] at h; cases h
  | ok cmd =>
    rw [hcmd] at h
    dsimp only at h
    split at h
    · obtain ⟨name, argv, rfl, hd⟩ := Command.tryFrom_ok hcmd
      subst hc
      cases cmd with
      | set k v =>
        cases h
        cases hd
        exact (Frame.fitsAll_iff _).mp hf.2 (.bulk (some value)) (by simp)
      | _ => cases h
    · cases h

namespace Server

variable {κ : Type} [DecidableEq κ] {constantTimeEq : Bytes → Bytes → Bool}
  {authPassword : Option Bytes} {archivePath : Bool} {x x' : Server κ} {k : κ} {y : Session}

/-- A read does not make a buffer longer than a vector can be. -/
def Buffers (x : Server κ) (a : Act κ) : Prop :=
  ∀ k buf y, a = .read k buf → x.session k = some y → (y.parser.feed buf).buf.length < 2^63

structure Legible (x : Server κ) : Prop where
  calls : x.calls.Fits
  session : ∀ k y, x.session k = some y → y.Legible

omit [DecidableEq κ] in
theorem legible_start (t : Instant) {s₀ : Store} (hs : s₀.Fits) :
    Legible (.start t s₀ : Server κ) where
  calls := ⟨hs, fun _ => trivial, fun i r t hm => by cases hm⟩
  session k y hy := by cases hy

omit [DecidableEq κ] in
theorem Legible.answers (h : Legible x) {n : Nat} {r : Reply} (hr : x.Answers k n r) : r.Fits := by
  rcases hr with ⟨t, ht⟩ | ⟨c, now, hp⟩
  · exact h.calls.history _ r t ht
  · have hphase := h.calls.phase (k, n)
    rw [hp] at hphase
    exact hphase

theorem Legible.update (h : Legible x) {calls : State (κ × Nat)} (hcalls : calls.Fits)
    {y' : Session} (hy' : y'.Legible) : Legible (setSession { x with calls := calls } k y') := by
  refine ⟨hcalls, fun j z hz => ?_⟩
  change Function.update x.session k (some y') j = some z at hz
  by_cases hj : j = k
  · subst hj
    rw [Function.update_self] at hz
    exact Option.some.inj hz ▸ hy'
  · rw [Function.update_of_ne hj] at hz
    exact h.session j z hz

theorem Legible.taskStep (h : Legible x) (hy : x.Running k y) {a : Act κ} (ha : Buffers x a)
    (hs : TaskStep constantTimeEq .exact x k y a x') : Legible x' := by
  have hyl := h.session k y hy.1
  have other {a : Store.Act (κ × Nat)} {z : State (κ × Nat)} (hz : CallStep x.calls a z)
      (hne : ∀ i c, a ≠ .invoke i c) : z.Fits := hz.fits h.calls fun i c hc => absurd hc (hne i c)
  have closed (status : Status) : Session.Legible { y with status := status } :=
    ⟨hyl.sound, hyl.frames⟩
  have sent {z : Server κ} (hz : Legible z) : Legible (z.sent k) := ⟨hz.calls, hz.session⟩
  cases hs with
  | read hf => exact h.update h.calls (hyl.read (ha k _ y rfl hy.1))
  | stop hf hc => exact h.update h.calls (closed _)
  | serve hf hr => exact sent (h.update h.calls (hyl.turn constantTimeEq hf _ _))
  | send => exact ⟨h.calls, h.session⟩
  | @invoke f rest c z hf hr hz =>
    refine ⟨hz.fits h.calls ?_, h.session⟩
    intro i c' hc
    cases hc
    exact Connection.request_fits hr (hyl.frames f (hf ▸ List.mem_cons_self)).fits
  | call hb hz hp => exact ⟨other hz (by rcases hb with rfl | rfl | rfl | rfl <;> simp), h.session⟩
  | panic hz hp => exact h.update (other hz (by simp)) (closed _)
  | @respond f rest c now r hf hp =>
    have hz := CallStep.fits (.respond hp) h.calls (by simp)
    exact sent (h.update hz (hyl.answer constantTimeEq hf (r.frame c)))
  | ioError hp => exact h.update h.calls (closed _)
  | abort hs hp => exact h.update h.calls (closed _)
  | abortCall hs hz => exact h.update (other hz (by simp)) (closed _)

theorem Legible.step (h : Legible x) {a : Act κ} (ha : Buffers x a)
    (hs : Step constantTimeEq .exact authPassword archivePath x a x') : Legible x' := by
  cases hs with
  | tick t _ => exact ⟨⟨h.calls.store, h.calls.phase, h.calls.history⟩, h.session⟩
  | sweep hs => exact ⟨hs.fits h.calls, h.session⟩
  | task hy hs => exact h.taskStep hy ha hs
  | server hs =>
    cases hs with
    | accept hs hk => exact h.update h.calls (Session.legible_start authPassword)
    | _ => exact ⟨h.calls, h.session⟩

theorem legible_run {t : Instant} {s₀ : Store} (hfit : s₀.Fits)
    (hr : Run constantTimeEq .exact authPassword archivePath Buffers (.start t s₀) x) :
    Legible x := by
  induction hr with
  | nil => exact legible_start t hfit
  | snoc hr hg hs ih => exact ih.step hg hs

/-- In every state of every run of the server in which the vectors of the parsers get the room they
ask for and nothing is longer than a vector can be: what a connection has sent are the encodings
of the replies to the frames it has handled, in their order, one to each but a QUIT or a frame that
is no request, and at most a part of the next reply. A parser that gets these bytes in any pieces
gives back these replies, without an error, and is as it was at the beginning if no part is left. -/
theorem replies_read_back (constantTimeEq : Bytes → Bytes → Bool) (authPassword : Option Bytes)
    (archivePath : Bool) (t : Instant) (s₀ : Store) (hs₀ : Started s₀) (hfit : s₀.Fits)
    (x : Server κ)
    (hrun : Run constantTimeEq .exact authPassword archivePath Buffers (.start t s₀) x) (k : κ)
    (y : Session) (hy : x.session k = some y) :
    ∃ replies : List Frame,
      Transcript constantTimeEq authPassword (x.Answers k) y (x.sending k) replies ∧
      replies.length = (y.log.filter fun f => decide (Continues f)).length ∧
      ∀ chunks : List Bytes, chunks.flatten = y.written ++ x.sending k →
        ∃ results p, Parser.new.parseAll .exact chunks = some (results, p) ∧
          (∀ r ∈ results, ∃ frames, r = .complete frames) ∧
          results.flatMap ParseResult.frames = replies ∧ (x.sending k = [] → p = .new) := by
  obtain ⟨replies, htranscript⟩ := transcript_run hs₀ hrun hy
  have hlegible := legible_run hfit hrun
  exact ⟨replies, htranscript, htranscript.whole.length_eq,
    fun chunks hc => htranscript.reads_back (fun n r => hlegible.answers) hc⟩

/-- A PING is answered, and the answer to a second one has begun; it is read byte by byte. -/
theorem replies_read_back_ping :
    ∃ (x : Server Unit) (y : Session) (replies : List Frame),
      Run (fun a b => a == b) .exact none false Buffers (.start ⟨0, by decide⟩ .new) x ∧
        x.session () = some y ∧ y.written = [43, 80, 79, 78, 71, 13, 10] ∧
        x.sending () = [43, 80] ∧ replies.length = 1 ∧
        ∃ results p, Parser.new.parseAll .exact [[43], [80], [79], [78], [71], [13], [10], [43], [80]] =
            some (results, p) ∧ results.flatMap ParseResult.frames = replies := by
  have skip {x : Server Unit} {a : Act Unit} (h : ∀ k buf, a ≠ .read k buf) : Buffers x a :=
    fun k buf _ ha => absurd ha (h k buf)
  let f : Frame := .array (some [.bulk (some [80, 73, 78, 71])])
  let y : Session := { Session.start none with frames := [f, f] }
  let y' : Session := { y with
    frames := [f], log := [f], written := [43, 80, 79, 78, 71, 13, 10] }
  have hread : (Session.start none).read .exact [80, 73, 78, 71, 10, 80, 73, 78, 71, 10] = y := by
    decide +kernel
  have hturn : (y.turn (fun a b => a == b) ⟨0, by decide⟩ f [f] .new).1 = y' := by decide +kernel
  have hfits : Store.Fits .new := fun k e he => by cases he
  have h : Run (fun a b => a == b) .exact none false Buffers (.start ⟨0, by decide⟩ .new)
    (.start ⟨0, by decide⟩ .new : Server Unit) := .nil _
  have h := h.snoc (skip (by simp)) (.server (.accept (k := ()) rfl rfl))
  have h := h.snoc (a := .read () [80, 73, 78, 71, 10, 80, 73, 78, 71, 10]) (by
      intro k buf z ha hz
      cases ha
      cases hz
      decide)
    (.task (k := ()) (y := .start none) ⟨rfl, rfl⟩ (.read rfl))
  rw [hread] at h
  have h := h.snoc (skip (by simp))
    (.task (k := ()) (y := y) ⟨rfl, rfl⟩ (.serve rfl (by decide)))
  change Run _ _ _ _ _ _ ((setSession _ ()
    (y.turn (fun a b => a == b) ⟨0, by decide⟩ f [f] .new).1).sent ()) at h
  rw [hturn] at h
  have h := h.snoc (a := .send () 2) (skip (by simp)) (.task (k := ()) (y := y') ⟨rfl, rfl⟩
    (.send (r := .simpleString "PONG") rfl (.own (by decide) (by decide)) (by decide) (by decide)))
  obtain ⟨replies, -, hlen, hall⟩ := replies_read_back _ _ _ _ _ (.inl rfl) hfits _ h () _ rfl
  obtain ⟨results, p, hp, -, hframes, -⟩ := hall
    [[43], [80], [79], [78], [71], [13], [10], [43], [80]] (by decide)
  exact ⟨_, _, replies, h, rfl, rfl, by decide, hlen.trans (by decide), results, p, hp, hframes⟩

end Server
end Redlike
