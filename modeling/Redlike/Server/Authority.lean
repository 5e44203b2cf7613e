import Redlike.Connection.Auth
import Redlike.Server.Progress

/-!
# Who may call the store

On a server with a password, which calls the tasks make on the store is decided by what each
connection has sent itself. However the tasks, the sweeper and the shutdown take turns, the
frame `n` of a connection has made a call exactly if it is a data command and the connection
has sent AUTH with the password before: no other connection can do this for it, and neither can
a frame that comes later, or one that is not yet handled.
-/
namespace Redlike

open Resp Store

/-- The frame asks for a call on the store. -/
def Resp.Frame.Demands (f : Frame) : Prop :=
  ∃ cmd c, Command.tryFrom f = .ok cmd ∧ cmd.call = some c

namespace Session

variable {constantTimeEq : Bytes → Bytes → Bool} {password : Option Bytes} {y y' : Session}

theorem FlagOf.request_iff (h : FlagOf password y) (f : Frame) :
    (∃ c, y.conn.request f = some c) ↔
      f.Demands ∧ (password = none ∨ Granted password y.log) := by
  rw [← h.isAuthorized]
  constructor
  · intro hreq
    obtain ⟨c, hc⟩ := hreq
    have hauth : y.conn.isAuthorized = true := by
      by_contra hun
      rw [Connection.request_unauthorized (Bool.not_eq_true _ ▸ hun)] at hc
      cases hc
    refine ⟨?_, hauth⟩
    unfold Connection.request at hc
    split at hc
    · rename_i cmd hcmd
      split at hc
      · exact ⟨cmd, c, hcmd, hc⟩
      · cases hc
    · cases hc
  · intro hdemand
    obtain ⟨⟨cmd, c, hcmd, hc⟩, hauth⟩ := hdemand
    exact ⟨c, by rw [Connection.request_data hcmd hc, if_pos hauth]⟩

/-- A frame has been handled. -/
theorem FlagOf.after (hcte : ∀ a b, constantTimeEq a b = true ↔ a = b) (h : FlagOf password y)
    {f : Frame} (hlog : y'.log = y.log ++ [f]) (hconn : y'.conn = y.conn.after constantTimeEq f) :
    FlagOf password y' := by
  obtain ⟨hp, ha⟩ := Connection.handle_conn hcte f ⟨0, by decide⟩ y.conn .new
  rw [Connection.handle_after] at hp ha
  unfold FlagOf
  rw [hconn, hlog, granted_append]
  exact ⟨hp.trans h.1, by rw [ha, h.1, h.2]⟩

end Session

namespace Server

open Session (FlagOf)

variable {κ : Type} [DecidableEq κ] {constantTimeEq : Bytes → Bytes → Bool} {alloc : Allocator}
  {password : Option Bytes} {archivePath : Bool} {x x' : Server κ} {k : κ} {y y' : Session}

/-! ## What a step of a task does to its calls -/

/-- The session has handled `f`, with or without a call. -/
structure Handles (constantTimeEq : Bytes → Bytes → Bool) (phase phase' : κ × Nat → Phase) (k : κ)
    (y y' : Session) (f : Frame) : Prop where
  head : ∃ rest, y.frames = f :: rest
  log : y'.log = y.log ++ [f]
  conn : y'.conn = y.conn.after constantTimeEq f
  call : y.conn.request f = none ∧ phase' = phase ∨
    ∃ c now r, phase (k, y.log.length) = .finished c now r ∧
      phase' (k, y.log.length) = .responded c now r

/-- The session stands where it stood, or has read when it had nothing to handle. Its call may have
gone on, or begun. -/
structure Stands (phase phase' : κ × Nat → Phase) (k : κ) (y y' : Session) : Prop where
  log : y'.log = y.log
  conn : y'.conn = y.conn
  frames : y.frames = [] ∧ phase' = phase ∨ y'.frames = y.frames
  begun : phase' (k, y.log.length) ≠ .idle → phase (k, y.log.length) ≠ .idle ∨
    ∃ f rest c, y.frames = f :: rest ∧ y.conn.request f = some c

omit [DecidableEq κ] in
theorem stands_quiet {phase : κ × Nat → Phase} (status : Status) :
    Stands phase phase k y { y with status := status } := ⟨rfl, rfl, .inr rfl, .inl⟩

/-- A call that has begun goes on. -/
theorem callStep_phase {z z' : State (κ × Nat)} {i : κ × Nat} {b : Store.Act (κ × Nat)}
    (hs : CallStep z b z') (hb : b.caller = some i) :
    (∀ j, j ≠ i → z'.phase j = z.phase j) ∧ ((∀ j c, b ≠ .invoke j c) → z.phase i ≠ .idle) := by
  obtain ⟨j, p, hm, hphase⟩ := hs.moves
  have hj : j = i := by
    cases hm with
    | advance ha => rcases ha with rfl | rfl | rfl <;> exact Option.some.inj hb
    | _ => exact Option.some.inj hb
  subst hj
  refine ⟨fun l hl => by rw [hphase, Function.update_of_ne hl], fun hn hi => ?_⟩
  cases hm with
  | invoke c _ => exact hn _ c rfl
  | advance _ h _ | finish h _ => rw [hi] at h; cases h
  | panic h _ | respond h => rw [hi] at h; cases h
  | drop h => rw [hi] at h; cases h

/-- One task moves on; the reply to its next frame stays begun until it is whole. -/
theorem TaskStep.outcome {a : Act κ} (hy : x.Running k y)
    (hs : TaskStep constantTimeEq alloc x k y a x') :
    ∃ y', x'.session = Function.update x.session k (some y') ∧
      (∀ i, i ≠ (k, y.log.length) → x'.calls.phase i = x.calls.phase i) ∧
      (∀ j, j ≠ k → x'.sending j = x.sending j) ∧
      (Stands x.calls.phase x'.calls.phase k y y' ∧ (x.sending k ≠ [] → x'.sending k ≠ []) ∨
        ∃ f, Handles constantTimeEq x.calls.phase x'.calls.phase k y y' f) := by
  have goes {b : Store.Act (κ × Nat)} {z : State (κ × Nat)} (status : Status)
      (h : CallStep x.calls b z) (hb : b.caller = some (k, y.log.length))
      (hn : ∀ j c, b ≠ .invoke j c) :
      Stands x.calls.phase z.phase k y { y with status := status } :=
    ⟨rfl, rfl, .inr rfl, fun _ => .inl ((callStep_phase h hb).2 hn)⟩
  have still (j : κ) (_ : j ≠ k) : x.sending j = x.sending j := rfl
  cases hs with
  | @read buf hf =>
    obtain ⟨hlog, hconn⟩ := y.read_same alloc buf
    exact ⟨_, rfl, fun _ _ => rfl, still, .inl ⟨⟨hlog, hconn, .inl ⟨hf, rfl⟩, .inl⟩, id⟩⟩
  | stop | ioError | abort =>
    exact ⟨_, rfl, fun _ _ => rfl, still, .inl ⟨stands_quiet _, id⟩⟩
  | @send f r rest n hf hr hlt hn =>
    refine ⟨y, hy.session_eq, fun _ _ => rfl, fun j hj => Function.update_of_ne hj ..,
      .inl ⟨stands_quiet y.status, fun _ he => ?_⟩⟩
    have hlen : (Function.update x.sending k (r.toBytes.take n) k).length = 0 :=
      List.length_eq_zero_iff.mpr he
    rw [Function.update_self, List.length_take] at hlen
    omega
  | @serve f rest hf hr =>
    obtain ⟨hlog, hconn⟩ := y.turn_same constantTimeEq x.calls.clock f rest x.calls.store
    exact ⟨_, rfl, fun _ _ => rfl, fun j hj => Function.update_of_ne hj ..,
      .inr ⟨f, ⟨rest, hf⟩, hlog, hconn, .inl ⟨hr, rfl⟩⟩⟩
  | @invoke f rest c z hf hr h =>
    exact ⟨y, hy.session_eq, (callStep_phase h rfl).1, still,
      .inl ⟨⟨rfl, rfl, .inr rfl, fun _ => .inr ⟨f, rest, c, hf, hr⟩⟩, id⟩⟩
  | @call b z ha h hp =>
    have hb : b.caller = some (k, y.log.length) := by rcases ha with rfl | rfl | rfl | rfl <;> rfl
    have hn : ∀ j c, b ≠ .invoke j c := by rcases ha with rfl | rfl | rfl | rfl <;> simp
    exact ⟨y, hy.session_eq, (callStep_phase h hb).1, still, .inl ⟨goes y.status h hb hn, id⟩⟩
  | panic h hp =>
    exact ⟨_, rfl, (callStep_phase h rfl).1, still, .inl ⟨goes _ h rfl (by simp), id⟩⟩
  | abortCall hs h =>
    exact ⟨_, rfl, (callStep_phase h rfl).1, still, .inl ⟨goes _ h rfl (by simp), id⟩⟩
  | @respond f rest c now r hf hp =>
    refine ⟨_, rfl, fun i hi => Function.update_of_ne hi .., fun j hj => Function.update_of_ne hj ..,
      .inr ⟨f, ⟨rest, hf⟩, ?_, ?_, ?_⟩⟩
    · simp [Session.answer]
    · simp [Session.answer]
    · exact .inr ⟨c, now, r, hp, Function.update_self ..⟩

/-! ## What each connection has been allowed -/

/-- The frame may make its call after these. -/
def Entitled (password : Option Bytes) (log : List Frame) (f : Frame) : Prop :=
  f.Demands ∧ (password = none ∨ Granted password log)

/-- The calls of a connection are those that its own frames allow. -/
structure Allowed (password : Option Bytes) (phase : κ × Nat → Phase) (k : κ) (y : Session) :
    Prop where
  flag : FlagOf password y
  past : ∀ n f, y.log[n]? = some f →
    (phase (k, n) ≠ .idle ↔ Entitled password (y.log.take n) f)
  current : phase (k, y.log.length) ≠ .idle →
    ∃ f rest, y.frames = f :: rest ∧ Entitled password y.log f
  future : ∀ n, y.log.length < n → phase (k, n) = .idle

omit [DecidableEq κ] in
theorem Allowed.frame {phase phase' : κ × Nat → Phase} (h : Allowed password phase k y)
    (hp : ∀ n, phase' (k, n) = phase (k, n)) : Allowed password phase' k y :=
  ⟨h.flag, fun n f hn => by rw [hp]; exact h.past n f hn, by rw [hp]; exact h.current,
    fun n hn => by rw [hp]; exact h.future n hn⟩

omit [DecidableEq κ] in
theorem Allowed.handled (hcte : ∀ a b, constantTimeEq a b = true ↔ a = b)
    {phase phase' : κ × Nat → Phase} (h : Allowed password phase k y) (hr : y.status = .running)
    (hplace : Place constantTimeEq password phase k y)
    (hp : ∀ i, i ≠ (k, y.log.length) → phase' i = phase i) {f : Frame}
    (hs : Handles constantTimeEq phase phase' k y y' f) : Allowed password phase' k y' := by
  have hsame (n : Nat) (hn : n ≠ y.log.length) : phase' (k, n) = phase (k, n) :=
    hp _ fun he => hn (congrArg Prod.snd he)
  have hlen : y'.log.length = y.log.length + 1 := by rw [hs.log, List.length_append]; rfl
  have hnext (n : Nat) (hn : y.log.length < n) : phase' (k, n) = .idle := by
    rw [hsame n (by omega)]
    exact h.future n hn
  refine ⟨h.flag.after hcte hs.log hs.conn, fun n g hn => ?_, fun hi => ?_, fun n hn => ?_⟩
  · obtain ⟨hlt, -⟩ := List.getElem?_eq_some_iff.mp hn
    rw [hs.log] at hn ⊢
    by_cases hlast : n = y.log.length
    · subst hlast
      rw [List.getElem?_concat_length] at hn
      obtain rfl := Option.some.inj hn
      rw [List.take_left, Entitled, ← h.flag.request_iff]
      rcases hs.call with ⟨hnone, hphase⟩ | ⟨c, now, r, hold, hnew⟩
      · have hidle : phase (k, y.log.length) = .idle := hplace.idle hr fun g rest c hg hc => by
          obtain ⟨rest', hf⟩ := hs.head
          obtain ⟨rfl, -⟩ := List.cons.inj (hf.symm.trans hg)
          rw [hnone] at hc
          cases hc
        rw [hphase, hidle, hnone]
        simp
      · obtain ⟨-, g, rest, d, hg, hd⟩ := hplace.current hr (by rw [hold]; simp)
        obtain ⟨rest', hf⟩ := hs.head
        obtain ⟨rfl, -⟩ := List.cons.inj (hf.symm.trans hg)
        rw [hnew]
        simp [hd]
    · have hn' : n < y.log.length := by omega
      rw [List.getElem?_append_left hn'] at hn
      rw [hsame n hlast, List.take_append_of_le_length (Nat.le_of_lt hn')]
      exact h.past n g hn
  · rw [hnext _ (by omega)] at hi
    exact absurd rfl hi
  · exact hnext n (by omega)

omit [DecidableEq κ] in
theorem Allowed.stands {phase phase' : κ × Nat → Phase} (h : Allowed password phase k y)
    (hp : ∀ i, i ≠ (k, y.log.length) → phase' i = phase i) (hs : Stands phase phase' k y y') :
    Allowed password phase' k y' := by
  have hsame (n : Nat) (hn : n ≠ y.log.length) : phase' (k, n) = phase (k, n) :=
    hp _ fun he => hn (congrArg Prod.snd he)
  refine ⟨?_, fun n f hn => ?_, fun hi => ?_, fun n hn => ?_⟩
  · unfold Session.FlagOf
    rw [hs.conn, hs.log]
    exact h.flag
  · rw [hs.log] at hn ⊢
    obtain ⟨hlt, -⟩ := List.getElem?_eq_some_iff.mp hn
    rw [hsame n (by omega)]
    exact h.past n f hn
  · rw [hs.log] at hi ⊢
    have hhead : ∃ f rest, y.frames = f :: rest ∧ Entitled password y.log f := by
      rcases hs.begun hi with hold | ⟨f, rest, c, hf, hc⟩
      · exact h.current hold
      · exact ⟨f, rest, hf, (h.flag.request_iff f).mp ⟨c, hc⟩⟩
    obtain ⟨f, rest, hf, he⟩ := hhead
    rcases hs.frames with ⟨hnil, -⟩ | hframes
    · rw [hf] at hnil
      cases hnil
    · exact ⟨f, rest, hframes.trans hf, he⟩
  · rw [hs.log] at hn
    rw [hsame n (by omega)]
    exact h.future n hn

/-- Every connection has been allowed what it has called. -/
def Authorized (password : Option Bytes) (x : Server κ) : Prop :=
  ∀ k y, x.session k = some y → Allowed password x.calls.phase k y

theorem Authorized.taskStep (hcte : ∀ a b, constantTimeEq a b = true ↔ a = b)
    (h : Authorized password x) (hx : Tidy constantTimeEq password archivePath x)
    (hy : x.Running k y) {a : Act κ}
    (hs : TaskStep constantTimeEq alloc x k y a x') : Authorized password x' := by
  have hk := h k y hy.1
  have hplace := hx.place k y hy.1
  obtain ⟨y', hsession, hphase, -, hout⟩ := hs.outcome hy
  intro j z hz
  rw [hsession] at hz
  by_cases hjk : j = k
  · subst hjk
    rw [Function.update_self] at hz
    obtain rfl := Option.some.inj hz
    rcases hout with ⟨hstands, -⟩ | ⟨f, hhandles⟩
    · exact hk.stands hphase hstands
    · exact hk.handled hcte hy.2 hplace hphase hhandles
  · rw [Function.update_of_ne hjk] at hz
    exact (h j z hz).frame fun n => hphase _ fun he => hjk (congrArg Prod.fst he)

theorem Authorized.step (hcte : ∀ a b, constantTimeEq a b = true ↔ a = b)
    (h : Authorized password x) (hx : Tidy constantTimeEq password archivePath x) {a : Act κ}
    (hs : Step constantTimeEq alloc password archivePath x a x') : Authorized password x' := by
  cases hs with
  | tick t ht => exact h
  | sweep hs => exact fun k y hy => (h k y hy).frame fun n => by rw [hs.phase_eq.1]
  | task hy hs => exact h.taskStep hcte hx hy hs
  | server hs =>
    cases hs with
    | @accept k hs hk =>
      intro j z hz
      change Function.update x.session k _ j = some z at hz
      by_cases hjk : j = k
      · subst hjk
        rw [Function.update_self] at hz
        obtain rfl := Option.some.inj hz
        have hidle := (hx.unborn j hk).2
        exact ⟨Session.flagOf_start password, by simp [Session.start],
          fun hi => absurd (hidle _) hi, fun n _ => hidle n⟩
      · rw [Function.update_of_ne hjk] at hz
        exact h j z hz
    | _ => exact h

/-- In every state of every run of a server: a call belongs to a frame that its connection has
handled or has at hand; a handled frame has made a call exactly if it is a data command and,
where there is a password, this connection has handled an AUTH with it before; and so it is with
the call that is in progress. -/
theorem calls_need_own_auth (hcte : ∀ a b, constantTimeEq a b = true ↔ a = b)
    {G : Server κ → Act κ → Prop} {t : Instant} {s₀ : Store} (hs₀ : Started s₀)
    (hr : Run constantTimeEq alloc password archivePath G (.start t s₀) x) :
    (∀ k n, x.calls.phase (k, n) ≠ .idle → ∃ y, x.session k = some y ∧ n ≤ y.log.length) ∧
    ∀ k y, x.session k = some y →
      (∀ n f, y.log[n]? = some f →
        (x.calls.phase (k, n) ≠ .idle ↔ Entitled password (y.log.take n) f)) ∧
      (x.calls.phase (k, y.log.length) ≠ .idle →
        ∃ f rest, y.frames = f :: rest ∧ Entitled password y.log f) := by
  have hx := tidy_run hs₀ hr
  have hauth : Authorized password x := by
    clear hx
    induction hr with
    | nil => exact fun k y hy => by cases hy
    | snoc hr _ hs ih => exact ih.step hcte (tidy_run hs₀ hr) hs
  refine ⟨fun k n hn => ?_, fun k y hy => ⟨(hauth k y hy).past, (hauth k y hy).current⟩⟩
  cases hk : x.session k with
  | none => exact absurd ((hx.unborn k hk).2 n) hn
  | some y =>
    refine ⟨y, rfl, ?_⟩
    by_contra hlt
    exact hn ((hauth k y hk).future n (Nat.lt_of_not_le hlt))

/-- A GET, an AUTH and a GET: the first GET is refused, the second makes a call. -/
theorem calls_need_own_auth_get :
    ∃ (x : Server Unit) (y : Session) (f : Frame),
      Run (fun a b => a == b) .exact (some [112]) false (fun _ _ => True)
          (.start ⟨0, by decide⟩ .new) x ∧ x.session () = some y ∧
        y.log[0]? = some f ∧ ¬ Entitled (some [112]) [] f ∧ Entitled (some [112]) y.log f := by
  let f : Frame := .array (some [.bulk (some [71, 69, 84]), .bulk (some [97])])
  let g : Frame := .array (some [.bulk (some [65, 85, 84, 72]), .bulk (some [112])])
  let y : Session := { Session.start (some [112]) with frames := [f, g, f] }
  have hread : (Session.start (some [112])).read .exact
      [71, 69, 84, 32, 97, 10, 65, 85, 84, 72, 32, 112, 10, 71, 69, 84, 32, 97, 10] = y := by
    decide +kernel
  have h : Run (fun a b => a == b) .exact (some [112]) false (fun _ _ => True)
    (.start ⟨0, by decide⟩ .new)
    (.start ⟨0, by decide⟩ .new : Server Unit) := .nil _
  have h := h.snoc trivial (.server (.accept (k := ()) rfl rfl))
  have h := h.snoc (a := .read ()
    [71, 69, 84, 32, 97, 10, 65, 85, 84, 72, 32, 112, 10, 71, 69, 84, 32, 97, 10]) trivial
    (.task (k := ()) (y := .start (some [112])) ⟨rfl, rfl⟩ (.read rfl))
  rw [hread] at h
  have h := h.snoc (a := .serve ()) trivial
    (.task (k := ()) (y := y) ⟨rfl, rfl⟩ (.serve (f := f) rfl (by decide)))
  have h := h.snoc (a := .serve ()) trivial
    (.task (k := ()) ⟨rfl, rfl⟩ (.serve (f := g) rfl (by decide)))
  have h := h.snoc trivial (.task (k := ()) ⟨rfl, rfl⟩
    (.invoke (f := f) (c := .get [97]) rfl (by decide) (.invoke _ rfl)))
  have hall := (calls_need_own_auth (by simp) (.inl rfl) h).2 () _ rfl
  refine ⟨_, _, f, h, rfl, rfl, fun he => (hall.1 0 f rfl).mpr he rfl, ?_⟩
  obtain ⟨f', rest, hf, he⟩ := hall.2 nofun
  cases hf
  exact he

end Server
end Redlike
