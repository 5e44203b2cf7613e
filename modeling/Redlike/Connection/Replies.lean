import Redlike.Resp.RoundTrip
import Redlike.Connection.Model

/-!
# One request, one reply

What a client gets back, as a function of the frames of its stream: the replies to
them in order, up to a frame that ends the conversation. `Connection::run` writes
the encodings of exactly these replies, however the stream was cut into reads, and
they can be read back.
-/
namespace Redlike

open Resp Store

/-- A frame the conversation goes on after: it decodes neither to QUIT nor to no request at all. -/
def Continues (f : Frame) : Prop :=
  Command.tryFrom f ≠ .ok .quit ∧ Command.tryFrom f ≠ .error .invalidCommandFrame

instance (f : Frame) : Decidable (Continues f) := inferInstanceAs (Decidable (_ ∧ _))

/-- The conversation about a list of frames. -/
structure Served where
  replies : List Frame
  conn : Connection
  store : Store
  stopped : Bool

section Serve

variable (constantTimeEq : Bytes → Bytes → Bool) (clock : Nat → Instant)

/-- The frames in order, the `n`-th at the clock value `clock n`. -/
def serve : Nat → List Frame → Connection → Store → Served
  | _, [], x, s => ⟨[], x, s, false⟩
  | n, f :: fs, x, s =>
    if Continues f then
      let h := x.handle constantTimeEq f (clock n) s
      let q := serve (n+1) fs h.conn h.store
      { q with replies := h.next.reply.toList ++ q.replies }
    else ⟨[], x, s, true⟩

/-- Every deadline set on the way is an instant. -/
def Admissible : Nat → List Frame → Connection → Store → Prop
  | _, [], _, _ => True
  | n, f :: fs, x, s =>
    Continues f →
      let h := x.handle constantTimeEq f (clock n) s
      (∀ c ∈ h.calls, Ideal.Representable (clock n).val c (contents s)) ∧
        Admissible (n+1) fs h.conn h.store

instance : ∀ n fs x s, Decidable (Admissible constantTimeEq clock n fs x s)
  | _, [], _, _ => isTrue trivial
  | n, f :: fs, x, s =>
    have := instDecidableAdmissible (n+1) fs (x.handle constantTimeEq f (clock n) s).conn
      (x.handle constantTimeEq f (clock n) s).store
    inferInstanceAs (Decidable (Continues f →
      (∀ c ∈ (x.handle constantTimeEq f (clock n) s).calls,
        Ideal.Representable (clock n).val c (contents s)) ∧
      Admissible constantTimeEq clock (n+1) fs (x.handle constantTimeEq f (clock n) s).conn
        (x.handle constantTimeEq f (clock n) s).store))

end Serve

/-- No value is longer than a vector can be. -/
def Store.Fits (s : Store) : Prop := ∀ k e, contents s k = some e → e.value.length < 2^63

namespace Store

theorem Fits.set {s : Store} (h : s.Fits) {key value : Bytes} (hv : value.length < 2^63) :
    (s.set key value).2.Fits := by
  intro k e he
  rw [contents_set] at he
  by_cases hk : k = key
  · subst hk
    rw [Lib.TtlMap.put_self] at he
    cases he
    exact hv
  · rw [Lib.TtlMap.put_other _ _ hk] at he
    exact h k e he

theorem Fits.del {s : Store} (h : s.Fits) (now : Instant) (key : Bytes) :
    (s.del now key).2.Fits := by
  intro k e he
  rw [contents_del] at he
  exact h k e (Lib.TtlMap.remove_below _ key k e he)

theorem Fits.expire {s : Store} (h : s.Fits) {now : Instant} {key : Bytes} {secs : UInt64}
    (hr : Ideal.Representable now.val (.expire key secs) (contents s)) :
    (s.expire now key secs).2.Fits := by
  intro k e he
  cases hread : (contents s).read now.val key with
  | none =>
    rw [(expire_absent hread secs).2] at he
    exact h k e (Lib.TtlMap.remove_below _ key k e he)
  | some e' =>
    rw [(expire_live hread (hr (by rw [hread]; rfl))).2] at he
    by_cases hk : k = key
    · subst hk
      rw [Lib.TtlMap.put_self] at he
      cases he
      exact h k e' (Lib.TtlMap.read_eq_some.mp hread).1
    · rw [Lib.TtlMap.put_other _ _ hk] at he
      exact h k e he

theorem Fits.get {s : Store} (h : s.Fits) (now : Instant) (key : Bytes) :
    (Frame.bulk (s.get now key)).Fits := by
  rw [get_eq]
  cases hread : (contents s).read now.val key with
  | none => trivial
  | some e => exact h key e (Lib.TtlMap.read_eq_some.mp hread).1

end Store

namespace Connection

variable {constantTimeEq : Bytes → Bytes → Bool}

/-- A request answered with an error has changed nothing. -/
theorem handle_simpleError {f : Frame} {now : Instant} {x : Connection} {s : Store} {m : String}
    (h : (x.handle constantTimeEq f now s).next = .outcome (.respond (.simpleError m))) :
    (x.handle constantTimeEq f now s).conn = x ∧ (x.handle constantTimeEq f now s).store = s := by
  unfold handle at h ⊢
  split
  · rename_i cmd hf
    rw [hf] at h
    dsimp only at h
    unfold processCommand at h ⊢
    split
    · exact ⟨rfl, rfl⟩
    · rename_i hexec
      rw [if_neg hexec] at h
      cases cmd with
      | auth key =>
        dsimp only at h ⊢
        unfold authenticateConnection at h ⊢
        split
        · exact ⟨rfl, rfl⟩
        · rename_i secret hp
          rw [hp] at h
          dsimp only at h
          split
          · rename_i heq
            rw [if_pos heq] at h
            cases h
          · exact ⟨rfl, rfl⟩
      | expire key value =>
        dsimp only at h ⊢
        cases he : (s.expire now key value).1 with
        | none => rw [he] at h; cases h
        | some n => rw [he] at h; cases h
      | _ => cases h
  all_goals exact ⟨rfl, rfl⟩

/-- The texts of all replies. -/
theorem noCrlf_texts : ∀ m ∈ ["OK", "PONG", "NOAUTH Authentication required",
    "AUTH called without any password configured", "AUTH invalid password", "Unknown Command",
    "Wrong number of arguments", "Wrong Argument Type"], ¬ crlf <:+: asBytes m := by
  decide

theorem expire_returns {s : Store} {now : Instant} {key : Bytes} {secs : UInt64}
    (hr : Ideal.Representable now.val (.expire key secs) (contents s)) :
    ∃ n, (s.expire now key secs).1 = some n := by
  have h := (Call.run_ideal now _ s hr).1
  obtain ⟨n, hn, -⟩ := Option.map_eq_some_iff.mp h
  exact ⟨n, hn⟩

/-- What a decoded command other than QUIT leads to. -/
theorem processCommand_replies {cmd : Command} {now : Instant} {x : Connection} {s : Store}
    (hquit : cmd ≠ .quit) (hnoop : cmd ≠ .noop)
    (hr : ∀ c ∈ (x.processCommand constantTimeEq cmd now s).calls,
      Ideal.Representable now.val c (contents s)) :
    ∃ r, (x.processCommand constantTimeEq cmd now s).next = .outcome (.respond r) ∧ r.NoCrlf ∧
      (s.Fits → r.Fits) := by
  unfold processCommand at hr ⊢
  split
  · exact ⟨_, rfl, noCrlf_texts _ (by simp), fun _ => trivial⟩
  · rename_i hexec
    rw [if_neg hexec] at hr
    cases cmd with
    | noop => exact absurd rfl hnoop
    | quit => exact absurd rfl hquit
    | ping => exact ⟨_, rfl, noCrlf_texts _ (by simp), fun _ => trivial⟩
    | set key value => exact ⟨_, rfl, noCrlf_texts _ (by simp), fun _ => trivial⟩
    | get key => exact ⟨_, rfl, trivial, fun hs => hs.get now key⟩
    | del key => exact ⟨_, rfl, trivial, fun _ => trivial⟩
    | ttl key => exact ⟨_, rfl, trivial, fun _ => trivial⟩
    | expire key value =>
      dsimp only at hr ⊢
      obtain ⟨n, hn⟩ : ∃ n, (s.expire now key value).1 = some n := by
        apply expire_returns
        apply hr
        cases (s.expire now key value).1 <;> simp
      rw [hn]
      exact ⟨_, rfl, trivial, fun _ => trivial⟩
    | auth key =>
      dsimp only
      unfold authenticateConnection
      split
      · exact ⟨_, rfl, noCrlf_texts _ (by simp), fun _ => trivial⟩
      · split
        · exact ⟨_, rfl, noCrlf_texts _ (by simp), fun _ => trivial⟩
        · exact ⟨_, rfl, noCrlf_texts _ (by simp), fun _ => trivial⟩

/-- A frame the conversation goes on after has exactly one reply. -/
theorem handle_continues {f : Frame} {now : Instant} {x : Connection} {s : Store}
    (hc : Continues f) (hr : ∀ c ∈ (x.handle constantTimeEq f now s).calls,
      Ideal.Representable now.val c (contents s)) :
    ∃ r, (x.handle constantTimeEq f now s).next = .outcome (.respond r) ∧ r.NoCrlf ∧
      (s.Fits → r.Fits) := by
  unfold handle at hr ⊢
  cases hf : Command.tryFrom f with
  | ok cmd =>
    rw [hf] at hr
    apply processCommand_replies _ _ hr
    · rintro rfl
      exact hc.1 hf
    · rintro rfl
      obtain ⟨_, _, _, hd⟩ := Command.tryFrom_ok hf
      cases hd
  | error e =>
    cases e with
    | io => exact absurd hf (Command.tryFrom_ne_io f)
    | invalidCommandFrame => exact absurd hf hc.2
    | unknownCommand => exact ⟨_, rfl, noCrlf_texts _ (by simp), fun _ => trivial⟩
    | wrongArity _ _ _ => exact ⟨_, rfl, noCrlf_texts _ (by simp), fun _ => trivial⟩
    | wrongArgumentType => exact ⟨_, rfl, noCrlf_texts _ (by simp), fun _ => trivial⟩

/-- A value that comes into the store was an element of the frame. -/
theorem handle_fits {f : Frame} {now : Instant} {x : Connection} {s : Store} (hs : s.Fits)
    (hfit : f.Fits) (hr : ∀ c ∈ (x.handle constantTimeEq f now s).calls,
      Ideal.Representable now.val c (contents s)) :
    (x.handle constantTimeEq f now s).store.Fits := by
  unfold handle at hr ⊢
  cases hf : Command.tryFrom f with
  | error e => cases e <;> exact hs
  | ok cmd =>
    rw [hf] at hr
    dsimp only at hr ⊢
    unfold processCommand at hr ⊢
    split
    · exact hs
    · rename_i hexec
      rw [if_neg hexec] at hr
      cases cmd with
      | set key value =>
        apply hs.set
        obtain ⟨name, argv, rfl, hd⟩ := Command.tryFrom_ok hf
        cases hd
        exact (Frame.fitsAll_iff _).mp hfit.2 (.bulk (some value)) (by simp)
      | del key => exact hs.del now key
      | expire key value =>
        dsimp only at hr ⊢
        have hrep : Ideal.Representable now.val (.expire key value) (contents s) := by
          apply hr
          cases (s.expire now key value).1 <;> simp
        cases (s.expire now key value).1 <;> exact hs.expire hrep
      | _ => exact hs

end Connection

/-! ## The conversation about a list of frames -/

section Serve

variable {constantTimeEq : Bytes → Bytes → Bool} {clock : Nat → Instant}

theorem serve_append (n : Nat) (fs gs : List Frame) (x : Connection) (s : Store) :
    serve constantTimeEq clock n (fs ++ gs) x s =
      let q := serve constantTimeEq clock n fs x s
      if q.stopped then q
      else
        let q' := serve constantTimeEq clock (n + fs.length) gs q.conn q.store
        { q' with replies := q.replies ++ q'.replies } := by
  induction fs generalizing n x s with
  | nil => rfl
  | cons f fs ih =>
    simp only [List.cons_append, serve]
    by_cases hc : Continues f
    · simp only [if_pos hc, ih]
      rw [List.length_cons, show n + 1 + fs.length = n + (fs.length + 1) by omega]
      split <;> simp
    · simp [hc]

theorem admissible_append {n : Nat} {fs gs : List Frame} {x : Connection} {s : Store}
    (h : Admissible constantTimeEq clock n (fs ++ gs) x s) :
    Admissible constantTimeEq clock n fs x s ∧
      let q := serve constantTimeEq clock n fs x s
      (q.stopped = false → Admissible constantTimeEq clock (n + fs.length) gs q.conn q.store) := by
  induction fs generalizing n x s with
  | nil => exact ⟨trivial, fun _ => h⟩
  | cons f fs ih =>
    rw [List.cons_append, Admissible] at h
    by_cases hc : Continues f
    · obtain ⟨hr, hrest⟩ := h hc
      obtain ⟨h₁, h₂⟩ := ih hrest
      refine ⟨fun _ => ⟨hr, h₁⟩, ?_⟩
      intro q hq
      simp only [q, serve, if_pos hc] at hq ⊢
      rw [List.length_cons, show n + (fs.length + 1) = n + 1 + fs.length by omega]
      exact h₂ hq
    · refine ⟨fun hc' => absurd hc' hc, ?_⟩
      intro q hq
      simp [q, serve, hc] at hq

/-- One reply for each frame before the one that stops the conversation. -/
theorem serve_length {n : Nat} {fs : List Frame} {x : Connection} {s : Store}
    (h : Admissible constantTimeEq clock n fs x s) :
    (serve constantTimeEq clock n fs x s).replies.length =
      (fs.takeWhile fun f => decide (Continues f)).length := by
  induction fs generalizing n x s with
  | nil => rfl
  | cons f fs ih =>
    rw [serve]
    by_cases hc : Continues f
    · obtain ⟨hr, hrest⟩ := h hc
      obtain ⟨r, hnext, -⟩ := Connection.handle_continues hc hr
      simp [hc, hnext, Next.reply, ih hrest, Nat.add_comm]
    · simp [hc]

/-- Every reply can be written and read back, whatever the store holds. -/
theorem serve_readable {n : Nat} {fs : List Frame} {x : Connection} {s : Store}
    (h : Admissible constantTimeEq clock n fs x s) (hs : s.Fits) (hfit : ∀ f ∈ fs, f.Fits) :
    ∀ r ∈ (serve constantTimeEq clock n fs x s).replies, r.NoCrlf ∧ r.Fits := by
  induction fs generalizing n x s with
  | nil => simp [serve]
  | cons f fs ih =>
    rw [serve]
    by_cases hc : Continues f
    · obtain ⟨hr, hrest⟩ := h hc
      obtain ⟨r, hnext, hn, hf⟩ := Connection.handle_continues hc hr
      have hs' := Connection.handle_fits hs (hfit f (by simp)) hr
      have hih := ih hrest hs' (fun g hg => hfit g (by simp [hg]))
      simp only [if_pos hc, hnext, Next.reply, Option.toList_some, List.singleton_append,
        List.mem_cons, forall_eq_or_imp]
      exact ⟨⟨hn, hf hs⟩, hih⟩
    · simp [hc]

end Serve

/-! ## The loop -/

namespace Session

variable {constantTimeEq : Bytes → Bytes → Bool} {alloc : Allocator} {clock : Nat → Instant}

/-- A connection that has ended does nothing more. -/
theorem run_ended {x : Session} (h : x.status ≠ .running) (is : List Input) (s : Store) :
    x.run constantTimeEq alloc clock is s = (x, s, []) := by
  have hstep (now : Instant) (i : Input) : x.step constantTimeEq alloc now i s = (x, s, []) := by
    unfold step
    split
    · exact absurd ‹_› h
    · exact absurd ‹_› h
    · rfl
  induction is with
  | nil => rfl
  | cons i is ih => simp [run, hstep, ih]

theorem runReads_ended {x : Session} (h : x.status ≠ .running) (reads : List Bytes) (s : Store) :
    x.runReads constantTimeEq alloc clock reads s = (x, s) := by
  induction reads with
  | nil => rfl
  | cons buf reads ih =>
    have hstep : (x.step constantTimeEq alloc (clock x.log.length) (.read buf) s).1 = x := by
      have hr : x.run constantTimeEq alloc clock [.read buf] s = (x, s, []) := run_ended h _ s
      simpa [run] using congrArg Prod.fst hr
    rw [runReads]
    simp only [hstep, run_ended h, ih]

/-- After some frames: the connection has said what there was to say, and has ended or waits
for the next read. -/
structure Follows (x : Session) (p : Parser) (n : Nat) (q : Served) (ended : Bool)
    (r : Session × Store) : Prop where
  conn : r.1.conn = q.conn
  store : r.2 = q.store
  written : r.1.written = x.written ++ q.replies.flatMap Frame.toBytes
  closed : ended = true → r.1.status = .closed
  waits : ended = false → r.1.status = .running ∧ r.1.frames = [] ∧ r.1.halting = false ∧
    r.1.parser = p ∧ r.1.log.length = n

/-- One turn of the `for` loop on a frame with a reply. -/
theorem turn_continues {x : Session} {f : Frame} {rest : List Frame} {now : Instant} {s : Store}
    {r : Frame} (h : (x.conn.handle constantTimeEq f now s).next = .outcome (.respond r)) :
    (x.turn constantTimeEq now f rest s).1 = settle { x with
      conn := (x.conn.handle constantTimeEq f now s).conn, frames := rest, log := x.log ++ [f],
      written := x.written ++ r.toBytes } := by
  simp only [turn, h]

/-- ... and on a frame that ends the conversation. -/
theorem turn_stops {x : Session} {f : Frame} {rest : List Frame} {now : Instant} {s : Store}
    (hc : ¬ Continues f) :
    x.turn constantTimeEq now f rest s =
      ({ x with frames := rest, log := x.log ++ [f], status := .closed }, s, []) := by
  have hf : Command.tryFrom f = .ok .quit ∨ Command.tryFrom f = .error .invalidCommandFrame := by
    by_contra hn
    exact hc (not_or.mp hn)
  rcases hf with hf | hf
  · simp [turn, Connection.handle, hf, Connection.processCommand, Connection.canExecute]
  · simp [turn, Connection.handle, hf]

theorem settle_of_going {x : Session} (h : ¬ (x.frames = [] ∧ x.halting = true)) :
    settle x = x := by
  unfold settle
  rw [if_neg]
  simpa using h

/-- The `for` loop. -/
theorem run_nexts (fs : List Frame) {x : Session} {s : Store} (hrun : x.status = .running)
    (hfs : x.frames = fs) (hset : fs = [] → x.halting = false)
    (hadm : Admissible constantTimeEq clock x.log.length fs x.conn s) :
    let q := serve constantTimeEq clock x.log.length fs x.conn s
    let r := x.run constantTimeEq alloc clock (List.replicate fs.length .next) s
    Follows x x.parser (x.log.length + fs.length) q (q.stopped || x.halting) (r.1, r.2.1) := by
  induction fs generalizing x s with
  | nil =>
    intro q r
    have hh := hset rfl
    exact {
      conn := rfl
      store := rfl
      written := (List.append_nil _).symm
      closed := by intro he; simp [q, serve, hh] at he
      waits := fun _ => ⟨hrun, hfs, hh, rfl, rfl⟩ }
  | cons f fs ih =>
    intro q r
    have hstep : x.step constantTimeEq alloc (clock x.log.length) .next s =
        x.turn constantTimeEq (clock x.log.length) f fs s := by
      simp only [step, hrun, hfs]
    simp only [q, r, List.length_cons, List.replicate_succ, run, hstep, serve]
    by_cases hc : Continues f
    · obtain ⟨hr, hrest⟩ := hadm hc
      obtain ⟨reply, hnext, -⟩ := Connection.handle_continues hc hr
      have hturn : (x.turn constantTimeEq (clock x.log.length) f fs s).1 = _ := turn_continues hnext
      have hstore : (x.turn constantTimeEq (clock x.log.length) f fs s).2.1 =
          (x.conn.handle constantTimeEq f (clock x.log.length) s).store := rfl
      rw [hturn, hstore, if_pos hc, hnext]
      by_cases hend : fs = [] ∧ x.halting = true
      · obtain ⟨rfl, hh⟩ := hend
        simp only [settle, hh]
        exact {
          conn := rfl
          store := rfl
          written := by simp [run, serve, Next.reply]
          closed := fun _ => rfl
          waits := by intro he; simp at he }
      · rw [settle_of_going hend]
        have hfollows := ih (x := { x with
            conn := (x.conn.handle constantTimeEq f (clock x.log.length) s).conn, frames := fs,
            log := x.log ++ [f], written := x.written ++ reply.toBytes })
          hrun rfl (fun hnil => by simpa [hnil] using hend)
          (by rw [List.length_append]; exact hrest)
        simp only [List.length_append, List.length_singleton] at hfollows
        exact {
          conn := hfollows.conn
          store := hfollows.store
          written := by
            rw [hfollows.written]
            simp [Next.reply]
          closed := hfollows.closed
          waits := by
            intro he
            obtain ⟨h₁, h₂, h₃, h₄, h₅⟩ := hfollows.waits he
            exact ⟨h₁, h₂, h₃, h₄, by rw [h₅]; omega⟩ }
    · rw [turn_stops hc, if_neg hc, run_ended (by simp)]
      exact {
        conn := rfl
        store := rfl
        written := (List.append_nil _).symm
        closed := fun _ => rfl
        waits := by intro he; cases he }

/-- One read and the frames it gave. -/
theorem read_follows {x : Session} {s : Store} {buf : Bytes} {R : ParseResult} {p : Parser}
    (hrun : x.status = .running) (hframes : x.frames = []) (hne : buf ≠ [])
    (hparse : x.parser.parse alloc buf = some (R, p))
    (hadm : Admissible constantTimeEq clock x.log.length R.frames x.conn s) :
    let q := serve constantTimeEq clock x.log.length R.frames x.conn s
    let y := (x.step constantTimeEq alloc (clock x.log.length) (.read buf) s).1
    let r := y.run constantTimeEq alloc clock (List.replicate y.frames.length .next) s
    Follows x p (x.log.length + R.frames.length) q (q.stopped || R.error.isSome) (r.1, r.2.1) := by
  intro q y r
  have hy : y = settle { x with parser := p, frames := R.frames, halting := R.error.isSome } := by
    simp [y, step, hrun, hframes, read, hne, hparse]
  by_cases hend : R.frames = [] ∧ R.error.isSome = true
  · -- the parse error came before any frame
    have hy : y = { x with
        parser := p, frames := [], halting := true, status := .closed } := by
      rw [hy, settle]
      simp [hend.1, hend.2]
    have hq : q = ⟨[], x.conn, s, false⟩ := by simp only [q, hend.1, serve]
    simp only [r]
    rw [run_ended (by rw [hy]; simp), hq, hy]
    exact {
      conn := rfl
      store := rfl
      written := (List.append_nil _).symm
      closed := fun _ => rfl
      waits := by intro he; simp [hend.2] at he }
  · rw [settle_of_going hend] at hy
    have hfollows : let q := serve constantTimeEq clock y.log.length R.frames y.conn s
        let r := y.run constantTimeEq alloc clock (List.replicate R.frames.length .next) s
        Follows y y.parser (y.log.length + R.frames.length) q (q.stopped || y.halting)
          (r.1, r.2.1) :=
      run_nexts R.frames (by rw [hy]; exact hrun) (by rw [hy])
        (fun hnil => by rw [hy]; simpa [hnil] using hend) (by rw [hy]; exact hadm)
    have hlen : y.frames.length = R.frames.length := by rw [hy]
    simp only [r, hlen]
    rw [hy] at hfollows ⊢
    exact { hfollows with }

/-- The loop, over all reads. -/
theorem runReads_follows (reads : List Bytes) {x : Session} {s : Store} {R : ParseResult}
    {p : Parser} (hrun : x.status = .running) (hframes : x.frames = []) (hhalt : x.halting = false)
    (hwait : x.parser.parse .exact [] = some (.complete [], x.parser))
    (hne : ∀ b ∈ reads, b ≠ [])
    (hparse : x.parser.parse .exact reads.flatten = some (R, p))
    (hadm : Admissible constantTimeEq clock x.log.length R.frames x.conn s) :
    let q := serve constantTimeEq clock x.log.length R.frames x.conn s
    Follows x p (x.log.length + R.frames.length) q (q.stopped || R.error.isSome)
      (x.runReads constantTimeEq .exact clock reads s) := by
  induction reads generalizing x s R with
  | nil =>
    intro q
    rw [List.flatten_nil, hwait] at hparse
    cases hparse
    exact {
      conn := rfl
      store := rfl
      written := (List.append_nil _).symm
      closed := by intro he; simp [q, ParseResult.frames, ParseResult.error, serve] at he
      waits := fun _ => ⟨hrun, hframes, hhalt, rfl, rfl⟩ }
  | cons buf reads ih =>
    intro q
    obtain ⟨r₁, p₁, h₁⟩ := Parser.parse_exact_returns x.parser buf
    rw [List.flatten_cons] at hparse
    rw [runReads]
    cases he : r₁.error with
    | some e =>
      rw [Parser.parse_faulted _ h₁ he] at hparse
      obtain ⟨rfl, rfl⟩ := Prod.mk.inj (Option.some.inj hparse)
      have hfollows := read_follows hrun hframes (hne buf (by simp)) h₁ hadm
      have hclosed := hfollows.closed (by simp [he])
      rw [runReads_ended (by rw [hclosed]; simp)]
      exact { hfollows with waits := by intro hend; simp [he] at hend }
    | none =>
      obtain ⟨r₂, p₂, h₂⟩ := Parser.parse_exact_returns p₁ reads.flatten
      obtain ⟨r, hr, hrframes, hrerror⟩ := Parser.parse_then h₁ he h₂
      rw [hr] at hparse
      obtain ⟨rfl, rfl⟩ := Prod.mk.inj (Option.some.inj hparse)
      rw [hrframes] at hadm
      obtain ⟨hadm₁, hadm₂⟩ := admissible_append hadm
      have hfollows := read_follows hrun hframes (hne buf (by simp)) h₁ hadm₁
      simp only [he, Option.isSome_none, Bool.or_false] at hfollows
      generalize Session.run constantTimeEq .exact clock _ _ s = y at hfollows ⊢
      simp only [q, hrframes, hrerror]
      rw [serve_append]
      cases hst : (serve constantTimeEq clock x.log.length r₁.frames x.conn s).stopped with
      | true =>
        have hclosed := hfollows.closed hst
        rw [runReads_ended (by rw [hclosed]; simp)]
        simp only [hst, if_true]
        exact { hfollows with closed := fun _ => hclosed, waits := by intro hend; simp at hend }
      | false =>
        obtain ⟨hrun', hframes', hhalt', hparser', hlog'⟩ := hfollows.waits hst
        have hadm₂ := hadm₂ hst
        rw [← hfollows.conn, ← hfollows.store, ← hlog'] at hadm₂
        have hrest := ih hrun' hframes' hhalt'
          (by rw [hparser']; exact Parser.parse_nil_of_complete h₁ he)
          (fun b hb => hne b (by simp [hb])) (by rw [hparser']; exact h₂) hadm₂
        -- the second part of the conversation starts where the first has ended
        have hserve : serve constantTimeEq clock y.1.log.length r₂.frames y.1.conn y.2.1 = serve
            constantTimeEq clock (x.log.length + r₁.frames.length) r₂.frames
            (serve constantTimeEq clock x.log.length r₁.frames x.conn s).conn
            (serve constantTimeEq clock x.log.length r₁.frames x.conn s).store := by
          rw [hlog', ← hfollows.conn, ← hfollows.store]
        simp only [hserve] at hrest
        simp only [hst, Bool.false_eq_true, if_false]
        exact {
          conn := hrest.conn
          store := hrest.store
          written := by
            rw [hrest.written, hfollows.written, List.append_assoc, List.flatMap_append]
          closed := hrest.closed
          waits := by
            intro hend
            obtain ⟨g₁, g₂, g₃, g₄, g₅⟩ := hrest.waits hend
            exact ⟨g₁, g₂, g₃, g₄, by rw [g₅, hlog', List.length_append, Nat.add_assoc]⟩ }

theorem runReads_append (a b : List Bytes) (x : Session) (s : Store) :
    x.runReads constantTimeEq alloc clock (a ++ b) s =
      (x.runReads constantTimeEq alloc clock a s).1.runReads constantTimeEq alloc clock b
        (x.runReads constantTimeEq alloc clock a s).2 := by
  induction a generalizing x s with
  | nil => rfl
  | cons buf a ih =>
    rw [List.cons_append, runReads, runReads]
    exact ih _ _

/-- The end of the stream closes the connection, and changes nothing else that counts. -/
theorem runReads_eof {x : Session} {s : Store} (h : x.status = .closed ∨
    x.status = .running ∧ x.frames = []) :
    x.runReads constantTimeEq alloc clock [[]] s = ({ x with status := .closed }, s) := by
  rcases h with hc | ⟨hr, hf⟩
  · rw [runReads_ended (by rw [hc]; simp), ← hc]
  · simp [runReads, step, hr, hf, read, run]

end Session

/-- One request, one reply. For every stream, and every cutting of it into reads, the
connection writes the encodings of one reply for each frame before the first QUIT or
unreadable request, and is left with the flag and the store of those frames handled in order;
it has ended if there was such a frame, a parse error or an end of the stream. The replies
read back as they were. A request answered with an error has changed nothing. -/
theorem one_reply_per_request (constantTimeEq : Bytes → Bytes → Bool) (password : Option Bytes)
    (clock : Nat → Instant) (s : Store) (stream : Bytes) :
    ∃ R p, Parser.new.parse .exact stream = some (R, p) ∧
      let q := serve constantTimeEq clock 0 R.frames (.new password) s
      (Admissible constantTimeEq clock 0 R.frames (.new password) s →
        q.replies.length = (R.frames.takeWhile fun f => decide (Continues f)).length ∧
        (∀ reads : List Bytes, reads.flatten = stream → (∀ b ∈ reads, b ≠ []) →
          let r := (Session.start password).runReads constantTimeEq .exact clock reads s
          let r' := (Session.start password).runReads constantTimeEq .exact clock (reads ++ [[]]) s
          r.1.written = q.replies.flatMap Frame.toBytes ∧ r.1.conn = q.conn ∧ r.2 = q.store ∧
            r.1.status = (if q.stopped || R.error.isSome then .closed else .running) ∧
            r'.1 = { r.1 with status := .closed } ∧ r'.2 = r.2) ∧
        (s.Fits → (∀ f ∈ R.frames, f.Fits) →
          Parser.new.parse .exact (q.replies.flatMap Frame.toBytes) =
            some (.complete q.replies, .new))) ∧
      ∀ (f : Frame) (now : Instant) (x : Connection) (s : Store) (m : String),
        let h := x.handle constantTimeEq f now s
        h.next = .outcome (.respond (.simpleError m)) → h.conn = x ∧ h.store = s := by
  obtain ⟨R, p, hparse⟩ := Parser.parse_exact_returns .new stream
  refine ⟨R, p, hparse, ?_, fun f now x s m => Connection.handle_simpleError⟩
  intro hadm
  refine ⟨serve_length hadm, ?_, ?_⟩
  · intro reads hflat hne r r'
    have hwait : Parser.new.parse .exact [] = some (.complete [], .new) := by decide +kernel
    have hfollows : Session.Follows (.start password) p (0 + R.frames.length)
        (serve constantTimeEq clock 0 R.frames (.new password) s)
        ((serve constantTimeEq clock 0 R.frames (.new password) s).stopped || R.error.isSome) r :=
      Session.runReads_follows reads rfl rfl rfl hwait hne (by rw [hflat]; exact hparse) hadm
    have hstatus : r.1.status = .closed ∨ r.1.status = .running ∧ r.1.frames = [] := by
      by_cases hend : ((serve constantTimeEq clock 0 R.frames (.new password) s).stopped ||
          R.error.isSome) = true
      · exact .inl (hfollows.closed hend)
      · obtain ⟨h₁, h₂, -⟩ := hfollows.waits (by simpa using hend)
        exact .inr ⟨h₁, h₂⟩
    have heof : r' = ({ r.1 with status := .closed }, r.2) := by
      simp only [r']
      rw [Session.runReads_append, Session.runReads_eof hstatus]
    refine ⟨hfollows.written, hfollows.conn, hfollows.store, ?_, by rw [heof],
      by rw [heof]⟩
    split
    · exact hfollows.closed ‹_›
    · exact (hfollows.waits (Bool.eq_false_iff.mpr ‹_›)).1
  · intro hs hfit
    have hread := serve_readable hadm hs hfit
    rw [Parser.parse_iff_ends]
    exact Grammar.encodings_end _ (fun r hr => (hread r hr).1) (fun r hr => (hread r hr).2)

/-- A pipelined SET, GET and QUIT with more behind it, cut inside the requests. -/
theorem one_reply_per_request_pipelined :
    let request (args : List Bytes) := Frame.toBytes (.array (some (args.map fun a => .bulk (some a))))
    let stream := request [asBytes "SET", [107], [13, 10]] ++ request [asBytes "get", [107]] ++
      request [asBytes "QUIT"] ++ request [asBytes "DEL", [107]]
    let reads := [stream.take 3, (stream.drop 3).take 40, stream.drop 43]
    let r := (Session.start none).runReads (fun a b => a == b) .exact (fun _ => ⟨0, by decide⟩) reads .new
    r.1.written = ([.simpleString "OK", .bulk (some [13, 10])] : List Frame).flatMap Frame.toBytes ∧
      r.1.status = .closed := by
  intro request stream reads r
  obtain ⟨R, p, hparse, h, -⟩ :=
    one_reply_per_request (fun a b => a == b) none (fun _ => ⟨0, by decide⟩) .new stream
  have hR : Parser.new.parse .exact stream = some (.complete ((
      [[asBytes "SET", [107], [13, 10]], [asBytes "get", [107]], [asBytes "QUIT"],
        [asBytes "DEL", [107]]] : List (List Bytes)).map fun args =>
      .array (some (args.map fun a => .bulk (some a)))), .new) := by decide +kernel
  rw [hR] at hparse
  obtain ⟨rfl, rfl⟩ := Prod.mk.inj (Option.some.inj hparse)
  obtain ⟨-, hreads, -⟩ := h (by decide)
  obtain ⟨hwritten, -, -, hstatus, -⟩ := hreads reads (by decide) (by decide)
  exact ⟨hwritten.trans (by decide), hstatus.trans (by decide)⟩

end Redlike
