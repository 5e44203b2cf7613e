import Redlike.Resp.Inline

/-!
# What the parser can emit

Whatever the bytes, a frame that comes out of the parser is one that its own encoding
brings back: no simple payload holds a line end, every payload is as long as an `i64` can
say, and an array has exactly the elements its level had room for. The invariant is about
the levels of the stack; it holds between any two passes.
-/
namespace Redlike.Resp

open Lib.Incremental
open Grammar

/-- A frame that is read back from its encoding. -/
structure Frame.Encodable (f : Frame) : Prop where
  noCrlf : f.NoCrlf
  fits : f.Fits

theorem Frame.encodable_array {inner : List Frame} (hlen : inner.length < 2^63)
    (h : ∀ f ∈ inner, f.Encodable) : (Frame.array (some inner)).Encodable where
  noCrlf := by
    rw [Frame.NoCrlf, Frame.noCrlfAll_iff]
    exact fun f hf => (h f hf).noCrlf
  fits := by
    rw [Frame.Fits, Frame.fitsAll_iff]
    exact ⟨hlen, fun f hf => (h f hf).fits⟩

/-- An open array: it waits for an element, and an `i64` announced how many it gets. -/
structure Level.Open (L : Level) : Prop where
  room : L.frames.length < L.capacity
  small : L.capacity < 2^63
  frames : ∀ f ∈ L.frames, f.Encodable

theorem Level.Open.push_open {L : Level} {f : Frame} (h : L.Open) (hf : f.Encodable) :
    (L.push f).capacity < 2^63 ∧ ∀ g ∈ (L.push f).frames, g.Encodable := by
  simp only [Level.push, if_pos h.room]
  refine ⟨h.small, ?_⟩
  intro g hg
  rcases List.mem_append.mp hg with hg | hg
  · exact h.frames g hg
  · exact List.mem_singleton.mp hg ▸ hf

theorem Level.open_of_not_full {L : Level} (hfull : ¬ L.isFull = true) (hsmall : L.capacity < 2^63)
    (hframes : ∀ f ∈ L.frames, f.Encodable) : L.Open :=
  ⟨Level.room_of_not_full hfull, hsmall, hframes⟩

namespace Parser

variable {alloc : Allocator} {p q : Parser}

/-! ## Frames of one pass -/

theorem Built.encodable {f : Frame} {n : Nat} (hb : p.buf.length < 2^63) (h : p.Built f n) :
    f.Encodable := by
  cases h with
  | simpleString _ hline htext | simpleError _ hline htext =>
    refine ⟨?_, trivial⟩
    rw [Frame.NoCrlf, asBytes_of_fromUtf8 htext]
    exact (crlfPosition_eq_none _).mp (crlfPosition_spec hline).2.2
  | inline _ _ htext =>
    refine ⟨tokens_noCrlf _, tokens_fit ?_⟩
    rw [asBytes_of_fromUtf8 htext]
    exact Nat.lt_of_le_of_lt (List.length_take_le' _ _) hb
  | bulk => exact ⟨trivial, Nat.lt_of_le_of_lt (List.length_take_le' _ _) hb⟩
  | nilBulk | integer | nilArray => exact ⟨trivial, trivial⟩
  | emptyArray => exact Frame.encodable_array (by decide) (by simp)

/-- A frame that a pass returns is read back from its encoding. -/
theorem pass_encodable {f : Frame} (hb : p.buf.length < 2^63)
    (h : p.pass alloc = .ret (.ok (some f)) q) : f.Encodable := by
  cases passes_of h with
  | frame hf => exact hf.encodable hb

/-! ## The stack and the buffer in one pass -/

theorem usizeTryFrom_lt {v : Int64} {n : Nat} (h : usizeTryFrom v = some n) :
    n < 2^63 ∧ (n : Int) = v.toInt := by
  unfold usizeTryFrom at h
  split at h
  · cases h
    have := v.toInt_lt
    omega
  · cases h

/-- What a pass that goes on has done: it opened no level, or one with the room that an `i64`
announced; and if it awaits a payload, an `i64` announced its length. -/
structure Continued (alloc : Allocator) (p q : Parser) : Prop where
  stack : q.stack = p.stack ∨ ∃ n L, 0 < n ∧ n < 2^63 ∧ Level.withCapacity alloc n = some L ∧
    q.stack = L :: p.stack
  announced : ∀ n, q.state = .readingBulkString n → n < 2^63

theorem pass_continued (h : p.pass alloc = .again q) : Continued alloc p q := by
  cases passes_of h with
  | marked _ _ hstate =>
    refine ⟨.inl rfl, ?_⟩
    rintro n rfl
    simp [markedStates] at hstate
  | unmarked => exact ⟨.inl rfl, by simp⟩
  | blank => exact ⟨.inl rfl, by simp⟩
  | bulkLength _ _ hlen =>
    refine ⟨.inl rfl, ?_⟩
    intro n hn
    cases hn
    exact (usizeTryFrom_lt hlen).1
  | @opened _ length _ level _ _ hlength hpos hlevel =>
    obtain ⟨hlt, hv⟩ := usizeTryFrom_lt hlength
    exact ⟨.inr ⟨length, level, by omega, hlt, hlevel, rfl⟩, by simp⟩

theorem pass_again_buf (h : p.pass alloc = .again q) : q.buf.length ≤ p.buf.length := by
  have hm := pass_again_measure h
  unfold measure at hm
  split at hm <;> split at hm <;> omega

/-- A pass that fails leaves the stack and may have drained the buffer. -/
theorem pass_error {e : ParseError} (h : p.pass alloc = .ret (.error e) q) :
    q.stack = p.stack ∧ q.buf.length ≤ p.buf.length := by
  cases passes_of h with
  | fails n => exact ⟨rfl, by rw [List.length_drop]; omega⟩

/-! ## The invariant -/

theorem closeLoop_open {top : Level} {rest : List Level} (hsmall : top.capacity < 2^63)
    (hframes : ∀ f ∈ top.frames, f.Encodable) (hrest : ∀ L ∈ rest, L.Open) :
    (∀ L ∈ (closeLoop top rest).1, L.Open) ∧ ∀ f ∈ (closeLoop top rest).2, f.Encodable := by
  induction rest generalizing top with
  | nil =>
    have hclosed : (Frame.array (some top.frames)).Encodable :=
      Frame.encodable_array (Nat.lt_of_le_of_lt top.fits hsmall) hframes
    rw [closeLoop]
    split
    · exact ⟨by simp, by simpa using hclosed⟩
    · exact ⟨by simpa using Level.open_of_not_full ‹_› hsmall hframes, by simp⟩
  | cons next rest ih =>
    have hclosed : (Frame.array (some top.frames)).Encodable :=
      Frame.encodable_array (Nat.lt_of_le_of_lt top.fits hsmall) hframes
    obtain ⟨hnext, hrest⟩ := List.forall_mem_cons.mp hrest
    rw [closeLoop]
    split
    · obtain ⟨hs, hf⟩ := hnext.push_open hclosed
      exact ih hs hf hrest
    · refine ⟨List.forall_mem_cons.mpr ⟨Level.open_of_not_full ‹_› hsmall hframes, ?_⟩, by simp⟩
      exact List.forall_mem_cons.mpr ⟨hnext, hrest⟩

theorem accept_open {f : Frame} (hf : f.Encodable) (hp : ∀ L ∈ p.stack, L.Open) :
    (∀ L ∈ (p.accept f).1.stack, L.Open) ∧ ∀ g ∈ (p.accept f).2, g.Encodable := by
  unfold accept
  split
  · exact ⟨hp, by simpa using hf⟩
  · rename_i top rest hs
    rw [hs] at hp
    obtain ⟨htop, hrest⟩ := List.forall_mem_cons.mp hp
    obtain ⟨hsmall, hframes⟩ := htop.push_open hf
    exact closeLoop_open hsmall hframes hrest

theorem accept_buf (f : Frame) (p : Parser) : (p.accept f).1.buf = p.buf := by
  unfold accept
  split <;> rfl

theorem accept_state (f : Frame) (p : Parser) : (p.accept f).1.state = p.state := by
  unfold accept
  split <;> rfl

/-- Between two passes: the buffer is one a vector can hold, and every level is open. -/
structure Sound (p : Parser) : Prop where
  buffered : p.buf.length < 2^63
  levels : ∀ L ∈ p.stack, L.Open

theorem step_advance_buf {out : List Frame} (h : p.step alloc = .advance q out) :
    q.buf.length ≤ p.buf.length := by
  unfold step at h
  split at h
  all_goals cases h
  · exact pass_again_buf ‹_›
  · rw [accept_buf]
    exact Nat.le_of_lt (pass_frame ‹_›).shorter

theorem step_halt_buf {e : Fault} (h : p.step alloc = .halt e q) :
    q.buf.length ≤ p.buf.length := by
  unfold step at h
  split at h
  all_goals cases h
  · rename_i r hp
    exact (pass_error hp).2
  · exact Nat.le_refl _

theorem step_sound {out : List Frame} (hs : p.Sound) (h : p.step .exact = .advance q out) :
    q.Sound ∧ ∀ f ∈ out, f.Encodable := by
  have hbuf : q.buf.length < 2^63 := Nat.lt_of_le_of_lt (step_advance_buf h) hs.buffered
  unfold step at h
  split at h
  all_goals cases h
  · rename_i hp
    refine ⟨⟨hbuf, ?_⟩, by simp⟩
    rcases (pass_continued hp).stack with hstack | ⟨n, L, hpos, hlt, hL, hstack⟩
    · rw [hstack]
      exact hs.levels
    · rw [hstack]
      cases hL
      exact List.forall_mem_cons.mpr ⟨⟨hpos, hlt, by simp⟩, hs.levels⟩
  · rename_i f r hp
    have hlevels : ∀ L ∈ r.stack, L.Open := by
      rw [(pass_frame hp).stack]
      exact hs.levels
    obtain ⟨hopen, hout⟩ := accept_open (pass_encodable hs.buffered hp) hlevels
    exact ⟨⟨hbuf, hopen⟩, hout⟩

theorem step_halt_sound {e : Fault} (hs : p.Sound) (h : p.step .exact = .halt e q) : q.Sound := by
  refine ⟨Nat.lt_of_le_of_lt (step_halt_buf h) hs.buffered, ?_⟩
  unfold step at h
  split at h
  all_goals cases h
  · rename_i r hp
    show ∀ L ∈ r.stack, L.Open
    rw [(pass_error hp).1]
    exact hs.levels
  · exact hs.levels

/-! ## Calls -/

theorem parse_buf {input : Bytes} {r : ParseResult} (h : p.parse alloc input = some (r, q)) :
    q.buf.length ≤ (p.feed input).buf.length := by
  have hkeep := (parse_iff_ends.mp h).keeps (I := fun s => s.buf.length ≤ (p.feed input).buf.length)
    (P := fun _ => True)
    (fun hs hstep => ⟨Nat.le_trans (step_advance_buf hstep) hs, fun _ _ => trivial⟩)
    (fun hs hstep => Nat.le_trans (step_halt_buf hstep) hs)
  exact (hkeep (Nat.le_refl _)).1

/-- It is enough that all the bytes together could be buffered. -/
theorem buffered_of_length {chunks : List Bytes}
    (h : p.buf.length + chunks.flatten.length < 2^63) : Buffered alloc p chunks := by
  induction chunks generalizing p with
  | nil => trivial
  | cons chunk chunks ih =>
    rw [List.flatten_cons, List.length_append] at h
    have hfeed : (p.feed chunk).buf.length = p.buf.length + chunk.length := List.length_append
    refine ⟨by omega, ?_⟩
    intro r q hq
    have hq := parse_buf hq
    exact ih (by omega)

theorem parse_sound {input : Bytes} {r : ParseResult} (hs : (p.feed input).Sound)
    (h : p.parse .exact input = some (r, q)) : q.Sound ∧ ∀ f ∈ r.frames, f.Encodable :=
  (parse_iff_ends.mp h).keeps step_sound step_halt_sound hs

theorem parseAll_encodable {chunks : List Bytes} {rs : List ParseResult} (hs : p.Sound)
    (hb : Buffered .exact p chunks) (h : p.parseAll .exact chunks = some (rs, q)) :
    ∀ f ∈ rs.flatMap ParseResult.frames, f.Encodable := by
  induction chunks generalizing p rs with
  | nil => cases h; simp
  | cons chunk chunks ih =>
    obtain ⟨r, t, hr⟩ := parse_exact_returns p chunk
    obtain ⟨ts, u, hts⟩ := parseAll_exact_returns t chunks
    rw [parseAll, hr] at h
    dsimp only at h
    rw [hts] at h
    cases h
    obtain ⟨hsound, hframes⟩ := parse_sound ⟨hb.1, hs.levels⟩ hr
    intro f hf
    rw [List.flatMap_cons, List.mem_append] at hf
    rcases hf with hf | hf
    · exact hframes f hf
    · exact ih hsound (hb.2 r t hr) hts f hf

theorem new_sound : new.Sound := ⟨by decide, by simp [new]⟩

/-- The encodings of frames, and after them at most a part of one more, are read back as these
frames, in whatever pieces they come. -/
theorem parseAll_encodings {fs : List Frame} (h : ∀ f ∈ fs, f.Encodable) {part : Bytes}
    (hpart : part = [] ∨ ∃ f : Frame, f.Encodable ∧ part <+: f.toBytes ∧ part ≠ f.toBytes)
    {chunks : List Bytes} (hc : chunks.flatten = fs.flatMap Frame.toBytes ++ part) :
    ∃ results q, new.parseAll .exact chunks = some (results, q) ∧
      (∀ r ∈ results, ∃ frames, r = .complete frames) ∧
      results.flatMap ParseResult.frames = fs ∧ (part = [] → q = new) := by
  by_cases hnil : part = []
  · subst hnil
    rw [List.append_nil] at hc
    obtain ⟨q, hq, hnew, hframes⟩ := parseAll_part (fun f hf => (h f hf).noCrlf)
      (fun f hf => (h f hf).fits) (t := []) (by rwa [List.append_nil])
    refine ⟨_, q, hq, fun r => deliveries_complete, ?_, fun _ => hnew rfl⟩
    rw [hframes, hc, deliveredIn_all (Nat.le_refl 0) (Nat.le_of_eq (Nat.zero_add _))]
  · -- one more frame, and its last byte is not there
    obtain ⟨f, hfe, hbegins, hne⟩ := hpart.resolve_left hnil
    have hlen : part.length < f.toBytes.length :=
      Nat.lt_of_le_of_ne hbegins.length_le fun h => hne (hbegins.eq_of_length h)
    obtain ⟨t, ht⟩ := hbegins
    have hall : ∀ g ∈ fs ++ [f], g.Encodable := by
      intro g hg
      rcases List.mem_append.mp hg with hg | hg
      · exact h g hg
      · exact List.mem_singleton.mp hg ▸ hfe
    have hcut : chunks.flatten ++ t = (fs ++ [f]).flatMap Frame.toBytes := by simp [hc, ← ht]
    obtain ⟨q, hq, -, hframes⟩ := parseAll_part (fun g hg => (hall g hg).noCrlf)
      (fun g hg => (hall g hg).fits) hcut
    refine ⟨_, q, hq, fun r => deliveries_complete, ?_, fun h => absurd h hnil⟩
    rw [hframes, hc, deliveredIn_append, deliveredIn_all (Nat.le_refl 0) (by simp), deliveredIn,
      if_neg (by simp; omega)]
    exact List.append_nil fs

/-- Whatever a fresh parser emits for whatever chunks, each frame is read back from its
encoding, and the encodings of all of them together are read back as the same frames. -/
theorem encode_undoes_decode (chunks : List Bytes) (hb : Buffered .exact new chunks) :
    ∃ results p, new.parseAll .exact chunks = some (results, p) ∧
      (∀ f ∈ results.flatMap ParseResult.frames,
        new.parse .exact f.toBytes = some (.complete [f], new)) ∧
      new.parse .exact ((results.flatMap ParseResult.frames).flatMap Frame.toBytes) =
        some (.complete (results.flatMap ParseResult.frames), new) := by
  obtain ⟨results, p, hp⟩ := parseAll_exact_returns new chunks
  have hall := parseAll_encodable new_sound hb hp
  refine ⟨results, p, hp, ?_, ?_⟩
  · intro f hf
    apply parse_of_frame
    have h := frame_toBytes f (hall f hf).noCrlf (hall f hf).fits []
    rwa [List.append_nil] at h
  · exact parse_iff_ends.mpr
      (encodings_end _ (fun f hf => (hall f hf).noCrlf) fun f hf => (hall f hf).fits)

/-- An inline request, a length with a sign and zeros, and a chunk cut inside an array. -/
theorem encode_undoes_decode_mixed :
    ∃ results p, new.parseAll .exact [asBytes "  PING \r\n*+02\r\n:-", asBytes "007\r\n$-1\r\n"] =
        some (results, p) ∧
      results.flatMap ParseResult.frames =
        [.array (some [.bulk (some (asBytes "PING"))]), .array (some [.integer (-7), .bulk none])] ∧
      ∀ f ∈ results.flatMap ParseResult.frames,
        new.parse .exact f.toBytes = some (.complete [f], new) := by
  have hrun : ∃ results p,
      new.parseAll .exact [asBytes "  PING \r\n*+02\r\n:-", asBytes "007\r\n$-1\r\n"] =
        some (results, p) ∧ results.flatMap ParseResult.frames =
        [.array (some [.bulk (some (asBytes "PING"))]),
          .array (some [.integer (-7), .bulk none])] := by
    refine ⟨[.complete [.array (some [.bulk (some (asBytes "PING"))])],
      .complete [.array (some [.integer (-7), .bulk none])]], new, ?_, rfl⟩
    decide +kernel
  obtain ⟨results, p, hp, hall, -⟩ := encode_undoes_decode
    [asBytes "  PING \r\n*+02\r\n:-", asBytes "007\r\n$-1\r\n"]
    (buffered_of_length (by decide))
  obtain ⟨results', p', hp', hframes⟩ := hrun
  rw [hp] at hp'
  cases hp'
  exact ⟨results, p, hp, hframes, hall⟩

end Parser
end Redlike.Resp
