import Redlike.Lib.Incremental
import Redlike.Resp.Parser

/-!
# The parser is a resumable machine

One step is one pass of the inner loop together with what `parse` does with its
answer. A pass that does not ask for more input is not changed by input that
arrives later, so the parser is a resumable machine and its calls are maximal
runs of it. How the client's bytes are cut into reads is then invisible.
-/
namespace Redlike.Resp

open Lib.Incremental

/-- Why a parser stops for good: a parse error, or a refused allocation. -/
inductive Fault where
  | parse (e : ParseError)
  | capacity
  deriving DecidableEq

namespace Parser

variable {alloc : Allocator}

/-- The pass asks for more input. -/
def Pass.waits : Pass → Bool
  | .ret (.ok none) _ => true
  | _ => false

def Pass.feed (a : Bytes) : Pass → Pass
  | .again p => .again (p.feed a)
  | .ret result p => .ret result (p.feed a)
  | .panicked => .panicked

theorem feed_nil (p : Parser) : p.feed [] = p := by simp [feed]

theorem feed_append (p : Parser) (a b : Bytes) : (p.feed a).feed b = p.feed (a ++ b) := by
  simp [feed]

private theorem readStart_feed {p : Parser} (a : Bytes) (h : p.readStart.waits = false) :
    (p.feed a).readStart = p.readStart.feed a := by
  unfold readStart feed
  cases hb : p.buf with
  | nil => simp [readStart, hb, Pass.waits] at h
  | cons b rest =>
    simp only [List.cons_append]
    repeat' split
    all_goals simp [Pass.feed, feed]

private theorem readSimple_feed {make : String → Frame} {p : Parser} (a : Bytes)
    (h : (p.readSimple make).waits = false) :
    (p.feed a).readSimple make = (p.readSimple make).feed a := by
  unfold readSimple at h ⊢
  cases hp : crlfPosition p.buf with
  | none => simp [hp, Pass.waits] at h
  | some pos =>
    have hl := (crlfPosition_spec hp).2.1
    have ht : (p.buf ++ a).take pos = p.buf.take pos := List.take_append_of_le_length (by omega)
    have hd : (p.buf ++ a).drop pos = p.buf.drop pos ++ a :=
      List.drop_append_of_le_length (by omega)
    have hd2 : (p.buf.drop pos ++ a).drop 2 = (p.buf.drop pos).drop 2 ++ a :=
      List.drop_append_of_le_length (by simp; omega)
    simp only [feed, crlfPosition_append a hp, ht, hd, hd2]
    split <;> rfl

private theorem readInline_feed {p : Parser} (a : Bytes) (h : p.readInline.waits = false) :
    (p.feed a).readInline = p.readInline.feed a := by
  unfold readInline at h ⊢
  cases hp : memchr lf p.buf with
  | none => simp [hp, Pass.waits] at h
  | some pos =>
    have hl := memchr_lt hp
    have ht : (p.buf ++ a).take pos = p.buf.take pos := List.take_append_of_le_length (by omega)
    have hd : (p.buf ++ a).drop pos = p.buf.drop pos ++ a :=
      List.drop_append_of_le_length (by omega)
    have hd1 : (p.buf.drop pos ++ a).drop 1 = (p.buf.drop pos).drop 1 ++ a :=
      List.drop_append_of_le_length (by simp; omega)
    simp only [feed, memchr_append a hp, ht, hd, hd1]
    split
    · rfl
    · split <;> rfl

private theorem readLength_feed {p : Parser} (a : Bytes) (h : p.readLength.1 ≠ .ok none) :
    (p.feed a).readLength = (p.readLength.1, p.readLength.2.feed a) := by
  have htake : ∀ {pos}, crlfPosition p.buf = some pos →
      crlfPosition (p.feed a).buf = some pos ∧ (p.feed a).buf.take pos = p.buf.take pos ∧
      (p.feed a).buf.drop (pos + 2) = p.buf.drop (pos + 2) ++ a := by
    intro pos hp
    have hl := (crlfPosition_spec hp).2.1
    exact ⟨crlfPosition_append a hp, List.take_append_of_le_length (by omega),
      List.drop_append_of_le_length (by omega)⟩
  rcases p.readLength_cases with ⟨_, hr⟩ | ⟨pos, hp, hv, hr⟩ | ⟨pos, v, hp, hv, hr⟩
  · rw [hr] at h; exact absurd rfl h
  all_goals
    obtain ⟨hp', ht, hd⟩ := htake hp
    rw [hr]
    rw [← ht] at hv
    rcases (p.feed a).readLength_cases with ⟨hp'', _⟩ | ⟨k, hk, hv', hr'⟩ | ⟨k, w, hk, hv', hr'⟩
  · rw [hp'] at hp''; cases hp''
  · exact hr'
  · rw [hp'] at hk; cases hk
    rw [hv] at hv'; cases hv'
  · rw [hp'] at hp''; cases hp''
  · rw [hp'] at hk; cases hk
    rw [hv] at hv'; cases hv'
  · rw [hp'] at hk; cases hk
    rw [hv] at hv'; cases hv'
    rw [hr', hd]
    rfl

private theorem readBulkLength_feed {p : Parser} (a : Bytes)
    (h : p.readBulkLength.waits = false) : (p.feed a).readBulkLength = p.readBulkLength.feed a := by
  have hn : p.readLength.1 ≠ .ok none := by
    intro he
    rw [readBulkLength, show p.readLength = (.ok none, p.readLength.2) from Prod.ext he rfl] at h
    cases h
  unfold readBulkLength
  rw [readLength_feed a hn]
  generalize p.readLength = answer at hn ⊢
  match answer with
  | (.error e, q) => rfl
  | (.ok none, q) => exact absurd rfl hn
  | (.ok (some v), q) =>
    dsimp only
    repeat' split
    all_goals rfl

private theorem readInteger_feed {p : Parser} (a : Bytes)
    (h : p.readInteger.waits = false) : (p.feed a).readInteger = p.readInteger.feed a := by
  have hn : p.readLength.1 ≠ .ok none := by
    intro he
    rw [readInteger, show p.readLength = (.ok none, p.readLength.2) from Prod.ext he rfl] at h
    cases h
  unfold readInteger
  rw [readLength_feed a hn]
  generalize p.readLength = answer at hn ⊢
  match answer with
  | (.error e, q) => rfl
  | (.ok none, q) => exact absurd rfl hn
  | (.ok (some v), q) => rfl

private theorem readArrayLength_feed {p : Parser} (a : Bytes)
    (h : (p.readArrayLength alloc).waits = false) :
    (p.feed a).readArrayLength alloc = (p.readArrayLength alloc).feed a := by
  have hn : p.readLength.1 ≠ .ok none := by
    intro he
    rw [readArrayLength, show p.readLength = (.ok none, p.readLength.2) from Prod.ext he rfl] at h
    cases h
  unfold readArrayLength
  rw [readLength_feed a hn]
  generalize p.readLength = answer at hn ⊢
  match answer with
  | (.error e, q) => rfl
  | (.ok none, q) => exact absurd rfl hn
  | (.ok (some v), q) =>
    dsimp only
    repeat' split
    all_goals rfl

private theorem readBulkString_feed {p : Parser} {len : Nat} (a : Bytes)
    (h : (p.readBulkString len).waits = false) :
    (p.feed a).readBulkString len = (p.readBulkString len).feed a := by
  unfold readBulkString at h ⊢
  by_cases hl : len + 2 > p.buf.length
  · simp [hl, Pass.waits] at h
  · have ht : (p.buf ++ a).take len = p.buf.take len := List.take_append_of_le_length (by omega)
    have hd : (p.buf ++ a).drop len = p.buf.drop len ++ a :=
      List.drop_append_of_le_length (by omega)
    have hd2 : (p.buf.drop len ++ a).drop 2 = (p.buf.drop len).drop 2 ++ a :=
      List.drop_append_of_le_length (by simp; omega)
    have h0 : (p.buf ++ a)[len]? = p.buf[len]? := List.getElem?_append_left (by omega)
    have h1 : (p.buf ++ a)[len+1]? = p.buf[len+1]? := List.getElem?_append_left (by omega)
    have hl' : ¬ len + 2 > (p.buf ++ a).length := by rw [List.length_append]; omega
    simp only [feed, if_neg hl, if_neg hl', ht, hd, hd2, h0, h1]
    split <;> rfl

/-- A pass that does not wait is not changed by input that arrives later. -/
theorem pass_feed {p : Parser} (a : Bytes) (h : (p.pass alloc).waits = false) :
    (p.feed a).pass alloc = (p.pass alloc).feed a := by
  have hs : (p.feed a).state = p.state := rfl
  unfold pass at h ⊢
  rw [hs]
  cases hst : p.state with
  | start => rw [hst] at h; exact readStart_feed a h
  | readingSimpleString => rw [hst] at h; exact readSimple_feed a h
  | readingSimpleError => rw [hst] at h; exact readSimple_feed a h
  | readingBulkLength => rw [hst] at h; exact readBulkLength_feed a h
  | readingBulkString len => rw [hst] at h; exact readBulkString_feed a h
  | readingInteger => rw [hst] at h; exact readInteger_feed a h
  | readingInline => rw [hst] at h; exact readInline_feed a h
  | readingArrayLength => rw [hst] at h; exact readArrayLength_feed a h
  | error e => rfl

/-- One pass, and what `parse` does with its answer. -/
def step (alloc : Allocator) (p : Parser) : Step Parser Frame Fault :=
  match p.pass alloc with
  | .again q => .advance q []
  | .ret (.ok none) _ => .wait
  | .ret (.ok (some f)) q => .advance (q.accept f).1 (q.accept f).2
  | .ret (.error e) q => .halt (.parse e) (q.setError e)
  | .panicked => .halt .capacity p

theorem accept_feed (f : Frame) (p : Parser) (a : Bytes) :
    (p.feed a).accept f = ((p.accept f).1.feed a, (p.accept f).2) := by
  unfold accept
  rw [show (p.feed a).stack = p.stack from rfl]
  split <;> rfl

theorem step_wait {p : Parser} : p.step alloc = .wait ↔ (p.pass alloc).waits = true := by
  unfold step
  match p.pass alloc with
  | .again _ | .panicked | .ret (.error _) _ | .ret (.ok none) _ | .ret (.ok (some _)) _ =>
    simp [Pass.waits]

theorem step_feed {p : Parser} (a : Bytes) (h : p.step alloc ≠ .wait) :
    (p.feed a).step alloc = match p.step alloc with
      | .wait => .wait
      | .advance q out => .advance (q.feed a) out
      | .halt e q => .halt e (q.feed a) := by
  have hw : (p.pass alloc).waits = false := by
    rw [← Bool.not_eq_true, ← step_wait]
    exact h
  unfold step
  rw [pass_feed a hw]
  match hp : p.pass alloc with
  | .again q => rfl
  | .ret (.ok none) q => rw [hp] at hw; cases hw
  | .ret (.ok (some f)) q => simp only [Pass.feed, accept_feed]
  | .ret (.error e) q => rfl
  | .panicked => rfl

theorem step_error {p : Parser} {e : ParseError} (h : p.state = .error e) :
    p.step alloc = .halt (.parse e) p := by
  have hp : p.pass alloc = .ret (.error e) p := by unfold pass; rw [h]
  unfold step
  rw [hp]
  simp [setError, ← h]

def machine (alloc : Allocator) : Machine Parser UInt8 Frame Fault where
  feed := feed
  step := step alloc
  feed_nil := feed_nil
  feed_append := feed_append
  advance_feed a h := by rw [step_feed a (by rw [h]; simp), h]
  halt_feed a h := by rw [step_feed a (by rw [h]; simp), h]
  halt_sticky := by
    intro p q e h
    unfold step at h
    match hp : p.pass alloc with
    | .again r => rw [hp] at h; cases h
    | .ret (.ok none) r => rw [hp] at h; cases h
    | .ret (.ok (some f)) r => rw [hp] at h; cases h
    | .ret (.error e) r =>
      rw [hp] at h
      cases h
      exact step_error rfl
    | .panicked =>
      rw [hp] at h
      cases h
      unfold step
      rw [hp]

/-- The verdict of a run that ends in a `ParseResult`. -/
def verdict (r : ParseResult) : Option Fault := r.error.map .parse

/-- A waiting pass leaves the parser as it is. -/
theorem pass_waits {p q : Parser} (h : p.pass alloc = .ret (.ok none) q) : q = p := by
  cases passes_of h with
  | waits => rfl

/-- What a result of `try_parse_one_frame` says about the machine. -/
def Tried (alloc : Allocator) (p : Parser) :
    Option (Except ParseError (Option Frame) × Parser) → Prop
  | none => ∃ q, Ends (machine alloc) p [] (some .capacity) q
  | some (.ok (some f), q) => Runs (machine alloc) p (q.accept f).2 (q.accept f).1
  | some (.ok none, q) => Ends (machine alloc) p [] none q
  | some (.error e, q) => Ends (machine alloc) p [] (some (.parse e)) (q.setError e)

theorem tryLoop_tried (p : Parser) : Tried alloc p (p.tryLoop alloc) := by
  induction p using tryLoop.induct alloc with
  | case1 p q hp ih =>
    have hs : Runs (machine alloc) p [] q := .single (show p.step alloc = _ by rw [step, hp])
    rw [tryLoop, hp]
    dsimp only
    rcases ht : q.tryLoop alloc with _ | ⟨e | _ | f, r⟩
    · rw [ht] at ih
      exact ih.imp fun _ h => .of_runs hs h
    · rw [ht] at ih
      exact .of_runs hs ih
    · rw [ht] at ih
      exact .of_runs hs ih
    · rw [ht] at ih
      exact hs.trans ih
  | case2 p result q hp =>
    rw [tryLoop, hp]
    dsimp only
    rcases result with e | _ | f
    · exact .of_halt (show p.step alloc = _ by rw [step, hp])
    · rw [pass_waits hp]
      exact .of_wait (show p.step alloc = _ by rw [step, hp])
    · exact .single (show p.step alloc = _ by rw [step, hp])
  | case3 p hp =>
    rw [tryLoop, hp]
    exact ⟨p, .of_halt (show p.step alloc = _ by rw [step, hp])⟩

theorem tryParseOneFrame_tried (alloc : Allocator) (p : Parser) : Tried alloc p (p.tryParseOneFrame alloc) := by
  unfold tryParseOneFrame
  split
  · rename_i e he
    have hs : p.setError e = p := by simp [setError, ← he]
    show Ends (machine alloc) p [] _ (p.setError e)
    rw [hs]
    exact .of_halt (step_error he)
  · exact tryLoop_tried p

/-- What a result of `parse`, called with `output` already collected, says about
the machine. -/
def Parsed (alloc : Allocator) (p : Parser) (output : List Frame) :
    Option (ParseResult × Parser) → Prop
  | none => ∃ out q, Ends (machine alloc) p out (some .capacity) q
  | some (r, q) => ∃ out, r.frames = output ++ out ∧ Ends (machine alloc) p out (verdict r) q

theorem parseLoop_parsed (alloc : Allocator) (p : Parser) (output : List Frame) :
    Parsed alloc p output (p.parseLoop alloc output) := by
  induction p, output using parseLoop.induct alloc with
  | case1 p output hp =>
    have ht := tryParseOneFrame_tried alloc p
    rw [hp] at ht
    rw [parseLoop, hp]
    exact ⟨[], ht⟩
  | case2 p output f q hp ih =>
    have ht := tryParseOneFrame_tried alloc p
    rw [hp] at ht
    rw [parseLoop, hp]
    dsimp only
    match hl : (q.accept f).1.parseLoop alloc (output ++ (q.accept f).2) with
    | none =>
      rw [hl] at ih
      obtain ⟨out, r, he⟩ := ih
      exact ⟨_, r, .of_runs ht he⟩
    | some (result, r) =>
      rw [hl] at ih
      obtain ⟨out, hf, he⟩ := ih
      exact ⟨_, by rw [hf, List.append_assoc], .of_runs ht he⟩
  | case3 p output q hp =>
    have ht := tryParseOneFrame_tried alloc p
    rw [hp] at ht
    rw [parseLoop, hp]
    exact ⟨[], (List.append_nil _).symm, ht⟩
  | case4 p output e q hp =>
    have ht := tryParseOneFrame_tried alloc p
    rw [hp] at ht
    rw [parseLoop, hp]
    exact ⟨[], (List.append_nil _).symm, ht⟩

theorem result_ext {r s : ParseResult} (hf : r.frames = s.frames) (hv : verdict r = verdict s) :
    r = s := by
  cases r <;> cases s <;> simp_all [verdict, ParseResult.frames, ParseResult.error]

/-- A call of `parse` is exactly a maximal run of the machine. -/
theorem parse_iff_ends {p q : Parser} {input : Bytes} {r : ParseResult} :
    p.parse alloc input = some (r, q) ↔
      Ends (machine alloc) (p.feed input) r.frames (verdict r) q := by
  have hp := parseLoop_parsed alloc (p.feed input) []
  unfold parse
  match hl : (p.feed input).parseLoop alloc [] with
  | none =>
    rw [hl] at hp
    obtain ⟨out, s, hs⟩ := hp
    constructor
    · intro h
      cases h
    · intro h
      have hv := (h.unique hs).2.1
      cases r <;> simp [verdict, ParseResult.error] at hv
  | some (r', q') =>
    rw [hl] at hp
    obtain ⟨out, hf, hs⟩ := hp
    rw [List.nil_append] at hf
    subst hf
    constructor
    · intro h
      cases h
      exact hs
    · intro h
      obtain ⟨hf, hv, hq⟩ := hs.unique h
      rw [result_ext hf hv, hq]

theorem step_exact {p q : Parser} : p.step .exact ≠ .halt .capacity q := by
  have hp : p.pass .exact ≠ .panicked := by
    unfold pass readStart readSimple readInline readBulkLength readBulkString readInteger
      readArrayLength
    intro h
    dsimp only at h
    repeat' split at h
    all_goals cases h
    rename_i hw
    cases hw
  unfold step
  match hm : p.pass .exact with
  | .again _ | .ret (.ok none) _ | .ret (.ok (some _)) _ | .ret (.error _) _ => simp
  | .panicked => exact absurd hm hp

/-- With an allocator that never refuses, `parse` returns. -/
theorem parse_exact_returns (p : Parser) (input : Bytes) :
    ∃ r q, p.parse .exact input = some (r, q) := by
  have hp := parseLoop_parsed .exact (p.feed input) []
  unfold parse
  match hl : (p.feed input).parseLoop .exact [] with
  | some (r, q) => exact ⟨r, q, rfl⟩
  | none =>
    rw [hl] at hp
    obtain ⟨out, s, u, _, hs⟩ := hp
    exact absurd hs step_exact

/-- A call after one without error goes on where that one stopped. -/
theorem parse_then {p p₁ p₂ : Parser} {a b : Bytes} {r₁ r₂ : ParseResult}
    (h₁ : p.parse alloc a = some (r₁, p₁)) (he : r₁.error = none)
    (h₂ : p₁.parse alloc b = some (r₂, p₂)) :
    ∃ r, p.parse alloc (a ++ b) = some (r, p₂) ∧ r.frames = r₁.frames ++ r₂.frames ∧
      r.error = r₂.error := by
  have hends := parse_iff_ends.mp h₁
  rw [show verdict r₁ = none by rw [verdict, he]; rfl] at hends
  have hresume : Ends (machine alloc) (p.feed (a ++ b)) (r₁.frames ++ r₂.frames) (verdict r₂) p₂ := by
    rw [← feed_append]
    exact hends.resume (parse_iff_ends.mp h₂)
  cases r₂ with
  | complete fs => exact ⟨.complete (r₁.frames ++ fs), parse_iff_ends.mpr hresume, rfl, rfl⟩
  | partialResult fs e =>
    exact ⟨.partialResult (r₁.frames ++ fs) e, parse_iff_ends.mpr hresume, rfl, rfl⟩

/-- Bytes after an error change nothing in the result. -/
theorem parse_faulted {p p₁ : Parser} {a : Bytes} {r : ParseResult} {e : ParseError} (b : Bytes)
    (h : p.parse alloc a = some (r, p₁)) (he : r.error = some e) :
    p.parse alloc (a ++ b) = some (r, p₁.feed b) := by
  rw [parse_iff_ends, ← feed_append]
  have hv : verdict r = some (.parse e) := by rw [verdict, he]; rfl
  have hends := parse_iff_ends.mp h
  rw [hv] at hends ⊢
  exact hends.absorb b

/-- A call without error leaves a parser that waits. -/
theorem parse_nil_of_complete {p q : Parser} {a : Bytes} {r : ParseResult}
    (h : p.parse alloc a = some (r, q)) (he : r.error = none) :
    q.parse alloc [] = some (.complete [], q) := by
  have hends := parse_iff_ends.mp h
  rw [show verdict r = none by rw [verdict, he]; rfl] at hends
  obtain ⟨u, -, hwait, rfl⟩ := hends
  rw [parse_iff_ends, feed_nil]
  exact .of_wait hwait

theorem parseAll_exact_returns (p : Parser) (chunks : List Bytes) :
    ∃ rs q, p.parseAll .exact chunks = some (rs, q) := by
  induction chunks generalizing p with
  | nil => exact ⟨[], p, rfl⟩
  | cons chunk chunks ih =>
    obtain ⟨r, q, hr⟩ := parse_exact_returns p chunk
    obtain ⟨rs, s, hs⟩ := ih q
    exact ⟨r :: rs, s, by rw [parseAll, hr]; dsimp only; rw [hs]⟩

theorem parseAll_chunk_runs {p q : Parser} {chunks : List Bytes} {rs : List ParseResult}
    (h : p.parseAll alloc chunks = some (rs, q)) :
    ChunkRuns (machine alloc) p chunks (rs.map fun r => (r.frames, verdict r)) q := by
  induction chunks generalizing p rs with
  | nil => cases h; exact .nil _
  | cons chunk chunks ih =>
    rw [parseAll] at h
    match hp : p.parse alloc chunk with
    | none => rw [hp] at h; cases h
    | some (r, s) =>
      rw [hp] at h
      dsimp only at h
      match hs : s.parseAll alloc chunks with
      | none => rw [hs] at h; cases h
      | some (rs', t) =>
        rw [hs] at h
        cases h
        exact .cons (parse_iff_ends.mp hp) (ih hs)

private theorem verdict_parse {r : ParseResult} {e : ParseError}
    (h : verdict r = some (.parse e)) : r = .partialResult r.frames e := by
  cases r with
  | complete => cases h
  | partialResult => cases h; rfl

/-- Chunking invariance. Calls of `parse` on the chunks of a byte string emit
together what one call on the whole string emits, end in the same parser and
with the same error, and once a call has failed every later one fails alike. -/
theorem parse_chunking (chunks : List Bytes) (hne : chunks ≠ []) :
    ∃ results last r p,
      new.parseAll .exact chunks = some (results, p) ∧
      new.parse .exact chunks.flatten = some (r, p) ∧
      results.flatMap ParseResult.frames = r.frames ∧
      results.getLast? = some last ∧ last.error = r.error ∧
      ∀ i j fs e, i < j → j < results.length → results[i]? = some (.partialResult fs e) →
        results[j]? = some (.partialResult [] e) := by
  obtain ⟨results, p, hall⟩ := parseAll_exact_returns new chunks
  obtain ⟨r, q, hone⟩ := parse_exact_returns new chunks.flatten
  have hruns := parseAll_chunk_runs hall
  have hends := parse_iff_ends.mp hone
  obtain ⟨c, cs, rfl⟩ := List.exists_cons_of_ne_nil hne
  obtain ⟨last, hlast, hends'⟩ := chunk_runs_ends hruns
  obtain ⟨hf, hv, hp⟩ := hends'.unique hends
  rw [List.getLast?_map, Option.map_eq_some_iff] at hlast
  obtain ⟨last, hl, rfl⟩ := hlast
  subst hp
  refine ⟨results, last, r, p, hall, hone, ?_, hl, ?_, ?_⟩
  · rw [← hf, List.flatMap_map]
  · exact Option.map_injective (fun _ _ h => Fault.parse.inj h) hv
  · intro i j fs e hij hj hi
    have hmap : (results.map fun r => (r.frames, verdict r))[i]? = some (fs, some (.parse e)) := by
      rw [List.getElem?_map, hi]
      rfl
    have hfault := chunk_runs_faulted hruns hij hmap (by simpa using hj)
    rw [List.getElem?_map, Option.map_eq_some_iff] at hfault
    obtain ⟨s, hs, he⟩ := hfault
    injection he with hfs hvs
    rw [hs, verdict_parse hvs, hfs]

/-- Cutting inside an array, between CR and LF and after an error. -/
theorem parse_chunking_cut :
    ([[42, 49, 13], [10, 36, 49, 13, 10], [], [120, 13, 10, 58, 13], [10, 43]] : List Bytes) ≠ [] ∧
    ∃ results last r p,
      new.parseAll .exact
        [[42, 49, 13], [10, 36, 49, 13, 10], [], [120, 13, 10, 58, 13], [10, 43]] =
          some (results, p) ∧
      new.parse .exact [42, 49, 13, 10, 36, 49, 13, 10, 120, 13, 10, 58, 13, 10, 43] =
        some (r, p) ∧
      results.flatMap ParseResult.frames = r.frames ∧
      results.getLast? = some last ∧ last.error = r.error ∧
      ∀ i j fs e, i < j → j < results.length → results[i]? = some (.partialResult fs e) →
        results[j]? = some (.partialResult [] e) :=
  ⟨by decide, parse_chunking _ (by decide)⟩

end Parser
end Redlike.Resp
