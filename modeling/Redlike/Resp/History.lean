import Mathlib.Data.List.Forall2
import Redlike.Resp.Checked

/-!
# Histories of a parser

What a fresh parser can come to, pass by pass, with what the parser itself does not
keep: all bytes fed, all frames emitted, and the lengths that the heads of its open
arrays announced. The stack of the parser is judged by these lengths: in every state a
level has fewer elements than its head announced and room for exactly that many, which
is what the unwraps, the subtraction and the pushes of the close loop rest on.
-/
namespace Redlike.Resp

open Lib.Incremental

/-- A parser that waits for an element of an array announced with `n` of them. -/
structure Level.Awaits (L : Level) (n : Nat) : Prop where
  announced : 1 ≤ n
  capacity : L.capacity = n
  room : L.frames.length < n

/-- `Vec::push` into a vector that may not grow. -/
def Level.pushInPlace (L : Level) (f : Frame) : Option Level :=
  if h : L.frames.length < L.capacity then
    some ⟨L.capacity, L.frames ++ [f], by rw [List.length_append, List.length_singleton]; exact h⟩
  else none

theorem Level.pushInPlace_eq {L : Level} (h : L.frames.length < L.capacity) (f : Frame) :
    L.pushInPlace f = some (L.push f) := by
  simp only [Level.pushInPlace, Level.push, h, dite_true, if_true]

theorem Level.Awaits.pushInPlace {L : Level} {n : Nat} (h : L.Awaits n) (f : Frame) :
    L.pushInPlace f = some (L.push f) :=
  Level.pushInPlace_eq (by rw [h.capacity]; exact h.room) f

theorem Level.Awaits.push {L : Level} {n : Nat} (h : L.Awaits n) (f : Frame) :
    (L.push f).capacity = n := by
  simp only [Level.push, h.capacity, if_pos h.room]

/-- A level that is not full awaits an element. -/
theorem Level.awaits_of_not_full {L : Level} {n : Nat} (hn : 1 ≤ n) (hc : L.capacity = n)
    (hfull : ¬ L.isFull = true) : L.Awaits n :=
  ⟨hn, hc, hc ▸ Level.room_of_not_full hfull⟩

namespace Parser

/-! ## Histories -/

/-- A call has returned here: the parser waits for input, or has failed for good. -/
def Rests (p : Parser) : Prop := p.step .exact = .wait ∨ ∃ e, p.state = .error e

/-- A parser, and what has gone into it and come out of it. The announced lengths are
listed as the stack is, from the top. -/
structure History where
  parser : Parser
  fed : Bytes
  emitted : List Frame
  announced : List Nat

/-- Reached from a fresh parser by calls of `parse`, at the granularity of one pass. -/
inductive Reached : History → Prop where
  | new : Reached ⟨.new, [], [], []⟩
  | call {x : History} (hx : Reached x) (hr : x.parser.Rests) (input : Bytes) :
      Reached { x with parser := x.parser.feed input, fed := x.fed ++ input }
  | pass {x : History} {q : Parser} (hx : Reached x) (hs : x.parser.state ≠ .readingArrayLength)
      (hp : x.parser.pass .exact = .again q) : Reached { x with parser := q }
  | opened {x : History} {q r : Parser} {length : Int64} (hx : Reached x)
      (hs : x.parser.state = .readingArrayLength)
      (hl : x.parser.readLength = (.ok (some length), r)) (hp : x.parser.pass .exact = .again q) :
      Reached { x with parser := q, announced := length.toInt.toNat :: x.announced }
  | frame {x : History} {q : Parser} {f : Frame} (hx : Reached x)
      (hp : x.parser.pass .exact = .ret (.ok (some f)) q) :
      Reached { x with
        parser := (q.accept f).1
        emitted := x.emitted ++ (q.accept f).2
        announced := x.announced.drop (q.stack.length - (q.accept f).1.stack.length) }
  | failed {x : History} {q : Parser} {e : ParseError} (hx : Reached x)
      (hp : x.parser.pass .exact = .ret (.error e) q) : Reached { x with parser := q.setError e }

/-- The parsers on which `parse` calls `try_parse_one_frame`, in any calls of a fresh one. -/
inductive AtCall : Parser → Prop where
  | enters {chunks : List Bytes} {results : List ParseResult} {p : Parser}
      (h : new.parseAll .exact chunks = some (results, p)) (input : Bytes) : AtCall (p.feed input)
  | loops {p q : Parser} {f : Frame} (h : AtCall p)
      (ht : p.tryParseOneFrame .exact = some (.ok (some f), q)) : AtCall (q.accept f).1

variable {p q : Parser}

/-- An array head goes on only with the length it has read. -/
theorem pass_again_opens {alloc : Allocator} (hs : p.state = .readingArrayLength)
    (h : p.pass alloc = .again q) :
    ∃ length r, p.readLength = (.ok (some length), r) ∧ 0 < length.toInt.toNat ∧
      ∃ L, Level.withCapacity alloc length.toInt.toNat = some L ∧ q.stack = L :: p.stack := by
  cases passes_of h with
  | marked hs' | unmarked hs' | blank hs' | bulkLength hs' =>
    rw [hs] at hs'
    cases hs'
  | @opened _ n length level _ hl hn hpos hlevel =>
    obtain ⟨-, hv⟩ := usizeTryFrom_lt hn
    have hnat : length.toInt.toNat = n := by omega
    exact ⟨length, _, hl.read, by omega, level, by rw [hnat]; exact hlevel, rfl⟩

/-- Only the head of an array opens a level. -/
theorem pass_again_stack {alloc : Allocator} (hs : p.state ≠ .readingArrayLength)
    (h : p.pass alloc = .again q) : q.stack = p.stack := by
  cases passes_of h with
  | marked | unmarked | blank | bulkLength => rfl
  | opened hs' => exact absurd hs' hs

/-- One step of the machine is one pass of a history. -/
theorem Reached.step {x : History} {out : List Frame} (hx : Reached x)
    (h : x.parser.step .exact = .advance q out) :
    ∃ announced, Reached ⟨q, x.fed, x.emitted ++ out, announced⟩ := by
  unfold Parser.step at h
  split at h
  all_goals cases h
  · rename_i hp
    rw [List.append_nil]
    by_cases hs : x.parser.state = .readingArrayLength
    · obtain ⟨length, r, hl, -⟩ := pass_again_opens hs hp
      exact ⟨_, hx.opened hs hl hp⟩
    · exact ⟨_, hx.pass hs hp⟩
  · exact ⟨_, hx.frame ‹_›⟩

theorem Reached.runs {x : History} {out : List Frame} (hx : Reached x)
    (h : Runs (machine .exact) x.parser out q) :
    ∃ announced, Reached ⟨q, x.fed, x.emitted ++ out, announced⟩ := by
  obtain ⟨p, fed, emitted, announced⟩ := x
  dsimp only at h ⊢
  induction h generalizing emitted announced with
  | refl p => exact ⟨announced, by rwa [List.append_nil]⟩
  | cons head _ ih =>
    obtain ⟨announced, hnext⟩ := hx.step head
    rw [← List.append_assoc]
    exact ih _ _ hnext

theorem Reached.ends {x : History} {out : List Frame} {v : Option Fault} (hx : Reached x)
    (h : Ends (machine .exact) x.parser out v q) :
    q.Rests ∧ ∃ announced, Reached ⟨q, x.fed, x.emitted ++ out, announced⟩ := by
  obtain ⟨u, hruns, hstop⟩ := h
  obtain ⟨announced, hu⟩ := hx.runs hruns
  cases v with
  | none =>
    obtain ⟨hwait, rfl⟩ := hstop
    exact ⟨.inl hwait, announced, hu⟩
  | some e =>
    have hstop : u.step .exact = .halt e q := hstop
    unfold Parser.step at hstop
    split at hstop
    all_goals cases hstop
    · exact ⟨.inr ⟨_, rfl⟩, announced, hu.failed ‹_›⟩
    · rename_i hp
      have hhalt : q.step .exact = .halt .capacity q := by rw [Parser.step, hp]
      exact absurd hhalt step_exact

theorem Reached.parse {x : History} {input : Bytes} {r : ParseResult} (hx : Reached x)
    (hr : x.parser.Rests) (h : x.parser.parse .exact input = some (r, q)) :
    q.Rests ∧ ∃ announced, Reached ⟨q, x.fed ++ input, x.emitted ++ r.frames, announced⟩ :=
  (hx.call hr input).ends (parse_iff_ends.mp h)

theorem Reached.parseAll {x : History} {chunks : List Bytes} {rs : List ParseResult}
    (hx : Reached x) (hr : x.parser.Rests) (h : x.parser.parseAll .exact chunks = some (rs, q)) :
    q.Rests ∧ ∃ announced,
      Reached ⟨q, x.fed ++ chunks.flatten, x.emitted ++ rs.flatMap ParseResult.frames, announced⟩ := by
  induction chunks generalizing x rs with
  | nil =>
    cases h
    rw [List.flatten_nil, List.flatMap_nil, List.append_nil, List.append_nil]
    exact ⟨hr, x.announced, hx⟩
  | cons chunk chunks ih =>
    obtain ⟨r, t, ht⟩ := parse_exact_returns x.parser chunk
    obtain ⟨ts, u, hts⟩ := parseAll_exact_returns t chunks
    rw [Parser.parseAll, ht] at h
    dsimp only at h
    rw [hts] at h
    cases h
    obtain ⟨hrt, announced, hxt⟩ := hx.parse hr ht
    obtain ⟨hrq, announced, hxq⟩ := ih hxt hrt hts
    rw [List.flatten_cons, List.flatMap_cons, ← List.append_assoc, ← List.append_assoc]
    exact ⟨hrq, announced, hxq⟩

theorem new_rests : new.Rests := .inl rfl

/-- What the calls of a fresh parser leave is reached. -/
theorem reached_parseAll {chunks : List Bytes} {rs : List ParseResult}
    (h : new.parseAll .exact chunks = some (rs, q)) :
    q.Rests ∧ ∃ announced,
      Reached ⟨q, chunks.flatten, rs.flatMap ParseResult.frames, announced⟩ :=
  Reached.new.parseAll new_rests h

theorem AtCall.reached (h : AtCall p) : ∃ x, Reached x ∧ x.parser = p := by
  induction h with
  | enters h input =>
    obtain ⟨hr, announced, hx⟩ := reached_parseAll h
    exact ⟨_, hx.call hr input, rfl⟩
  | loops _ ht ih =>
    obtain ⟨x, hx, rfl⟩ := ih
    have hruns := tryParseOneFrame_tried .exact x.parser
    rw [ht] at hruns
    obtain ⟨announced, hnext⟩ := hx.runs hruns
    exact ⟨_, hnext, rfl⟩

/-! ## The stack -/

theorem closeLoop_length_le (top : Level) (rest : List Level) :
    (closeLoop top rest).1.length ≤ rest.length + 1 := by
  induction rest generalizing top with
  | nil =>
    rw [closeLoop]
    split <;> simp
  | cons next rest ih =>
    rw [closeLoop]
    split
    · have := ih (next.push (.array (some top.frames)))
      rw [List.length_cons]
      omega
    · simp

/-- The close loop takes full levels off the stack, and their lengths off the list; the
level it stops at has an element more than before and still waits for others. -/
theorem closeLoop_awaits {top : Level} {rest : List Level} {n : Nat} {ns : List Nat} (hn : 1 ≤ n)
    (hc : top.capacity = n) (hrest : List.Forall₂ Level.Awaits rest ns) :
    List.Forall₂ Level.Awaits (closeLoop top rest).1
      ((n :: ns).drop (rest.length + 1 - (closeLoop top rest).1.length)) := by
  induction hrest generalizing top n with
  | nil =>
    rw [closeLoop]
    split
    · exact .nil
    · exact .cons (Level.awaits_of_not_full hn hc ‹_›) .nil
  | @cons next m rest ms hnext hrest ih =>
    rw [closeLoop]
    split
    · have hle := closeLoop_length_le (next.push (.array (some top.frames))) rest
      have hdrop : (next :: rest).length + 1 -
            (closeLoop (next.push (.array (some top.frames))) rest).1.length =
          rest.length + 1 - (closeLoop (next.push (.array (some top.frames))) rest).1.length + 1 := by
        rw [List.length_cons]
        omega
      rw [hdrop, List.drop_succ_cons]
      exact ih hnext.announced (hnext.push _)
    · dsimp only
      rw [List.length_cons, List.length_cons, List.length_cons, Nat.sub_self, List.drop_zero]
      exact .cons (Level.awaits_of_not_full hn hc ‹_›) (.cons hnext hrest)

theorem accept_awaits {f : Frame} {ns : List Nat} (h : List.Forall₂ Level.Awaits p.stack ns) :
    List.Forall₂ Level.Awaits (p.accept f).1.stack
      (ns.drop (p.stack.length - (p.accept f).1.stack.length)) := by
  unfold accept
  cases hs : p.stack with
  | nil =>
    rw [hs] at h
    cases h
    dsimp only
    rw [hs]
    exact .nil
  | cons top rest =>
    rw [hs] at h
    cases h with
    | cons htop hrest => exact closeLoop_awaits htop.announced (htop.push f) hrest

/-- In every reached state the levels and the announced lengths go together. -/
theorem Reached.awaits {x : History} (hx : Reached x) :
    List.Forall₂ Level.Awaits x.parser.stack x.announced := by
  induction hx with
  | new => exact .nil
  | call _ _ _ ih => exact ih
  | pass _ hs hp ih =>
    rw [← pass_again_stack hs hp] at ih
    exact ih
  | opened hx hs hl hp ih =>
    obtain ⟨length, r, hl', hpos, L, hL, hstack⟩ := pass_again_opens hs hp
    rw [hl] at hl'
    cases hl'
    cases hL
    rw [hstack]
    exact .cons ⟨hpos, rfl, hpos⟩ ih
  | frame _ hp ih =>
    rw [← (pass_frame hp).stack] at ih
    exact accept_awaits ih
  | failed _ hp ih =>
    rw [← (pass_error hp).1] at ih
    exact ih

/-! ## The close loop -/

/-- The `while` of `parse` with the unwraps and the subtraction of its test checked, and
with pushes that may not grow the vector; and how many rounds it makes. -/
def closeInPlace : List Level → Option (List Level × List Frame × Nat)
  | [] => none
  | top :: rest =>
    match Checked.usizeSub top.capacity top.frames.length with
    | none => none
    | some room =>
      if room = 0 then
        match rest with
        | [] => some ([], [.array (some top.frames)], 1)
        | next :: rest =>
          match next.pushInPlace (.array (some top.frames)) with
          | none => none
          | some next => (closeInPlace (next :: rest)).map fun r => (r.1, r.2.1, r.2.2 + 1)
      else some (top :: rest, [], 0)
termination_by stack => stack.length

/-- The `Ok(Some(f))` arm of `parse`, likewise. -/
def acceptInPlace (f : Frame) (p : Parser) : Option (Parser × List Frame × Nat) :=
  match p.stack with
  | [] => some (p, [f], 0)
  | top :: rest =>
    match top.pushInPlace f with
    | none => none
    | some top =>
      (closeInPlace (top :: rest)).map fun r => ({ p with stack := r.1 }, r.2.1, r.2.2)

theorem closeInPlace_eq (top : Level) {rest : List Level} {ns : List Nat}
    (hrest : List.Forall₂ Level.Awaits rest ns) :
    ∃ rounds, closeInPlace (top :: rest) =
        some ((closeLoop top rest).1, (closeLoop top rest).2, rounds) ∧ rounds ≤ rest.length + 1 := by
  induction hrest generalizing top with
  | nil =>
    rw [closeInPlace, Checked.usizeSub_level, closeLoop]
    dsimp only
    by_cases h : top.isFull = true
    · rw [if_pos (Level.isFull_iff.mp h), if_pos h]
      exact ⟨1, rfl, by simp⟩
    · rw [if_neg (mt Level.isFull_iff.mpr h), if_neg h]
      exact ⟨0, rfl, Nat.zero_le _⟩
  | @cons next m rest ms hnext hrest ih =>
    rw [closeInPlace, Checked.usizeSub_level, closeLoop]
    dsimp only
    by_cases h : top.isFull = true
    · obtain ⟨rounds, hr, hle⟩ := ih (next.push (.array (some top.frames)))
      rw [if_pos (Level.isFull_iff.mp h), if_pos h, hnext.pushInPlace]
      dsimp only
      rw [hr]
      exact ⟨rounds + 1, rfl, by rw [List.length_cons]; omega⟩
    · rw [if_neg (mt Level.isFull_iff.mpr h), if_neg h]
      exact ⟨0, rfl, Nat.zero_le _⟩

theorem acceptInPlace_eq {ns : List Nat} (h : List.Forall₂ Level.Awaits p.stack ns) (f : Frame) :
    ∃ rounds, acceptInPlace f p = some ((p.accept f).1, (p.accept f).2, rounds) ∧
      rounds ≤ p.stack.length := by
  unfold acceptInPlace accept
  cases hs : p.stack with
  | nil => exact ⟨0, rfl, Nat.le_refl _⟩
  | cons top rest =>
    rw [hs] at h
    cases h with
    | cons htop hrest =>
      obtain ⟨rounds, hr, hle⟩ := closeInPlace_eq (top.push f) hrest
      dsimp only
      rw [htop.pushInPlace]
      dsimp only
      rw [hr]
      exact ⟨rounds, rfl, hle⟩

/-! ## Announced payloads -/

/-- The length of an awaited payload was an `i64`. -/
theorem Reached.payload {x : History} (hx : Reached x) :
    ∀ n, x.parser.state = .readingBulkString n → n < 2^63 := by
  induction hx with
  | new =>
    intro n hn
    cases hn
  | call _ _ _ ih => exact ih
  | pass _ _ hp _ => exact (pass_continued hp).announced
  | opened _ _ _ hp _ => exact (pass_continued hp).announced
  | frame _ hp _ =>
    intro n hn
    rw [accept_state, (pass_frame hp).state] at hn
    cases hn
  | failed _ _ _ =>
    intro n hn
    cases hn

/-- At every call of `try_parse_one_frame`, and between any two of its passes, each level has
fewer elements than the head of its array announced and room for exactly as many. So a frame
is taken in without an unwrap, a subtraction or a push going wrong, in at most as many rounds
as there are levels, and no index into an awaited payload is out of range. -/
theorem stack_awaits :
    (∀ p, AtCall p → ∃ x, Reached x ∧ x.parser = p) ∧
    ∀ x, Reached x →
      List.Forall₂ Level.Awaits x.parser.stack x.announced ∧
      (∀ f q, x.parser.pass .exact = .ret (.ok (some f)) q →
        ∃ rounds, acceptInPlace f q = some ((q.accept f).1, (q.accept f).2, rounds) ∧
          rounds ≤ q.stack.length) ∧
      ∀ len, x.parser.state = .readingBulkString len →
        len + 2 < 2^64 ∧ Checked.readBulkString len x.parser = x.parser.readBulkString len := by
  refine ⟨fun p h => h.reached, ?_⟩
  intro x hx
  refine ⟨hx.awaits, ?_, ?_⟩
  · intro f q hp
    have hq : List.Forall₂ Level.Awaits q.stack x.announced := by
      rw [(pass_frame hp).stack]
      exact hx.awaits
    exact acceptInPlace_eq hq f
  · intro len hs
    have hlt := hx.payload len hs
    exact ⟨by omega, Checked.readBulkString_of_lt (by omega)⟩

/-- An array in an array, the outer one with an element, and a payload awaited in the inner. -/
theorem stack_awaits_nested :
    ∃ p x, AtCall p ∧ Reached x ∧ x.parser = p ∧ x.parser.state = .readingBulkString 4 ∧
      x.parser.stack.map (fun L => (L.capacity, L.frames.length)) = [(3, 0), (2, 1)] ∧
      List.Forall₂ Level.Awaits x.parser.stack x.announced := by
  have hrun : ∃ rs p,
      new.parseAll .exact [asBytes "*2\r\n:1\r", asBytes "\n*3\r\n$4\r\nP"] = some (rs, p) ∧
      p.state = .readingBulkString 4 ∧
      p.stack.map (fun L => (L.capacity, L.frames.length)) = [(3, 0), (2, 1)] := by
    refine ⟨_, _, Option.some_get (by decide +kernel) |>.symm, by decide +kernel, by decide +kernel⟩
  obtain ⟨rs, p, hp, hstate, hstack⟩ := hrun
  obtain ⟨x, hx, hxp⟩ := stack_awaits.1 _ (.enters hp [])
  refine ⟨p.feed [], x, .enters hp [], hx, hxp, ?_, ?_, (stack_awaits.2 x hx).1⟩
  · rw [hxp]
    exact hstate
  · rw [hxp]
    exact hstack

end Parser
end Redlike.Resp
