import Redlike.Resp.Frame

/-!
# The incremental parser

`Parser::parse` with its two nested loops, the explicit stack of open arrays and
the loop that closes them. `Vec::with_capacity` is a parameter: it may refuse a
request (the source then panics, here `none`) and it may hand out more room than
asked for, which matters because an open array is closed when its vector is full.
The stack is listed from its top.
-/
namespace Redlike.Resp

inductive ParseError where
  | unreadableUtf
  | invalidLength
  | unreadableBulkString
  deriving DecidableEq, Repr

inductive State where
  | start
  | readingSimpleString
  | readingSimpleError
  | readingBulkLength
  | readingBulkString (length : Nat)
  | readingInteger
  | readingInline
  | readingArrayLength
  | error (e : ParseError)
  deriving DecidableEq

/-- The capacity `Vec::<Frame>::with_capacity` yields for a request, or no vector at all. -/
abbrev Allocator := Nat → Option Nat

/-- Every request succeeds with exactly the requested capacity. -/
def Allocator.exact : Allocator := some

/-- An open array: a vector of frames and the room it has. -/
structure Level where
  capacity : Nat
  frames : List Frame
  fits : frames.length ≤ capacity
  deriving DecidableEq

namespace Level

def withCapacity (alloc : Allocator) (length : Nat) : Option Level :=
  (alloc length).map fun capacity => ⟨capacity, [], by simp⟩

/-- `Vec::push`: a full vector grows to at least twice its room first. -/
def push (l : Level) (f : Frame) : Level where
  capacity := if l.frames.length < l.capacity then l.capacity
    else max (2 * l.capacity) (max (l.frames.length + 1) 4)
  frames := l.frames ++ [f]
  fits := by
    rw [List.length_append, List.length_singleton]
    split
    · omega
    · exact Nat.le_trans (Nat.le_max_left _ _) (Nat.le_max_right _ _)

/-- The close test of `parse`: no room is left. -/
def isFull (l : Level) : Bool := l.capacity - l.frames.length == 0

theorem isFull_iff {l : Level} : l.isFull = true ↔ l.capacity - l.frames.length = 0 := beq_iff_eq

theorem room_of_not_full {l : Level} (h : ¬ l.isFull = true) : l.frames.length < l.capacity := by
  rw [isFull_iff] at h
  omega

end Level

structure Parser where
  state : State
  buf : Bytes
  stack : List Level
  deriving DecidableEq

inductive ParseResult where
  | complete (frames : List Frame)
  | partialResult (frames : List Frame) (e : ParseError)
  deriving DecidableEq

namespace Parser

def new : Parser := ⟨.start, [], []⟩

def setError (e : ParseError) (p : Parser) : Parser := { p with state := .error e }

/-- `read_length`: a failed conversion leaves the line in the buffer. -/
def readLength (p : Parser) : Except ParseError (Option Int64) × Parser :=
  match crlfPosition p.buf with
  | none => (.ok none, p)
  | some pos =>
    match fromUtf8 (p.buf.take pos) with
    | none => (.error .invalidLength, p)
    | some slice =>
      match parseI64 (asBytes slice) with
      | none => (.error .invalidLength, p)
      | some value => (.ok (some value), { p with buf := p.buf.drop (pos + 2) })

/-- `usize::try_from` on a 64-bit target. -/
def usizeTryFrom (length : Int64) : Option Nat :=
  if 0 ≤ length.toInt then some length.toInt.toNat else none

/-- What one pass through the body of the `loop` in `try_parse_one_frame` does. -/
inductive Pass where
  | again (p : Parser)
  | ret (result : Except ParseError (Option Frame)) (p : Parser)
  | panicked

def readStart (p : Parser) : Pass :=
  match p.buf with
  | [] => .ret (.ok none) p
  | b :: rest =>
    if b = plus then .again { p with buf := rest, state := .readingSimpleString }
    else if b = dollar then .again { p with buf := rest, state := .readingBulkLength }
    else if b = star then .again { p with buf := rest, state := .readingArrayLength }
    else if b = minus then .again { p with buf := rest, state := .readingSimpleError }
    else if b = colon then .again { p with buf := rest, state := .readingInteger }
    else .again { p with state := .readingInline }

/-- The two simple kinds. The payload is drained before it is checked, so an
unreadable one is gone from the buffer while its line end stays. -/
def readSimple (make : String → Frame) (p : Parser) : Pass :=
  match crlfPosition p.buf with
  | none => .ret (.ok none) p
  | some pos =>
    match fromUtf8 (p.buf.take pos) with
    | none => .ret (.error .unreadableUtf) { p with buf := p.buf.drop pos }
    | some payload =>
      .ret (.ok (some (make payload))) { p with buf := (p.buf.drop pos).drop 2, state := .start }

def readInline (p : Parser) : Pass :=
  match memchr lf p.buf with
  | none => .ret (.ok none) p
  | some pos =>
    match fromUtf8 (p.buf.take pos) with
    | none => .ret (.error .unreadableUtf) { p with buf := p.buf.drop pos }
    | some line =>
      let arrayInner := (splitWhitespace line).map fun piece => Frame.bulk (some piece)
      let next := { p with buf := (p.buf.drop pos).drop 1, state := .start }
      if arrayInner.isEmpty then .again next else .ret (.ok (some (.array (some arrayInner)))) next

def readBulkLength (p : Parser) : Pass :=
  match p.readLength with
  | (.error e, p) => .ret (.error e) p
  | (.ok none, p) => .ret (.ok none) p
  | (.ok (some length), p) =>
    if length.toInt = -1 then .ret (.ok (some (.bulk none))) { p with state := .start }
    else if length.toInt < -1 then .ret (.error .invalidLength) p
    else match usizeTryFrom length with
      | none => .ret (.error .invalidLength) p
      | some length => .again { p with state := .readingBulkString length }

def readBulkString (len : Nat) (p : Parser) : Pass :=
  if len + 2 > p.buf.length then .ret (.ok none) p
  else if p.buf[len]? ≠ some cr ∨ p.buf[len+1]? ≠ some lf then
    .ret (.error .unreadableBulkString) p
  else
    .ret (.ok (some (.bulk (some (p.buf.take len)))))
      { p with buf := (p.buf.drop len).drop 2, state := .start }

def readInteger (p : Parser) : Pass :=
  match p.readLength with
  | (.error e, p) => .ret (.error e) p
  | (.ok none, p) => .ret (.ok none) p
  | (.ok (some l), p) => .ret (.ok (some (.integer l))) { p with state := .start }

def readArrayLength (alloc : Allocator) (p : Parser) : Pass :=
  match p.readLength with
  | (.error e, p) => .ret (.error e) p
  | (.ok none, p) => .ret (.ok none) p
  | (.ok (some length), p) =>
    if length.toInt = -1 then .ret (.ok (some (.array none))) { p with state := .start }
    else if length.toInt = 0 then .ret (.ok (some (.array (some [])))) { p with state := .start }
    else if length.toInt < -1 then .ret (.error .invalidLength) p
    else match usizeTryFrom length with
      | none => .ret (.error .invalidLength) p
      | some length =>
        match Level.withCapacity alloc length with
        | none => .panicked
        | some level => .again { p with stack := level :: p.stack, state := .start }

/-- The body of the `loop` in `try_parse_one_frame`. -/
def pass (alloc : Allocator) (p : Parser) : Pass :=
  match p.state with
  | .start => p.readStart
  | .readingSimpleString => p.readSimple .simpleString
  | .readingInline => p.readInline
  | .readingSimpleError => p.readSimple .simpleError
  | .readingBulkLength => p.readBulkLength
  | .readingBulkString length => p.readBulkString length
  | .readingInteger => p.readInteger
  | .readingArrayLength => p.readArrayLength alloc
  | .error e => .ret (.error e) p

/-- Passes consume input, except that the start state hands an inline line on. -/
def measure (p : Parser) : Nat := 2 * p.buf.length + if p.state = .start then 1 else 0

/-- `read_length` waits, refuses and keeps the line, or drains the line it read. -/
theorem readLength_cases (p : Parser) :
    (crlfPosition p.buf = none ∧ p.readLength = (.ok none, p)) ∨
    (∃ pos, crlfPosition p.buf = some pos ∧
      (fromUtf8 (p.buf.take pos)).bind (fun s => parseI64 (asBytes s)) = none ∧
      p.readLength = (.error .invalidLength, p)) ∨
    (∃ pos v, crlfPosition p.buf = some pos ∧
      (fromUtf8 (p.buf.take pos)).bind (fun s => parseI64 (asBytes s)) = some v ∧
      p.readLength = (.ok (some v), { p with buf := p.buf.drop (pos + 2) })) := by
  unfold readLength
  cases hp : crlfPosition p.buf with
  | none => exact .inl ⟨rfl, rfl⟩
  | some pos =>
    cases hu : fromUtf8 (p.buf.take pos) with
    | none => exact .inr (.inl ⟨pos, rfl, by simp [hu], by simp [hu]⟩)
    | some slice =>
      cases hv : parseI64 (asBytes slice) with
      | none => exact .inr (.inl ⟨pos, rfl, by simp [hu, hv], by simp [hu, hv]⟩)
      | some v => exact .inr (.inr ⟨pos, v, rfl, by simp [hu, hv], by simp [hu, hv]⟩)

/-! ## What a pass can do -/

section Passes

variable {alloc : Allocator} {p q : Parser}

/-- `read_length` has read `v` from the line that ends at `pos`. -/
structure ReadsLength (p : Parser) (pos : Nat) (v : Int64) : Prop where
  line : crlfPosition p.buf = some pos
  read : p.readLength = (.ok (some v), { p with buf := p.buf.drop (pos + 2) })

/-- The frames a pass can return, each with how many bytes it drains. -/
inductive Built (p : Parser) : Frame → Nat → Prop where
  | simpleString {pos : Nat} {text : String} (hs : p.state = .readingSimpleString)
      (hline : crlfPosition p.buf = some pos) (htext : fromUtf8 (p.buf.take pos) = some text) :
      Built p (.simpleString text) (pos + 2)
  | simpleError {pos : Nat} {text : String} (hs : p.state = .readingSimpleError)
      (hline : crlfPosition p.buf = some pos) (htext : fromUtf8 (p.buf.take pos) = some text) :
      Built p (.simpleError text) (pos + 2)
  | inline {pos : Nat} {text : String} (hs : p.state = .readingInline)
      (hline : memchr lf p.buf = some pos) (htext : fromUtf8 (p.buf.take pos) = some text) :
      Built p (.array (some ((splitWhitespace text).map fun piece => .bulk (some piece)))) (pos + 1)
  | nilBulk {pos : Nat} {v : Int64} (hs : p.state = .readingBulkLength) (hl : p.ReadsLength pos v) :
      Built p (.bulk none) (pos + 2)
  | bulk {len : Nat} (hs : p.state = .readingBulkString len) (hlen : len + 2 ≤ p.buf.length) :
      Built p (.bulk (some (p.buf.take len))) (len + 2)
  | integer {pos : Nat} {v : Int64} (hs : p.state = .readingInteger) (hl : p.ReadsLength pos v) :
      Built p (.integer v) (pos + 2)
  | nilArray {pos : Nat} {v : Int64} (hs : p.state = .readingArrayLength)
      (hl : p.ReadsLength pos v) : Built p (.array none) (pos + 2)
  | emptyArray {pos : Nat} {v : Int64} (hs : p.state = .readingArrayLength)
      (hl : p.ReadsLength pos v) : Built p (.array (some [])) (pos + 2)

/-- The states that a marker leads to. -/
def markedStates : List State :=
  [.readingSimpleString, .readingBulkLength, .readingArrayLength, .readingSimpleError,
    .readingInteger]

/-- What a pass can do to a parser. A failing pass may have drained some bytes; only an array
head touches the stack, and only it can panic. -/
inductive Passes (alloc : Allocator) (p : Parser) : Pass → Prop where
  | marked {b : UInt8} {rest : Bytes} {state : State} (hs : p.state = .start)
      (hb : p.buf = b :: rest) (hstate : state ∈ markedStates) :
      Passes alloc p (.again { p with buf := rest, state := state })
  | unmarked (hs : p.state = .start) : Passes alloc p (.again { p with state := .readingInline })
  | blank {pos : Nat} (hs : p.state = .readingInline) (hline : memchr lf p.buf = some pos) :
      Passes alloc p (.again { p with buf := p.buf.drop (pos + 1), state := .start })
  | bulkLength {pos len : Nat} {v : Int64} (hs : p.state = .readingBulkLength)
      (hl : p.ReadsLength pos v) (hlen : usizeTryFrom v = some len) :
      Passes alloc p
        (.again { p with buf := p.buf.drop (pos + 2), state := .readingBulkString len })
  | opened {pos length : Nat} {v : Int64} {level : Level} (hs : p.state = .readingArrayLength)
      (hl : p.ReadsLength pos v) (hlength : usizeTryFrom v = some length) (hpos : v.toInt ≠ 0)
      (hlevel : Level.withCapacity alloc length = some level) :
      Passes alloc p (.again ⟨.start, p.buf.drop (pos + 2), level :: p.stack⟩)
  | frame {f : Frame} {n : Nat} (hf : p.Built f n) :
      Passes alloc p (.ret (.ok (some f)) { p with buf := p.buf.drop n, state := .start })
  | waits : Passes alloc p (.ret (.ok none) p)
  | fails {e : ParseError} (n : Nat) :
      Passes alloc p (.ret (.error e) { p with buf := p.buf.drop n })
  | panics {length : Nat} (hs : p.state = .readingArrayLength)
      (hlevel : Level.withCapacity alloc length = none) : Passes alloc p .panicked

private theorem readStart_passes (hs : p.state = .start) : Passes alloc p p.readStart := by
  unfold readStart
  split
  · exact .waits
  · rename_i b rest hb
    repeat' split
    all_goals first
      | exact .marked hs hb (by decide)
      | exact .unmarked hs

private theorem readSimple_passes {make : String → Frame}
    (hmake : ∀ pos text, crlfPosition p.buf = some pos → fromUtf8 (p.buf.take pos) = some text →
      p.Built (make text) (pos + 2)) : Passes alloc p (p.readSimple make) := by
  unfold readSimple
  split
  · exact .waits
  · rename_i pos hline
    split
    · exact .fails pos
    · rename_i text htext
      rw [List.drop_drop]
      exact .frame (hmake pos text hline htext)

private theorem readInline_passes (hs : p.state = .readingInline) :
    Passes alloc p p.readInline := by
  unfold readInline
  split
  · exact .waits
  · rename_i pos hline
    split
    · exact .fails pos
    · rename_i text htext
      dsimp only
      rw [List.drop_drop]
      split
      · exact .blank hs hline
      · exact .frame (.inline hs hline htext)

private theorem readBulkLength_passes (hs : p.state = .readingBulkLength) :
    Passes alloc p p.readBulkLength := by
  unfold readBulkLength
  rcases p.readLength_cases with ⟨_, hr⟩ | ⟨_, _, _, hr⟩ | ⟨pos, v, hline, _, hr⟩
  · rw [hr]
    exact .waits
  · rw [hr]
    exact .fails 0
  · have hl : p.ReadsLength pos v := ⟨hline, hr⟩
    rw [hr]
    dsimp only
    repeat' split
    · exact .frame (.nilBulk hs hl)
    · exact .fails (pos + 2)
    · exact .fails (pos + 2)
    · exact .bulkLength hs hl ‹_›

private theorem readBulkString_passes {len : Nat} (hs : p.state = .readingBulkString len) :
    Passes alloc p (p.readBulkString len) := by
  unfold readBulkString
  split
  · exact .waits
  · split
    · exact .fails 0
    · rw [List.drop_drop]
      exact .frame (.bulk hs (by omega))

private theorem readInteger_passes (hs : p.state = .readingInteger) :
    Passes alloc p p.readInteger := by
  unfold readInteger
  rcases p.readLength_cases with ⟨_, hr⟩ | ⟨_, _, _, hr⟩ | ⟨pos, v, hline, _, hr⟩
  · rw [hr]
    exact .waits
  · rw [hr]
    exact .fails 0
  · rw [hr]
    exact .frame (.integer hs ⟨hline, hr⟩)

private theorem readArrayLength_passes (hs : p.state = .readingArrayLength) :
    Passes alloc p (p.readArrayLength alloc) := by
  unfold readArrayLength
  rcases p.readLength_cases with ⟨_, hr⟩ | ⟨_, _, _, hr⟩ | ⟨pos, v, hline, _, hr⟩
  · rw [hr]
    exact .waits
  · rw [hr]
    exact .fails 0
  · have hl : p.ReadsLength pos v := ⟨hline, hr⟩
    rw [hr]
    dsimp only
    repeat' split
    · exact .frame (.nilArray hs hl)
    · exact .frame (.emptyArray hs hl)
    · exact .fails (pos + 2)
    · exact .fails (pos + 2)
    · exact .panics hs ‹_›
    · exact .opened hs hl ‹_› ‹_› ‹_›

theorem passes (alloc : Allocator) (p : Parser) : Passes alloc p (p.pass alloc) := by
  unfold pass
  split
  · exact readStart_passes ‹_›
  · exact readSimple_passes fun _ _ => .simpleString ‹_›
  · exact readInline_passes ‹_›
  · exact readSimple_passes fun _ _ => .simpleError ‹_›
  · exact readBulkLength_passes ‹_›
  · exact readBulkString_passes ‹_›
  · exact readInteger_passes ‹_›
  · exact readArrayLength_passes ‹_›
  · exact .fails 0

theorem passes_of {r : Pass} (h : p.pass alloc = r) : Passes alloc p r := h ▸ passes alloc p

/-- The line of a number is there with its end. -/
theorem ReadsLength.le {pos : Nat} {v : Int64} (h : p.ReadsLength pos v) :
    pos + 2 ≤ p.buf.length := (crlfPosition_spec h.line).2.1

theorem pass_again_measure (h : p.pass alloc = .again q) : q.measure < p.measure := by
  have hm : 2 * p.buf.length ≤ p.measure := Nat.le_add_right _ _
  cases passes_of h with
  | marked hs hb hstate =>
    simp only [measure, hs, hb, List.length_cons]
    split <;> omega
  | unmarked hs => simp [measure, hs]
  | blank hs hline =>
    have hl := memchr_lt hline
    simp only [measure, ↓reduceIte, List.length_drop] at hm ⊢
    omega
  | bulkLength hs hl hlen =>
    have hle := hl.le
    simp only [measure, reduceCtorEq, ↓reduceIte, List.length_drop] at hm ⊢
    omega
  | opened hs hl hlength hpos hlevel =>
    have hle := hl.le
    simp only [measure, ↓reduceIte, List.length_drop] at hm ⊢
    omega

end Passes

/-- The `loop` of `try_parse_one_frame`. -/
def tryLoop (alloc : Allocator) (p : Parser) :
    Option (Except ParseError (Option Frame) × Parser) :=
  match _h : p.pass alloc with
  | .again q => tryLoop alloc q
  | .ret result q => some (result, q)
  | .panicked => none
termination_by p.measure
decreasing_by exact pass_again_measure _h

/-- `try_parse_one_frame`; `none` is a panic. -/
def tryParseOneFrame (alloc : Allocator) (p : Parser) :
    Option (Except ParseError (Option Frame) × Parser) :=
  match p.state with
  | .error e => some (.error e, p)
  | _ => p.tryLoop alloc

/-- A returned frame was read from a state other than the start state, left the
parser in the start state with a shorter buffer, and did not touch the stack. -/
structure Returned (p q : Parser) : Prop where
  reading : p.state ≠ .start
  state : q.state = .start
  shorter : q.buf.length < p.buf.length
  stack : q.stack = p.stack

theorem Built.bounds {p : Parser} {f : Frame} {n : Nat} (h : p.Built f n) :
    p.state ≠ .start ∧ 0 < n ∧ n ≤ p.buf.length := by
  cases h with
  | simpleString hs hline _ | simpleError hs hline _ =>
    exact ⟨by simp [hs], Nat.succ_pos _, (crlfPosition_spec hline).2.1⟩
  | inline hs hline _ => exact ⟨by simp [hs], Nat.succ_pos _, memchr_lt hline⟩
  | bulk hs hlen => exact ⟨by simp [hs], Nat.succ_pos _, hlen⟩
  | nilBulk hs hl | integer hs hl | nilArray hs hl | emptyArray hs hl =>
    exact ⟨by simp [hs], Nat.succ_pos _, hl.le⟩

theorem pass_frame {alloc : Allocator} {p q : Parser} {f : Frame}
    (h : p.pass alloc = .ret (.ok (some f)) q) : Returned p q := by
  cases passes_of h with
  | frame hf =>
    obtain ⟨hs, hpos, hle⟩ := hf.bounds
    refine ⟨hs, rfl, ?_, rfl⟩
    rw [List.length_drop]
    omega

theorem Returned.measure_lt {p q : Parser} (h : Returned p q) : q.measure < p.measure := by
  have hs := h.shorter
  simp only [measure, h.state, ↓reduceIte, if_neg h.reading]
  omega

theorem tryLoop_frame {alloc : Allocator} {p q : Parser} {f : Frame}
    (h : p.tryLoop alloc = some (.ok (some f), q)) : q.measure < p.measure := by
  induction p using tryLoop.induct alloc with
  | case1 p r hp ih =>
    rw [tryLoop, hp] at h
    exact Nat.lt_trans (ih h) (pass_again_measure hp)
  | case2 p result r hp =>
    rw [tryLoop, hp] at h
    cases h
    exact (pass_frame hp).measure_lt
  | case3 p hp =>
    rw [tryLoop, hp] at h
    cases h

theorem tryParseOneFrame_frame {alloc : Allocator} {p q : Parser} {f : Frame}
    (h : p.tryParseOneFrame alloc = some (.ok (some f), q)) : q.measure < p.measure := by
  unfold tryParseOneFrame at h
  split at h
  · cases h
  · exact tryLoop_frame h

/-- The `while` of `parse` that closes full arrays, with the level on top of the
stack and the levels below it. -/
def closeLoop (top : Level) : List Level → List Level × List Frame
  | [] => if top.isFull then ([], [.array (some top.frames)]) else ([top], [])
  | next :: rest =>
    if top.isFull then closeLoop (next.push (.array (some top.frames))) rest
    else (top :: next :: rest, [])

/-- The `Ok(Some(f))` arm of `parse`: the parser and what goes to the output. -/
def accept (f : Frame) (p : Parser) : Parser × List Frame :=
  match p.stack with
  | [] => (p, [f])
  | top :: rest =>
    ({ p with stack := (closeLoop (top.push f) rest).1 }, (closeLoop (top.push f) rest).2)

theorem accept_measure (f : Frame) (p : Parser) : (p.accept f).1.measure = p.measure := by
  unfold accept
  split <;> rfl

/-- The `loop` of `parse`. -/
def parseLoop (alloc : Allocator) (p : Parser) (output : List Frame) :
    Option (ParseResult × Parser) :=
  match _h : p.tryParseOneFrame alloc with
  | none => none
  | some (.ok (some f), q) => parseLoop alloc (q.accept f).1 (output ++ (q.accept f).2)
  | some (.ok none, q) => some (.complete output, q)
  | some (.error e, q) => some (.partialResult output e, q.setError e)
termination_by p.measure
decreasing_by
  rw [accept_measure]
  exact tryParseOneFrame_frame _h

def feed (p : Parser) (input : Bytes) : Parser := { p with buf := p.buf ++ input }

/-- `Parser::parse`; `none` is a panic. -/
def parse (alloc : Allocator) (p : Parser) (input : Bytes) : Option (ParseResult × Parser) :=
  parseLoop alloc (p.feed input) []

/-- One call of `parse` a chunk, on the parser the call before left. -/
def parseAll (alloc : Allocator) : Parser → List Bytes → Option (List ParseResult × Parser)
  | p, [] => some ([], p)
  | p, chunk :: chunks =>
    match p.parse alloc chunk with
    | none => none
    | some (result, q) =>
      match parseAll alloc q chunks with
      | none => none
      | some (results, r) => some (result :: results, r)

/-- Every call can buffer its chunk: a vector holds at most `isize::MAX` bytes. -/
def Buffered (alloc : Allocator) : Parser → List Bytes → Prop
  | _, [] => True
  | p, chunk :: chunks => (p.feed chunk).buf.length < 2^63 ∧
    ∀ result q, p.parse alloc chunk = some (result, q) → Buffered alloc q chunks

end Parser

namespace ParseResult

def frames : ParseResult → List Frame
  | complete frames => frames
  | partialResult frames _ => frames

def error : ParseResult → Option ParseError
  | complete _ => none
  | partialResult _ e => some e

end ParseResult
end Redlike.Resp
