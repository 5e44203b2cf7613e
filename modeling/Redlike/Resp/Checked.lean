import Redlike.Resp.Image

/-!
# The parser with its panics

The code of the parser once more, with every operation that panics out of range written
as one that may fail: additions and subtractions of `usize`, indexing, slicing and
draining, `unwrap`, growing the buffer past what a vector can hold. On buffers that a
vector can hold none of them fails, and the code is the total model of it.
-/
namespace Redlike.Resp.Checked

/-- `isize::MAX` of a 64-bit target, the most bytes a vector holds. -/
def isizeMax : Nat := 2^63 - 1

def usizeAdd (a b : Nat) : Option Nat := if a + b < 2^64 then some (a + b) else none

def usizeSub (a b : Nat) : Option Nat := if b ≤ a then some (a - b) else none

/-- `&buf[..n]`. -/
def sliceTo (buf : Bytes) (n : Nat) : Option Bytes :=
  if n ≤ buf.length then some (buf.take n) else none

/-- `buf.drain(..n)`: the drained bytes and what stays in the buffer. -/
def drainTo (buf : Bytes) (n : Nat) : Option (Bytes × Bytes) :=
  if n ≤ buf.length then some (buf.take n, buf.drop n) else none

/-- `buf[i]`. -/
def index (buf : Bytes) (i : Nat) : Option UInt8 := buf[i]?

/-- `buf.extend_from_slice(input)`. -/
def extend (buf input : Bytes) : Option Bytes :=
  if buf.length + input.length ≤ isizeMax then some (buf ++ input) else none

/-- Go on with the value of an operation, or panic with it. -/
def orPanic {α : Type} (x : Option α) (next : α → Parser.Pass) : Parser.Pass :=
  match x with
  | none => .panicked
  | some a => next a

theorem orPanic_some {α : Type} (a : α) (next : α → Parser.Pass) :
    orPanic (some a) next = next a := rfl

theorem drainTo_of_le {buf : Bytes} {n : Nat} (h : n ≤ buf.length) :
    drainTo buf n = some (buf.take n, buf.drop n) := if_pos h

/-! ## The passes -/

/-- The five arms of the start state that take a marker from the buffer. -/
def takeMarker (p : Parser) (state : State) : Parser.Pass :=
  orPanic (drainTo p.buf 1) fun d => .again { p with buf := d.2, state := state }

def readStart (p : Parser) : Parser.Pass :=
  match p.buf.head? with
  | none => .ret (.ok none) p
  | some b =>
    if b = plus then takeMarker p .readingSimpleString
    else if b = dollar then takeMarker p .readingBulkLength
    else if b = star then takeMarker p .readingArrayLength
    else if b = minus then takeMarker p .readingSimpleError
    else if b = colon then takeMarker p .readingInteger
    else .again { p with state := .readingInline }

def readSimple (make : String → Frame) (p : Parser) : Parser.Pass :=
  match crlfPosition p.buf with
  | none => .ret (.ok none) p
  | some pos =>
    orPanic (drainTo p.buf pos) fun d =>
      match fromUtf8 d.1 with
      | none => .ret (.error .unreadableUtf) { p with buf := d.2 }
      | some payload =>
        orPanic (drainTo d.2 2) fun d =>
          .ret (.ok (some (make payload))) { p with buf := d.2, state := .start }

def readInline (p : Parser) : Parser.Pass :=
  match memchr lf p.buf with
  | none => .ret (.ok none) p
  | some pos =>
    orPanic (drainTo p.buf pos) fun d =>
      match fromUtf8 d.1 with
      | none => .ret (.error .unreadableUtf) { p with buf := d.2 }
      | some line =>
        let arrayInner := (splitWhitespace line).map fun piece => Frame.bulk (some piece)
        orPanic (drainTo d.2 1) fun d =>
          let next := { p with buf := d.2, state := .start }
          if arrayInner.isEmpty then .again next
          else .ret (.ok (some (.array (some arrayInner)))) next

/-- `read_length`; `none` is a panic. -/
def readLength (p : Parser) : Option (Except ParseError (Option Int64) × Parser) :=
  match crlfPosition p.buf with
  | none => some (.ok none, p)
  | some pos =>
    match sliceTo p.buf pos with
    | none => none
    | some slice =>
      match fromUtf8 slice with
      | none => some (.error .invalidLength, p)
      | some slice =>
        match parseI64 (asBytes slice) with
        | none => some (.error .invalidLength, p)
        | some value =>
          match (usizeAdd pos 2).bind (drainTo p.buf) with
          | none => none
          | some d => some (.ok (some value), { p with buf := d.2 })

def readBulkLength (p : Parser) : Parser.Pass :=
  orPanic (readLength p) fun
    | (.error e, p) => .ret (.error e) p
    | (.ok none, p) => .ret (.ok none) p
    | (.ok (some length), p) =>
      if length.toInt = -1 then .ret (.ok (some (.bulk none))) { p with state := .start }
      else if length.toInt < -1 then .ret (.error .invalidLength) p
      else match Parser.usizeTryFrom length with
        | none => .ret (.error .invalidLength) p
        | some length => .again { p with state := .readingBulkString length }

def readBulkString (len : Nat) (p : Parser) : Parser.Pass :=
  orPanic (usizeAdd len 2) fun needed =>
    if needed > p.buf.length then .ret (.ok none) p
    else orPanic (index p.buf len) fun first =>
      -- the second index is evaluated only if the first byte is the right one
      if first ≠ cr then .ret (.error .unreadableBulkString) p
      else orPanic ((usizeAdd len 1).bind (index p.buf)) fun second =>
        if second ≠ lf then .ret (.error .unreadableBulkString) p
        else orPanic (drainTo p.buf len) fun payload =>
          orPanic (drainTo payload.2 2) fun d =>
            .ret (.ok (some (.bulk (some payload.1)))) { p with buf := d.2, state := .start }

def readInteger (p : Parser) : Parser.Pass :=
  orPanic (readLength p) fun
    | (.error e, p) => .ret (.error e) p
    | (.ok none, p) => .ret (.ok none) p
    | (.ok (some l), p) => .ret (.ok (some (.integer l))) { p with state := .start }

def readArrayLength (alloc : Allocator) (p : Parser) : Parser.Pass :=
  orPanic (readLength p) fun
    | (.error e, p) => .ret (.error e) p
    | (.ok none, p) => .ret (.ok none) p
    | (.ok (some length), p) =>
      if length.toInt = -1 then .ret (.ok (some (.array none))) { p with state := .start }
      else if length.toInt = 0 then .ret (.ok (some (.array (some [])))) { p with state := .start }
      else if length.toInt < -1 then .ret (.error .invalidLength) p
      else match Parser.usizeTryFrom length with
        | none => .ret (.error .invalidLength) p
        | some length =>
          orPanic (Level.withCapacity alloc length) fun level =>
            .again { p with stack := level :: p.stack, state := .start }

/-- The body of the `loop` in `try_parse_one_frame`. -/
def pass (alloc : Allocator) (p : Parser) : Parser.Pass :=
  match p.state with
  | .start => readStart p
  | .readingSimpleString => readSimple .simpleString p
  | .readingInline => readInline p
  | .readingSimpleError => readSimple .simpleError p
  | .readingBulkLength => readBulkLength p
  | .readingBulkString length => readBulkString length p
  | .readingInteger => readInteger p
  | .readingArrayLength => readArrayLength alloc p
  | .error e => .ret (.error e) p

/-! ## No operation of a pass is out of range -/

variable {alloc : Allocator} {p q : Parser}

/-- The buffer is one a vector can hold, and an announced payload length was an `i64`. -/
structure Sized (p : Parser) : Prop where
  buffered : p.buf.length < 2^63
  announced : ∀ n, p.state = .readingBulkString n → n < 2^63

theorem readStart_eq (p : Parser) : readStart p = p.readStart := by
  unfold readStart Parser.readStart
  cases hb : p.buf with
  | nil => rfl
  | cons b rest =>
    have hd : ∀ state, takeMarker p state = .again { p with buf := rest, state := state } := by
      intro state
      rw [takeMarker, hb, drainTo_of_le (by simp)]
      rfl
    simp only [List.head?_cons, hd]

theorem readSimple_eq (make : String → Frame) (p : Parser) :
    readSimple make p = p.readSimple make := by
  unfold readSimple Parser.readSimple
  cases hp : crlfPosition p.buf with
  | none => rfl
  | some pos =>
    have hl := (crlfPosition_spec hp).2.1
    have hline : 2 ≤ (p.buf.drop pos).length := by rw [List.length_drop]; omega
    dsimp only
    rw [drainTo_of_le (by omega), orPanic_some]
    cases fromUtf8 (p.buf.take pos) with
    | none => rfl
    | some payload => dsimp only; rw [drainTo_of_le hline, orPanic_some]

theorem readInline_eq (p : Parser) : readInline p = p.readInline := by
  unfold readInline Parser.readInline
  cases hp : memchr lf p.buf with
  | none => rfl
  | some pos =>
    have hl := memchr_lt hp
    have hline : 1 ≤ (p.buf.drop pos).length := by rw [List.length_drop]; omega
    dsimp only
    rw [drainTo_of_le (by omega), orPanic_some]
    cases fromUtf8 (p.buf.take pos) with
    | none => rfl
    | some payload => dsimp only; rw [drainTo_of_le hline, orPanic_some]

theorem readLength_eq (p : Parser) :
    readLength p = some p.readLength ∨ (readLength p = none ∧ ¬ Sized p) := by
  unfold readLength Parser.readLength
  cases hp : crlfPosition p.buf with
  | none => exact .inl rfl
  | some pos =>
    have hl := (crlfPosition_spec hp).2.1
    have hslice : sliceTo p.buf pos = some (p.buf.take pos) := if_pos (by omega)
    dsimp only
    rw [hslice]
    dsimp only
    cases fromUtf8 (p.buf.take pos) with
    | none => exact .inl rfl
    | some slice =>
      dsimp only
      cases parseI64 (asBytes slice) with
      | none => exact .inl rfl
      | some value =>
        dsimp only
        by_cases hlt : pos + 2 < 2^64
        · rw [usizeAdd, if_pos hlt, Option.bind_some, drainTo_of_le hl]
          exact .inl rfl
        · rw [usizeAdd, if_neg hlt]
          refine .inr ⟨rfl, fun hs => ?_⟩
          have := hs.buffered
          omega

/-- The three states that read a length first. -/
theorem orPanic_readLength (p : Parser)
    (next : Except ParseError (Option Int64) × Parser → Parser.Pass) :
    orPanic (readLength p) next = next p.readLength ∨
      (orPanic (readLength p) next = .panicked ∧ ¬ Sized p) := by
  rcases readLength_eq p with h | ⟨h, hs⟩
  · rw [h]
    exact .inl rfl
  · rw [h]
    exact .inr ⟨rfl, hs⟩

theorem readArrayLength_next (alloc : Allocator) (p : Parser) :
    readArrayLength alloc p = p.readArrayLength alloc ∨
      (readArrayLength alloc p = .panicked ∧ ¬ Sized p) := by
  unfold readArrayLength Parser.readArrayLength
  refine (orPanic_readLength p _).imp_left fun h => h.trans ?_
  rcases p.readLength with ⟨e | _ | length, r⟩
  · rfl
  · rfl
  · dsimp only
    cases Parser.usizeTryFrom length with
    | none => rfl
    | some n =>
      cases hw : Level.withCapacity alloc n <;> simp only [hw, orPanic]

/-- With a length whose line end can be counted, every index is tested before it is used. -/
theorem readBulkString_of_lt {len : Nat} (hlt : len + 2 < 2^64) :
    readBulkString len p = p.readBulkString len := by
  unfold readBulkString Parser.readBulkString
  rw [usizeAdd, if_pos hlt, orPanic_some]
  by_cases hl : len + 2 > p.buf.length
  · rw [if_pos hl, if_pos hl]
  · rw [if_neg hl, if_neg hl]
    have h0 : index p.buf len = some (p.buf[len]) := List.getElem?_eq_getElem (by omega)
    have h1 : index p.buf (len + 1) = some (p.buf[len + 1]) := List.getElem?_eq_getElem (by omega)
    have hadd : usizeAdd len 1 = some (len + 1) := if_pos (by omega)
    have hrest : 2 ≤ (p.buf.drop len).length := by rw [List.length_drop]; omega
    rw [h0, orPanic_some, hadd, Option.bind_some, h1, orPanic_some, drainTo_of_le (by omega),
      orPanic_some, drainTo_of_le hrest, orPanic_some, show p.buf[len]? = _ from h0,
      show p.buf[len + 1]? = _ from h1]
    by_cases hc : p.buf[len] = cr
    · by_cases hn : p.buf[len + 1] = lf
      · simp [hc, hn]
      · simp [hc, hn]
    · simp [hc]

theorem readBulkString_eq {len : Nat} (hs : p.state = .readingBulkString len) :
    readBulkString len p = p.readBulkString len ∨
      (readBulkString len p = .panicked ∧ ¬ Sized p) := by
  by_cases hlt : len + 2 < 2^64
  · exact .inl (readBulkString_of_lt hlt)
  · right
    constructor
    · rw [readBulkString, usizeAdd, if_neg hlt]
      rfl
    · intro hsized
      have := hsized.announced len hs
      omega

/-- A pass does what the total model says, unless a length has left the range of a vector. -/
theorem pass_eq (alloc : Allocator) (p : Parser) :
    pass alloc p = p.pass alloc ∨ (pass alloc p = .panicked ∧ ¬ Sized p) := by
  unfold pass Parser.pass
  cases hs : p.state with
  | start => exact .inl (readStart_eq p)
  | readingSimpleString => exact .inl (readSimple_eq _ p)
  | readingSimpleError => exact .inl (readSimple_eq _ p)
  | readingInline => exact .inl (readInline_eq p)
  | readingBulkLength => exact orPanic_readLength p _
  | readingBulkString len => exact readBulkString_eq hs
  | readingInteger => exact orPanic_readLength p _
  | readingArrayLength => exact readArrayLength_next alloc p
  | error e => exact .inl rfl

/-! ## The loops -/

theorem pass_again (h : pass alloc p = .again q) : p.pass alloc = .again q := by
  rcases pass_eq alloc p with he | ⟨he, -⟩
  · rw [← he, h]
  · rw [h] at he
    cases he

/-- The `loop` of `try_parse_one_frame`. -/
def tryLoop (alloc : Allocator) (p : Parser) :
    Option (Except ParseError (Option Frame) × Parser) :=
  match _h : pass alloc p with
  | .again q => tryLoop alloc q
  | .ret result q => some (result, q)
  | .panicked => none
termination_by p.measure
decreasing_by exact Parser.pass_again_measure (pass_again _h)

def tryParseOneFrame (alloc : Allocator) (p : Parser) :
    Option (Except ParseError (Option Frame) × Parser) :=
  match p.state with
  | .error e => some (.error e, p)
  | _ => tryLoop alloc p

/-- A panic aside, the loop does what the total model says. -/
theorem tryLoop_eq_or (alloc : Allocator) (p : Parser) :
    tryLoop alloc p = none ∨ tryLoop alloc p = p.tryLoop alloc := by
  induction p using tryLoop.induct alloc with
  | case1 p q hp ih =>
    rw [tryLoop, hp, Parser.tryLoop, pass_again hp]
    exact ih
  | case2 p result q hp =>
    rcases pass_eq alloc p with he | ⟨he, -⟩
    · rw [tryLoop, hp, Parser.tryLoop, ← he, hp]
      exact .inr rfl
    · rw [hp] at he
      cases he
  | case3 p hp =>
    rw [tryLoop, hp]
    exact .inl rfl

theorem tryParseOneFrame_eq_or (alloc : Allocator) (p : Parser) :
    tryParseOneFrame alloc p = none ∨ tryParseOneFrame alloc p = p.tryParseOneFrame alloc := by
  unfold tryParseOneFrame Parser.tryParseOneFrame
  cases p.state with
  | error e => exact .inr rfl
  | _ => exact tryLoop_eq_or alloc p

/-- The `while` of `parse`, from `last().unwrap()` and the subtraction in its test on. -/
def closeLoop : List Level → Option (List Level × List Frame)
  | [] => none
  | top :: rest =>
    match usizeSub top.capacity top.frames.length with
    | none => none
    | some room =>
      if room = 0 then
        match rest with
        | [] => some ([], [.array (some top.frames)])
        | next :: rest => closeLoop (next.push (.array (some top.frames)) :: rest)
      else some (top :: rest, [])
termination_by stack => stack.length

/-- The `Ok(Some(f))` arm of `parse`. -/
def accept (f : Frame) (p : Parser) : Option (Parser × List Frame) :=
  if p.stack.isEmpty then some (p, [f])
  else
    match p.stack with
    | [] => none
    | top :: rest => (closeLoop (top.push f :: rest)).map fun r => ({ p with stack := r.1 }, r.2)

/-- The subtraction of the close test never wraps. -/
theorem usizeSub_level (L : Level) :
    usizeSub L.capacity L.frames.length = some (L.capacity - L.frames.length) :=
  if_pos L.fits

theorem closeLoop_eq (top : Level) (rest : List Level) :
    closeLoop (top :: rest) = some (Parser.closeLoop top rest) := by
  induction rest generalizing top with
  | nil =>
    rw [closeLoop, usizeSub_level]
    dsimp only
    rw [Parser.closeLoop]
    by_cases h : top.isFull = true
    · rw [if_pos (Level.isFull_iff.mp h), if_pos h]
    · rw [if_neg (mt Level.isFull_iff.mpr h), if_neg h]
  | cons next rest ih =>
    rw [closeLoop, usizeSub_level]
    dsimp only
    rw [Parser.closeLoop]
    by_cases h : top.isFull = true
    · rw [if_pos (Level.isFull_iff.mp h), if_pos h]
      exact ih _
    · rw [if_neg (mt Level.isFull_iff.mpr h), if_neg h]

theorem accept_eq (f : Frame) (p : Parser) : accept f p = some (p.accept f) := by
  unfold accept Parser.accept
  cases hs : p.stack with
  | nil => rfl
  | cons top rest =>
    simp only [List.isEmpty_cons, Bool.false_eq_true, ↓reduceIte, closeLoop_eq, Option.map_some]

/-- The `loop` of `parse`. -/
def parseLoop (alloc : Allocator) (p : Parser) (output : List Frame) :
    Option (ParseResult × Parser) :=
  match _h : tryParseOneFrame alloc p with
  | none => none
  | some (.ok (some f), q) =>
    match _ha : accept f q with
    | none => none
    | some (next, out) => parseLoop alloc next (output ++ out)
  | some (.ok none, q) => some (.complete output, q)
  | some (.error e, q) => some (.partialResult output e, q.setError e)
termination_by p.measure
decreasing_by
  rcases tryParseOneFrame_eq_or alloc p with ht | ht
  · rw [ht] at _h
    cases _h
  · rw [ht] at _h
    have hn : next = (q.accept f).1 :=
      congrArg Prod.fst (Option.some.inj (_ha.symm.trans (accept_eq f q)))
    rw [hn, Parser.accept_measure]
    exact Parser.tryParseOneFrame_frame _h

/-- `Parser::parse`; `none` is a panic. -/
def parse (alloc : Allocator) (p : Parser) (input : Bytes) : Option (ParseResult × Parser) :=
  match extend p.buf input with
  | none => none
  | some buf => parseLoop alloc { p with buf := buf } []

def parseAll (alloc : Allocator) : Parser → List Bytes → Option (List ParseResult × Parser)
  | p, [] => some ([], p)
  | p, chunk :: chunks =>
    match parse alloc p chunk with
    | none => none
    | some (result, q) =>
      match parseAll alloc q chunks with
      | none => none
      | some (results, r) => some (result :: results, r)

/-! ## No operation of a call is out of range -/

theorem pass_of_sized (hs : Sized p) : pass alloc p = p.pass alloc :=
  (pass_eq alloc p).resolve_right fun h => h.2 hs

theorem Sized.again (hs : Sized p) (h : p.pass alloc = .again q) : Sized q where
  buffered := Nat.lt_of_le_of_lt (Parser.pass_again_buf h) hs.buffered
  announced := (Parser.pass_continued h).announced

theorem tryLoop_eq (hs : Sized p) : tryLoop alloc p = p.tryLoop alloc := by
  induction p using Parser.tryLoop.induct alloc with
  | case1 p q hp ih =>
    rw [tryLoop, pass_of_sized hs, Parser.tryLoop, hp]
    exact ih (hs.again hp)
  | case2 p result q hp => rw [tryLoop, pass_of_sized hs, Parser.tryLoop, hp]
  | case3 p hp => rw [tryLoop, pass_of_sized hs, Parser.tryLoop, hp]

theorem tryParseOneFrame_eq (hs : Sized p) :
    tryParseOneFrame alloc p = p.tryParseOneFrame alloc := by
  unfold tryParseOneFrame Parser.tryParseOneFrame
  cases p.state with
  | error e => rfl
  | _ => exact tryLoop_eq hs

theorem step_sized {out : List Frame} (hs : Sized p) (h : p.step alloc = .advance q out) :
    Sized q ∧ ∀ f ∈ out, True := by
  have hbuf := Nat.lt_of_le_of_lt (Parser.step_advance_buf h) hs.buffered
  refine ⟨?_, fun _ _ => trivial⟩
  unfold Parser.step at h
  split at h
  all_goals cases h
  · exact hs.again ‹_›
  · rename_i f r hp
    refine ⟨hbuf, fun n hn => ?_⟩
    rw [Parser.accept_state, (Parser.pass_frame hp).state] at hn
    cases hn

theorem step_halt_sized {e : Fault} (hs : Sized p) (h : p.step alloc = .halt e q) :
    Sized q := by
  have hbuf := Nat.lt_of_le_of_lt (Parser.step_halt_buf h) hs.buffered
  unfold Parser.step at h
  split at h
  all_goals cases h
  · exact ⟨hbuf, fun n hn => by cases hn⟩
  · exact hs

theorem parseLoop_eq (output : List Frame) (hs : Sized p) :
    parseLoop alloc p output = p.parseLoop alloc output := by
  induction p, output using Parser.parseLoop.induct alloc with
  | case1 p output hp => rw [parseLoop, tryParseOneFrame_eq hs, Parser.parseLoop, hp]
  | case2 p output f q hp ih =>
    have hrun := Parser.tryParseOneFrame_tried alloc p
    rw [hp] at hrun
    have hnext : Sized (q.accept f).1 := (hrun.keeps step_sized hs).1
    rw [parseLoop, tryParseOneFrame_eq hs, Parser.parseLoop, hp]
    dsimp only
    rw [accept_eq]
    exact ih hnext
  | case3 p output q hp => rw [parseLoop, tryParseOneFrame_eq hs, Parser.parseLoop, hp]
  | case4 p output e q hp => rw [parseLoop, tryParseOneFrame_eq hs, Parser.parseLoop, hp]

theorem parse_eq {input : Bytes} (hs : Sized (p.feed input)) :
    parse alloc p input = p.parse alloc input := by
  have hfit : extend p.buf input = some (p.buf ++ input) := by
    have hlen : p.buf.length + input.length < 2^63 := by
      rw [← List.length_append]
      exact hs.buffered
    exact if_pos (by unfold isizeMax; omega)
  rw [parse, hfit]
  exact parseLoop_eq [] hs

/-- On chunks that the calls can buffer, the only panic is a refused allocation. -/
theorem parseAll_eq {chunks : List Bytes} (hb : Parser.Buffered alloc p chunks)
    (hs : ∀ n, p.state = .readingBulkString n → n < 2^63) :
    parseAll alloc p chunks = p.parseAll alloc chunks := by
  induction chunks generalizing p with
  | nil => rfl
  | cons chunk chunks ih =>
    have hsized : Sized (p.feed chunk) := ⟨hb.1, hs⟩
    rw [parseAll, Parser.parseAll, parse_eq hsized]
    cases hp : p.parse alloc chunk with
    | none => rfl
    | some pair =>
      obtain ⟨result, q⟩ := pair
      have hq : Sized q :=
        ((Parser.parse_iff_ends.mp hp).keeps step_sized step_halt_sized hsized).1
      have hrest := ih (hb.2 result q hp) hq.announced
      dsimp only
      cases hall : q.parseAll alloc chunks with
      | none => simp only [hrest, hall]
      | some pair => simp only [hrest, hall]

end Redlike.Resp.Checked
