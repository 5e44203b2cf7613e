import Redlike.Resp.Parser

/-!
# The grammar of the protocol, by recursive descent

What the parser accepts, said without its states, its stack or its buffer. An
item is what stands at the head of the input: a whole leaf, a blank line, the
head of an array, too little input, or an error. A frame is an item, with the
elements of an array read recursively. `Descent` carries the fact that the rest
is shorter, which is what makes the recursion total.
-/
namespace Redlike.Resp.Grammar

/-- The bytes up to the first CR LF, and those after it. -/
def untilCrlf : Bytes → Option (Bytes × Bytes)
  | [] => none
  | b :: rest =>
    if b = cr ∧ rest.head? = some lf then some ([], rest.tail)
    else (untilCrlf rest).map fun (line, rest) => (b :: line, rest)

/-- The bytes up to the first LF, and those after it. -/
def untilLf : Bytes → Option (Bytes × Bytes)
  | [] => none
  | b :: rest => if b = lf then some ([], rest) else (untilLf rest).map fun (l, r) => (b :: l, r)

def digits (ds : Bytes) : Option Nat :=
  if ds ≠ [] ∧ IsDigits ds then some (decimalValue 0 ds) else none

/-- An optional sign and decimal digits. -/
def signed : Bytes → Option Int
  | [] => none
  | b :: ds =>
    if b = plus then (digits ds).map fun n : Nat => (n : Int)
    else if b = minus then (digits ds).map fun n : Nat => -(n : Int)
    else (digits (b :: ds)).map fun n : Nat => (n : Int)

/-- A line that is a number in the range of `i64`. -/
def number (line : Bytes) : Option Int64 :=
  (signed line).bind fun v => if i64Min ≤ v ∧ v ≤ i64Max then some (Int64.ofInt v) else none

/-- What stands at the head of the input. -/
inductive Item where
  | leaf (f : Frame) (rest : Bytes)
  | opened (length : Nat) (rest : Bytes)
  | blank (rest : Bytes)
  | more
  | error (e : ParseError)

def simple (make : String → Frame) (s : Bytes) : Item :=
  match untilCrlf s with
  | none => .more
  | some (line, rest) =>
    match fromUtf8 line with
    | none => .error .unreadableUtf
    | some payload => .leaf (make payload) rest

/-- A line that has to be a number, and what follows from the number. -/
def counted (s : Bytes) (use : Int64 → Bytes → Item) : Item :=
  match untilCrlf s with
  | none => .more
  | some (line, rest) =>
    match number line with
    | none => .error .invalidLength
    | some n => use n rest

/-- Exactly `n` bytes and a line end, judged only once `n + 2` bytes are there. -/
def payload (n : Nat) (s : Bytes) : Item :=
  if s.length < n + 2 then .more
  else if (s.drop n).take 2 = crlf then .leaf (.bulk (some (s.take n))) (s.drop (n + 2))
  else .error .unreadableBulkString

def bulk (n : Int64) (s : Bytes) : Item :=
  if n.toInt = -1 then .leaf (.bulk none) s
  else if n.toInt < -1 then .error .invalidLength
  else payload n.toInt.toNat s

def array (n : Int64) (s : Bytes) : Item :=
  if n.toInt = -1 then .leaf (.array none) s
  else if n.toInt = 0 then .leaf (.array (some [])) s
  else if n.toInt < -1 then .error .invalidLength
  else .opened n.toInt.toNat s

def inline (s : Bytes) : Item :=
  match untilLf s with
  | none => .more
  | some (line, rest) =>
    match fromUtf8 line with
    | none => .error .unreadableUtf
    | some text =>
      match splitWhitespace text with
      | [] => .blank rest
      | tokens => .leaf (.array (some (tokens.map fun t => .bulk (some t)))) rest

def item : Bytes → Item
  | [] => .more
  | b :: s =>
    if b = plus then simple .simpleString s
    else if b = minus then simple .simpleError s
    else if b = colon then counted s fun n rest => .leaf (.integer n) rest
    else if b = dollar then counted s bulk
    else if b = star then counted s array
    else inline (b :: s)

/-- What an item leaves over, if it leaves anything over. -/
def Item.rest? : Item → Option Bytes
  | .leaf _ rest | .opened _ rest | .blank rest => some rest
  | .more | .error _ => none

theorem untilCrlf_length {s line rest : Bytes} (h : untilCrlf s = some (line, rest)) :
    rest.length < s.length := by
  induction s generalizing line with
  | nil => cases h
  | cons b s ih =>
    rw [untilCrlf] at h
    split at h
    · cases h
      rw [List.length_tail, List.length_cons]
      omega
    · rw [Option.map_eq_some_iff] at h
      obtain ⟨⟨l, r⟩, hl, he⟩ := h
      cases he
      have := ih hl
      rw [List.length_cons]
      omega

theorem untilLf_length {s line rest : Bytes} (h : untilLf s = some (line, rest)) :
    rest.length < s.length := by
  induction s generalizing line with
  | nil => cases h
  | cons b s ih =>
    rw [untilLf] at h
    split at h
    · cases h
      rw [List.length_cons]
      omega
    · rw [Option.map_eq_some_iff] at h
      obtain ⟨⟨l, r⟩, hl, he⟩ := h
      cases he
      have := ih hl
      rw [List.length_cons]
      omega

/-! ## What an item is read from -/

/-- The bytes that begin a frame of the protocol. -/
def markerBytes : Bytes := [plus, dollar, star, minus, colon]

theorem mem_markerBytes {b : UInt8} :
    b ∈ markerBytes ↔ b = plus ∨ b = dollar ∨ b = star ∨ b = minus ∨ b = colon := by
  simp [markerBytes]

theorem item_plus (s : Bytes) : item (plus :: s) = simple .simpleString s := by
  rw [item, if_pos rfl]

theorem item_minus (s : Bytes) : item (minus :: s) = simple .simpleError s := by
  rw [item, if_neg (by decide), if_pos rfl]

theorem item_colon (s : Bytes) :
    item (colon :: s) = counted s fun n rest => .leaf (.integer n) rest := by
  rw [item, if_neg (by decide), if_neg (by decide), if_pos rfl]

theorem item_dollar (s : Bytes) : item (dollar :: s) = counted s bulk := by
  rw [item, if_neg (by decide), if_neg (by decide), if_neg (by decide), if_pos rfl]

theorem item_star (s : Bytes) : item (star :: s) = counted s array := by
  rw [item, if_neg (by decide), if_neg (by decide), if_neg (by decide), if_neg (by decide),
    if_pos rfl]

theorem item_unmarked {b : UInt8} (s : Bytes) (h : b ∉ markerBytes) :
    item (b :: s) = inline (b :: s) := by
  rw [mem_markerBytes] at h
  push Not at h
  obtain ⟨hplus, hdollar, hstar, hminus, hcolon⟩ := h
  rw [item, if_neg hplus, if_neg hminus, if_neg hcolon, if_neg hdollar, if_neg hstar]

/-- The items that are read, each with the bytes it is read from. -/
inductive Reads : Bytes → Item → Prop where
  | simpleString {s line rest : Bytes} {text : String} (hline : untilCrlf s = some (line, rest))
      (htext : fromUtf8 line = some text) : Reads (plus :: s) (.leaf (.simpleString text) rest)
  | simpleError {s line rest : Bytes} {text : String} (hline : untilCrlf s = some (line, rest))
      (htext : fromUtf8 line = some text) : Reads (minus :: s) (.leaf (.simpleError text) rest)
  | integer {s line rest : Bytes} {v : Int64} (hline : untilCrlf s = some (line, rest))
      (hv : number line = some v) : Reads (colon :: s) (.leaf (.integer v) rest)
  | nilBulk {s line rest : Bytes} {v : Int64} (hline : untilCrlf s = some (line, rest))
      (hv : number line = some v) (hnil : v.toInt = -1) :
      Reads (dollar :: s) (.leaf (.bulk none) rest)
  | bulk {s line payload rest : Bytes} {v : Int64}
      (hline : untilCrlf s = some (line, payload ++ crlf ++ rest))
      (hv : number line = some v) (hlen : v.toInt = (payload.length : Int)) :
      Reads (dollar :: s) (.leaf (.bulk (some payload)) rest)
  | nilArray {s line rest : Bytes} {v : Int64} (hline : untilCrlf s = some (line, rest))
      (hv : number line = some v) (hnil : v.toInt = -1) :
      Reads (star :: s) (.leaf (.array none) rest)
  | emptyArray {s line rest : Bytes} {v : Int64} (hline : untilCrlf s = some (line, rest))
      (hv : number line = some v) (hlen : v.toInt = 0) :
      Reads (star :: s) (.leaf (.array (some [])) rest)
  | opened {s line rest : Bytes} {v : Int64} {n : Nat} (hline : untilCrlf s = some (line, rest))
      (hv : number line = some v) (hlen : v.toInt = (n : Int)) (hpos : 0 < n) :
      Reads (star :: s) (.opened n rest)
  | blank {b : UInt8} {s line rest : Bytes} {text : String} (hb : b ∉ markerBytes)
      (hline : untilLf (b :: s) = some (line, rest)) (htext : fromUtf8 line = some text)
      (hwords : splitWhitespace text = []) : Reads (b :: s) (.blank rest)
  | inline {b : UInt8} {s line rest : Bytes} {text : String} (hb : b ∉ markerBytes)
      (hline : untilLf (b :: s) = some (line, rest)) (htext : fromUtf8 line = some text)
      (hwords : splitWhitespace text ≠ []) :
      Reads (b :: s)
        (.leaf (.array (some ((splitWhitespace text).map fun t => .bulk (some t)))) rest)

section Reads

variable {s r : Bytes} {v : Int64} {i : Item} (hi : i.rest? ≠ none)
include hi

private theorem simple_reads {make : String → Frame} (h : simple make s = i) :
    ∃ line text rest, untilCrlf s = some (line, rest) ∧ fromUtf8 line = some text ∧
      i = .leaf (make text) rest := by
  unfold simple at h
  split at h
  · exact absurd (h ▸ rfl) hi
  · rename_i line rest hline
    split at h
    · exact absurd (h ▸ rfl) hi
    · rename_i text htext
      exact ⟨line, text, rest, hline, htext, h.symm⟩

private theorem counted_reads {use : Int64 → Bytes → Item} (h : counted s use = i) :
    ∃ line v rest, untilCrlf s = some (line, rest) ∧ number line = some v ∧ use v rest = i := by
  unfold counted at h
  split at h
  · exact absurd (h ▸ rfl) hi
  · rename_i line rest hline
    split at h
    · exact absurd (h ▸ rfl) hi
    · rename_i v hv
      exact ⟨line, v, rest, hline, hv, h⟩

private theorem bulk_reads (h : bulk v r = i) :
    (v.toInt = -1 ∧ i = .leaf (.bulk none) r) ∨
    ∃ payload rest, v.toInt = (payload.length : Int) ∧ r = payload ++ crlf ++ rest ∧
      i = .leaf (.bulk (some payload)) rest := by
  unfold bulk payload at h
  split at h
  · rename_i hnil
    exact .inl ⟨hnil, h.symm⟩
  split at h
  · exact absurd (h ▸ rfl) hi
  split at h
  · exact absurd (h ▸ rfl) hi
  split at h
  · rename_i hnil hneg hlen hcrlf
    refine .inr ⟨_, _, ?_, ?_, h.symm⟩
    · rw [List.length_take]
      omega
    · rw [← hcrlf, List.append_assoc, ← List.drop_drop, List.take_append_drop,
        List.take_append_drop]
  · exact absurd (h ▸ rfl) hi

private theorem array_reads (h : array v r = i) :
    (v.toInt = -1 ∧ i = .leaf (.array none) r) ∨ (v.toInt = 0 ∧ i = .leaf (.array (some [])) r) ∨
    ∃ n : Nat, v.toInt = (n : Int) ∧ 0 < n ∧ i = .opened n r := by
  unfold array at h
  split at h
  · rename_i hnil
    exact .inl ⟨hnil, h.symm⟩
  split at h
  · rename_i hzero
    exact .inr (.inl ⟨hzero, h.symm⟩)
  split at h
  · exact absurd (h ▸ rfl) hi
  · exact .inr (.inr ⟨_, by omega, by omega, h.symm⟩)

private theorem inline_reads {b : UInt8} (hb : b ∉ markerBytes) (h : inline (b :: s) = i) :
    Reads (b :: s) i := by
  unfold inline at h
  split at h
  · exact absurd (h ▸ rfl) hi
  · rename_i line rest hline
    split at h
    · exact absurd (h ▸ rfl) hi
    · rename_i text htext
      split at h
      · exact h ▸ .blank hb hline htext ‹_›
      · exact h ▸ .inline hb hline htext ‹_›

/-- What `item` answers, apart from "more" and errors. -/
theorem item_reads (h : item s = i) : Reads s i := by
  cases s with
  | nil => exact absurd (h ▸ rfl) hi
  | cons b s =>
    by_cases hb : b ∈ markerBytes
    · rcases mem_markerBytes.mp hb with rfl | rfl | rfl | rfl | rfl
      · obtain ⟨line, text, rest, hline, htext, rfl⟩ := simple_reads hi (item_plus s ▸ h)
        exact .simpleString hline htext
      · obtain ⟨line, v, rest, hline, hv, hu⟩ := counted_reads hi (item_dollar s ▸ h)
        rcases bulk_reads hi hu with ⟨hnil, rfl⟩ | ⟨payload, rest, hlen, rfl, rfl⟩
        · exact .nilBulk hline hv hnil
        · exact .bulk hline hv hlen
      · obtain ⟨line, v, rest, hline, hv, hu⟩ := counted_reads hi (item_star s ▸ h)
        rcases array_reads hi hu with ⟨hnil, rfl⟩ | ⟨hzero, rfl⟩ | ⟨n, hlen, hpos, rfl⟩
        · exact .nilArray hline hv hnil
        · exact .emptyArray hline hv hzero
        · exact .opened hline hv hlen hpos
      · obtain ⟨line, text, rest, hline, htext, rfl⟩ := simple_reads hi (item_minus s ▸ h)
        exact .simpleError hline htext
      · obtain ⟨line, v, rest, hline, hv, rfl⟩ := counted_reads hi (item_colon s ▸ h)
        exact .integer hline hv
    · exact inline_reads hi hb (item_unmarked s hb ▸ h)

end Reads

theorem Reads.shorter {s rest : Bytes} {i : Item} (h : Reads s i) (hr : i.rest? = some rest) :
    rest.length < s.length := by
  cases h with
  | simpleString hline _ | simpleError hline _ | integer hline _ | nilBulk hline _ _
  | nilArray hline _ _ | emptyArray hline _ _ | opened hline _ _ _ =>
    cases hr
    exact Nat.lt_succ_of_lt (untilCrlf_length hline)
  | bulk hline _ _ =>
    cases hr
    have hl := untilCrlf_length hline
    rw [List.length_append] at hl
    rw [List.length_cons]
    omega
  | blank _ hline _ _ | inline _ hline _ _ =>
    cases hr
    exact untilLf_length hline

theorem leaf_reads {s rest : Bytes} {f : Frame} (h : item s = .leaf f rest) :
    Reads s (.leaf f rest) := item_reads (Option.some_ne_none rest) h

theorem blank_reads {s rest : Bytes} (h : item s = .blank rest) : Reads s (.blank rest) :=
  item_reads (Option.some_ne_none rest) h

theorem opened_reads {s rest : Bytes} {n : Nat} (h : item s = .opened n rest) :
    Reads s (.opened n rest) := item_reads (Option.some_ne_none rest) h

theorem leaf_shorter {s rest : Bytes} {f : Frame} (h : item s = .leaf f rest) :
    rest.length < s.length := (leaf_reads h).shorter rfl

theorem blank_shorter {s rest : Bytes} (h : item s = .blank rest) :
    rest.length < s.length := (blank_reads h).shorter rfl

theorem opened_shorter {s rest : Bytes} {n : Nat} (h : item s = .opened n rest) :
    rest.length < s.length := (opened_reads h).shorter rfl

/-- An array head that opens a level announces at least one element. -/
theorem item_opened_pos {s rest : Bytes} {n : Nat} (h : item s = .opened n rest) : 0 < n := by
  cases opened_reads h with
  | opened _ _ _ hpos => exact hpos

/-- An answer of the descent; what it leaves over is shorter than `bound`. -/
inductive Descent (α : Type) (bound : Nat) where
  | parsed (value : α) (rest : Bytes) (shorter : rest.length < bound)
  | more
  | error (e : ParseError)

mutual
/-- Skip blank lines, then read one frame. -/
def frame (s : Bytes) : Descent Frame s.length :=
  match h : item s with
  | .leaf f rest => .parsed f rest (leaf_shorter h)
  | .blank rest =>
    have hr := blank_shorter h
    match frame rest with
    | .parsed f rest hf => .parsed f rest (Nat.lt_trans hf hr)
    | .more => .more
    | .error e => .error e
  | .opened n rest =>
    have hr := opened_shorter h
    match frames n rest with
    | .parsed fs rest hf => .parsed (.array (some fs)) rest (by omega)
    | .more => .more
    | .error e => .error e
  | .more => .more
  | .error e => .error e
termination_by 2 * s.length
/-- Read `n` frames one after another. -/
def frames (n : Nat) (s : Bytes) : Descent (List Frame) (s.length + 1) :=
  match n with
  | 0 => .parsed [] s (Nat.lt_succ_self _)
  | n + 1 =>
    match frame s with
    | .parsed f rest hf =>
      match frames n rest with
      | .parsed fs rest hr => .parsed (f :: fs) rest (by omega)
      | .more => .more
      | .error e => .error e
    | .more => .more
    | .error e => .error e
termination_by 2 * s.length + 1
end

/-- All frames at top level, and the error that ends them, if one does. -/
def stream (s : Bytes) : List Frame × Option ParseError :=
  match frame s with
  | .parsed f rest _ => (f :: (stream rest).1, (stream rest).2)
  | .more => ([], none)
  | .error e => ([], some e)
termination_by s.length

/-- What one call of `parse` on a fresh parser has to answer. -/
def result (s : Bytes) : ParseResult :=
  match (stream s).2 with
  | none => .complete (stream s).1
  | some e => .partialResult (stream s).1 e

end Redlike.Resp.Grammar
