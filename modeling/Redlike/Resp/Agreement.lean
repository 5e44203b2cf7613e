import Redlike.Resp.Chunking
import Redlike.Resp.Grammar

/-!
# The parser accepts exactly its grammar

The state machine and the recursive descent agree on every byte string. Each
item of the grammar is a short run of the machine from its start state, for
every stack; a frame is such a run that ends by handing the frame to `accept`;
and the elements of an array fill the level their head opened.
-/
namespace Redlike.Resp.Grammar

open Lib.Incremental
open Redlike.Resp.Parser

/-! ## The answers of the descent, without their bounds -/

inductive Answer (α : Type) where
  | parsed (value : α) (rest : Bytes)
  | more
  | error (e : ParseError)

namespace Answer

variable {α β : Type}

def map (g : α → β) : Answer α → Answer β
  | .parsed a rest => .parsed (g a) rest
  | .more => .more
  | .error e => .error e

def bind (x : Answer α) (g : α → Bytes → Answer β) : Answer β :=
  match x with
  | .parsed a rest => g a rest
  | .more => .more
  | .error e => .error e

end Answer

def Descent.answer {α : Type} {n : Nat} : Descent α n → Answer α
  | .parsed a rest _ => .parsed a rest
  | .more => .more
  | .error e => .error e

theorem frame_item (s : Bytes) :
    (frame s).answer = match item s with
      | .leaf f rest => .parsed f rest
      | .blank rest => (frame rest).answer
      | .opened n rest => (frames n rest).answer.map fun fs => .array (some fs)
      | .more => .more
      | .error e => .error e := by
  rw [frame]
  split
  · rename_i h
    conv_rhs => rw [h]
    rfl
  · rename_i rest h
    conv_rhs => rw [h]
    dsimp only
    cases frame rest <;> rfl
  · rename_i n rest h
    conv_rhs => rw [h]
    dsimp only
    cases frames n rest <;> rfl
  · rename_i h
    conv_rhs => rw [h]
    rfl
  · rename_i h
    conv_rhs => rw [h]
    rfl

theorem frames_zero (s : Bytes) : (frames 0 s).answer = .parsed [] s := by
  rw [frames]
  rfl

theorem frames_succ (n : Nat) (s : Bytes) :
    (frames (n + 1) s).answer =
      (frame s).answer.bind fun f rest => (frames n rest).answer.map (f :: ·) := by
  rw [frames]
  cases frame s with
  | parsed f rest h =>
    dsimp only [Descent.answer, Answer.bind]
    cases frames n rest <;> rfl
  | more => rfl
  | error => rfl

theorem answer_shorter {s rest : Bytes} {f : Frame} (h : (frame s).answer = .parsed f rest) :
    rest.length < s.length := by
  cases hf : frame s with
  | parsed g r hr =>
    rw [hf] at h
    cases h
    exact hr
  | more => rw [hf] at h; cases h
  | error e => rw [hf] at h; cases h

theorem Answer.map_eq_parsed {α β : Type} {g : α → β} {x : Answer α} {b : β} {rest : Bytes}
    (h : x.map g = .parsed b rest) : ∃ a, x = .parsed a rest ∧ g a = b := by
  cases x with
  | parsed a r =>
    cases h
    exact ⟨a, rfl, rfl⟩
  | more => cases h
  | error e => cases h

/-- A frame that is read is a leaf, stands behind a blank line, or is an array with elements. -/
theorem frame_parsed {s rest : Bytes} {f : Frame} (h : (frame s).answer = .parsed f rest) :
    item s = .leaf f rest ∨ (∃ r, item s = .blank r ∧ (frame r).answer = .parsed f rest) ∨
    ∃ n r fs, item s = .opened n r ∧ (frames n r).answer = .parsed fs rest ∧
      f = .array (some fs) := by
  rw [frame_item] at h
  cases hit : item s with
  | leaf g r =>
    rw [hit] at h
    cases h
    exact .inl rfl
  | blank r =>
    rw [hit] at h
    exact .inr (.inl ⟨r, rfl, h⟩)
  | opened n r =>
    rw [hit] at h
    obtain ⟨fs, hfs, he⟩ := Answer.map_eq_parsed h
    exact .inr (.inr ⟨n, r, fs, rfl, hfs, he.symm⟩)
  | more => rw [hit] at h; cases h
  | error e => rw [hit] at h; cases h

theorem frames_parsed {n : Nat} {s rest : Bytes} {fs : List Frame}
    (h : (frames (n + 1) s).answer = .parsed fs rest) :
    ∃ f r gs, (frame s).answer = .parsed f r ∧ (frames n r).answer = .parsed gs rest ∧
      fs = f :: gs := by
  rw [frames_succ] at h
  cases hf : (frame s).answer with
  | parsed f r =>
    rw [hf] at h
    obtain ⟨gs, hgs, he⟩ := Answer.map_eq_parsed h
    exact ⟨f, r, gs, rfl, hgs, he.symm⟩
  | more => rw [hf] at h; cases h
  | error e => rw [hf] at h; cases h

/-- Induction along the descent, on its termination measure: what holds of a frame may use
what stands behind a blank line or an array head, what holds of elements the first of them
and those behind it. -/
theorem descent_induction {P : Bytes → Prop} {Q : Nat → Bytes → Prop}
    (hframe : ∀ s, (∀ r, item s = .blank r → P r) → (∀ n r, item s = .opened n r → Q n r) → P s)
    (hzero : ∀ s, Q 0 s)
    (hsucc : ∀ n s, P s → (∀ f r, (frame s).answer = .parsed f r → Q n r) → Q (n + 1) s) :
    (∀ s, P s) ∧ ∀ n s, Q n s := by
  have bounded : ∀ m, (∀ s, 2 * s.length < m → P s) ∧ ∀ n s, 2 * s.length + 1 < m → Q n s := by
    intro m
    induction m with
    | zero =>
      exact ⟨fun _ h => absurd h (Nat.not_lt_zero _), fun _ _ h => absurd h (Nat.not_lt_zero _)⟩
    | succ m ih =>
      obtain ⟨ihFrame, ihFrames⟩ := ih
      refine ⟨fun s hm => hframe s ?_ ?_, fun n s hm => ?_⟩
      · intro r hit
        have hl := blank_shorter hit
        exact ihFrame r (by omega)
      · intro n r hit
        have hl := opened_shorter hit
        exact ihFrames n r (by omega)
      · cases n with
        | zero => exact hzero s
        | succ n =>
          refine hsucc n s (ihFrame s (by omega)) ?_
          intro f r hf
          have hl := answer_shorter hf
          exact ihFrames n r (by omega)
  refine ⟨fun s => ?_, fun n s => ?_⟩
  · exact (bounded (2 * s.length + 1)).1 s (Nat.lt_succ_self _)
  · exact (bounded (2 * s.length + 2)).2 n s (Nat.lt_succ_self _)

theorem stream_answer (s : Bytes) :
    stream s = match (frame s).answer with
      | .parsed f rest => (f :: (stream rest).1, (stream rest).2)
      | .more => ([], none)
      | .error e => ([], some e) := by
  rw [stream]
  cases frame s <;> rfl

/-! ## Lines and numbers -/

theorem untilCrlf_eq (s : Bytes) :
    untilCrlf s = (crlfPosition s).map fun pos => (s.take pos, s.drop (pos + 2)) := by
  induction s with
  | nil => rfl
  | cons a s ih =>
    rw [untilCrlf]
    cases s with
    | nil => simp [untilCrlf, crlfPosition]
    | cons b s =>
      rw [crlfPosition, ih]
      simp only [List.head?_cons, Option.some.injEq]
      split
      · rfl
      · rw [Option.map_map, Option.map_map]
        rfl

theorem untilLf_eq (s : Bytes) :
    untilLf s = (memchr lf s).map fun pos => (s.take pos, s.drop (pos + 1)) := by
  induction s with
  | nil => rfl
  | cons a s ih =>
    rw [untilLf, ih, memchr, memchr, List.findIdx?_cons]
    by_cases h : a = lf
    · simp [h]
    · rw [if_neg h, if_neg (by simpa using h), Option.map_map, Option.map_map]
      rfl

/-- Bytes below 128 are UTF-8. -/
theorem fromUtf8_ascii {b : Bytes} (h : ∀ x ∈ b, x.toNat < 128) :
    ∃ s, fromUtf8 b = some s := by
  have hb : asBytes (String.ofList (b.map fun x => Char.ofNat x.toNat)) = b := by
    rw [asBytes_ofList, List.flatMap_map]
    induction b with
    | nil => rfl
    | cons x b ih =>
      have hx := h x (by simp)
      have hv : (Char.ofNat x.toNat).val.toNat = x.toNat := by
        have hvalid : x.toNat.isValidChar := .inl (by omega)
        rw [Char.ofNat, dif_pos hvalid]
        rfl
      rw [List.flatMap_cons, ih (fun y hy => h y (by simp [hy]))]
      simp only [String.utf8EncodeChar, hv]
      rw [if_pos (by omega)]
      simp
  exact ⟨_, by rw [← hb]; exact fromUtf8_asBytes _⟩

private theorem digits_ascii {ds : Bytes} (h : IsDigits ds) : ∀ x ∈ ds, x.toNat < 128 := by
  intro x hx
  have := h x hx
  unfold toDigit at this
  split at this
  · omega
  · cases this

theorem digits_eq_some {ds : Bytes} {n : Nat} :
    digits ds = some n ↔ ds ≠ [] ∧ IsDigits ds ∧ n = decimalValue 0 ds := by
  unfold digits
  split
  · rename_i h
    simp [h, eq_comm]
  · rename_i h
    simp only [reduceCtorEq, false_iff]
    exact fun hh => h ⟨hh.1, hh.2.1⟩

theorem signed_eq_some {line : Bytes} {v : Int} :
    signed line = some v ↔ ∃ ds, ds ≠ [] ∧ IsDigits ds ∧
      ((line = ds ∧ v = decimalValue 0 ds) ∨ (line = plus :: ds ∧ v = decimalValue 0 ds) ∨
        (line = minus :: ds ∧ v = -(decimalValue 0 ds : Int))) := by
  constructor
  · intro h
    cases line with
    | nil => cases h
    | cons b ds =>
      rw [signed] at h
      split at h
      · subst b
        obtain ⟨n, hn, rfl⟩ := Option.map_eq_some_iff.mp h
        obtain ⟨hne, hd, rfl⟩ := digits_eq_some.mp hn
        exact ⟨ds, hne, hd, .inr (.inl ⟨rfl, rfl⟩)⟩
      · split at h
        · subst b
          obtain ⟨n, hn, rfl⟩ := Option.map_eq_some_iff.mp h
          obtain ⟨hne, hd, rfl⟩ := digits_eq_some.mp hn
          exact ⟨ds, hne, hd, .inr (.inr ⟨rfl, rfl⟩)⟩
        · obtain ⟨n, hn, rfl⟩ := Option.map_eq_some_iff.mp h
          obtain ⟨hne, hd, rfl⟩ := digits_eq_some.mp hn
          exact ⟨b :: ds, hne, hd, .inl ⟨rfl, rfl⟩⟩
  · rintro ⟨ds, hne, hd, ⟨rfl, rfl⟩ | ⟨rfl, rfl⟩ | ⟨rfl, rfl⟩⟩
    · obtain ⟨b, ds, rfl⟩ := List.exists_cons_of_ne_nil hne
      obtain ⟨hp, hm⟩ := digits_cons hd
      rw [signed, if_neg hp, if_neg hm, digits_eq_some.mpr ⟨hne, hd, rfl⟩]
      rfl
    · rw [signed, if_pos rfl, digits_eq_some.mpr ⟨hne, hd, rfl⟩]
      rfl
    · rw [signed, if_neg (by decide), if_pos rfl, digits_eq_some.mpr ⟨hne, hd, rfl⟩]
      rfl

theorem isNumber_iff_signed {line : Bytes} {v : Int} :
    IsNumber i64Min i64Max line v ↔ signed line = some v ∧ i64Min ≤ v ∧ v ≤ i64Max := by
  rw [signed_eq_some]
  have hlt : i64Min < 0 := by decide
  constructor
  · rintro ⟨h1, h2, ds, hne, hd, h | h | ⟨_, h⟩⟩
    · exact ⟨⟨ds, hne, hd, .inl h⟩, h1, h2⟩
    · exact ⟨⟨ds, hne, hd, .inr (.inl h)⟩, h1, h2⟩
    · exact ⟨⟨ds, hne, hd, .inr (.inr h)⟩, h1, h2⟩
  · rintro ⟨⟨ds, hne, hd, h | h | h⟩, h1, h2⟩
    · exact ⟨h1, h2, ds, hne, hd, .inl h⟩
    · exact ⟨h1, h2, ds, hne, hd, .inr (.inl h)⟩
    · exact ⟨h1, h2, ds, hne, hd, .inr (.inr ⟨hlt, h⟩)⟩

theorem signed_ascii {line : Bytes} {v : Int} (h : signed line = some v) :
    ∀ x ∈ line, x.toNat < 128 := by
  rcases signed_eq_some.mp h with ⟨ds, _, hd, ⟨rfl, _⟩ | ⟨rfl, _⟩ | ⟨rfl, _⟩⟩
  · exact digits_ascii hd
  all_goals
    intro x hx
    rcases List.mem_cons.mp hx with rfl | hx
    · decide
    · exact digits_ascii hd x hx

/-- The checked integer parser, behind its UTF-8 check, reads the grammar's numbers. -/
theorem number_eq (line : Bytes) :
    number line = (fromUtf8 line).bind fun s => parseI64 (asBytes s) := by
  have hparse : parseI64 line = number line := by
    unfold parseI64 number
    cases hv : parseInt i64Min i64Max line with
    | some v =>
      obtain ⟨hs, hr⟩ := isNumber_iff_signed.mp ((parseInt_eq_some (by decide) (by decide) _).mp hv)
      rw [hs, Option.map_some, Option.bind_some, if_pos hr]
    | none =>
      cases hs : signed line with
      | none => rfl
      | some v =>
        rw [Option.map_none, Option.bind_some, if_neg]
        intro hr
        rw [(parseInt_eq_some (by decide) (by decide) _).mpr
          (isNumber_iff_signed.mpr ⟨hs, hr⟩)] at hv
        cases hv
  cases hu : fromUtf8 line with
  | some s => rw [Option.bind_some, asBytes_of_fromUtf8 hu, hparse]
  | none =>
    rw [Option.bind_none, number]
    cases hs : signed line with
    | none => rfl
    | some v =>
      obtain ⟨t, ht⟩ := fromUtf8_ascii (signed_ascii hs)
      rw [ht] at hu
      cases hu

/-! ## Items are short runs -/

section Items

variable {alloc : Allocator}

/-- The run of the machine that an item stands for. An array head asks for room, which
the allocator may refuse. -/
def Item.RunWith (alloc : Allocator) (p : Parser) : Item → Prop
  | .leaf f rest =>
    Runs (machine alloc) p (accept f ⟨.start, rest, p.stack⟩).2 (accept f ⟨.start, rest, p.stack⟩).1
  | .opened n rest =>
    (∀ level, Level.withCapacity alloc n = some level →
      Runs (machine alloc) p [] ⟨.start, rest, level :: p.stack⟩) ∧
    (Level.withCapacity alloc n = none → ∃ q, Ends (machine alloc) p [] (some .capacity) q)
  | .blank rest => Runs (machine alloc) p [] ⟨.start, rest, p.stack⟩
  | .more => ∃ q, Ends (machine alloc) p [] none q
  | .error e => ∃ q, Ends (machine alloc) p [] (some (.parse e)) q

theorem Item.RunWith.of_again {p q : Parser} {it : Item} (hp : p.pass alloc = .again q)
    (hs : q.stack = p.stack) (h : it.RunWith alloc q) : it.RunWith alloc p := by
  have hr : Runs (machine alloc) p [] q := .single (show p.step alloc = _ by rw [step, hp])
  cases it with
  | leaf f rest => rw [Item.RunWith, hs] at h; exact hr.trans h
  | opened n rest =>
    rw [Item.RunWith, hs] at h
    exact ⟨fun level hl => hr.trans (h.1 level hl), fun hn => (h.2 hn).imp fun _ he => .of_runs hr he⟩
  | blank rest => rw [Item.RunWith, hs] at h; exact hr.trans h
  | more => exact h.imp fun _ he => .of_runs hr he
  | error e => exact h.imp fun _ he => .of_runs hr he

theorem run_leaf {p q : Parser} {f : Frame} {rest : Bytes}
    (hp : p.pass alloc = .ret (.ok (some f)) q) (hq : q = ⟨.start, rest, p.stack⟩) :
    (Item.leaf f rest).RunWith alloc p := by
  subst hq
  exact .single (show p.step alloc = _ by rw [step, hp])

theorem run_more {p q : Parser} (hp : p.pass alloc = .ret (.ok none) q) : Item.more.RunWith alloc p :=
  ⟨p, .of_wait (show p.step alloc = _ by rw [step, hp])⟩

theorem run_error {p q : Parser} {e : ParseError} (hp : p.pass alloc = .ret (.error e) q) :
    (Item.error e).RunWith alloc p :=
  ⟨q.setError e, .of_halt (show p.step alloc = _ by rw [step, hp])⟩

/-- `read_length` in the words of the grammar. -/
theorem readLength_eq (p : Parser) :
    p.readLength = match untilCrlf p.buf with
      | none => (.ok none, p)
      | some (line, rest) =>
        match number line with
        | none => (.error .invalidLength, p)
        | some v => (.ok (some v), { p with buf := rest }) := by
  rw [untilCrlf_eq]
  rcases p.readLength_cases with ⟨hp, hr⟩ | ⟨pos, hp, hv, hr⟩ | ⟨pos, v, hp, hv, hr⟩
  · rw [hr, hp]; rfl
  all_goals
    rw [hr, hp]
    dsimp only [Option.map_some]
    rw [number_eq, hv]

theorem readSimple_run {p : Parser} {make : String → Frame}
    (hp : p.pass alloc = p.readSimple make) : (simple make p.buf).RunWith alloc p := by
  rw [simple, untilCrlf_eq]
  unfold readSimple at hp
  cases hc : crlfPosition p.buf with
  | none => rw [hc] at hp; exact run_more hp
  | some pos =>
    rw [hc] at hp
    dsimp only [Option.map_some] at hp ⊢
    cases hu : fromUtf8 (p.buf.take pos) with
    | none => rw [hu] at hp; exact run_error hp
    | some payload =>
      rw [hu] at hp
      exact run_leaf hp (by rw [List.drop_drop])

theorem readInline_run {p : Parser} (hs : p.state = .readingInline) : (inline p.buf).RunWith alloc p := by
  have hp : p.pass alloc = p.readInline := by rw [Parser.pass, hs]
  rw [inline, untilLf_eq]
  unfold readInline at hp
  cases hc : memchr lf p.buf with
  | none => rw [hc] at hp; exact run_more hp
  | some pos =>
    rw [hc] at hp
    dsimp only [Option.map_some] at hp ⊢
    cases hu : fromUtf8 (p.buf.take pos) with
    | none => rw [hu] at hp; exact run_error hp
    | some text =>
      rw [hu] at hp
      dsimp only at hp ⊢
      cases hw : splitWhitespace text with
      | nil =>
        rw [hw] at hp
        refine .single (show p.step alloc = _ from ?_)
        rw [step, hp]
        simp [List.drop_drop]
      | cons t ts =>
        rw [hw] at hp
        exact run_leaf hp (by rw [List.drop_drop])

private theorem take_crlf_iff {s : Bytes} {n : Nat} :
    (s.drop n).take 2 = crlf ↔ s[n]? = some cr ∧ s[n+1]? = some lf := by
  have h0 : s[n]? = (s.drop n)[0]? := by rw [List.getElem?_drop, Nat.add_zero]
  have h1 : s[n+1]? = (s.drop n)[1]? := by rw [List.getElem?_drop]
  rw [h0, h1]
  match s.drop n with
  | [] => simp [crlf]
  | [a] => simp [crlf]
  | a :: b :: rest => simp [crlf]

theorem readBulkString_run {p : Parser} {n : Nat} (hs : p.state = .readingBulkString n) :
    (payload n p.buf).RunWith alloc p := by
  have hp : p.pass alloc = p.readBulkString n := by rw [Parser.pass, hs]
  unfold readBulkString at hp
  rw [payload]
  by_cases hl : p.buf.length < n + 2
  · rw [if_pos hl] at hp ⊢
    exact run_more hp
  · rw [if_neg hl] at hp ⊢
    by_cases hc : (p.buf.drop n).take 2 = crlf
    · obtain ⟨h0, h1⟩ := take_crlf_iff.mp hc
      rw [if_neg (by simp [h0, h1])] at hp
      rw [if_pos hc]
      exact run_leaf hp (by rw [List.drop_drop])
    · rw [if_pos (by rw [take_crlf_iff] at hc; tauto)] at hp
      rw [if_neg hc]
      exact run_error hp

/-- A state that reads a number first: what is left is the case of a number. -/
theorem counted_run {p : Parser} {use : Int64 → Bytes → Item}
    (hnone : p.readLength = (.ok none, p) → ∃ q, p.pass alloc = .ret (.ok none) q)
    (herror : p.readLength = (.error .invalidLength, p) →
      ∃ q, p.pass alloc = .ret (.error .invalidLength) q)
    (hsome : ∀ v rest, p.readLength = (.ok (some v), { p with buf := rest }) → (use v rest).RunWith alloc p) :
    (counted p.buf use).RunWith alloc p := by
  have hr := readLength_eq p
  rw [counted]
  cases hu : untilCrlf p.buf with
  | none =>
    rw [hu] at hr
    obtain ⟨q, hq⟩ := hnone hr
    exact run_more hq
  | some pair =>
    obtain ⟨line, rest⟩ := pair
    rw [hu] at hr
    dsimp only at hr ⊢
    cases hn : number line with
    | none =>
      rw [hn] at hr
      obtain ⟨q, hq⟩ := herror hr
      exact run_error hq
    | some v =>
      rw [hn] at hr
      exact hsome v rest hr

theorem readInteger_run {p : Parser} (hs : p.state = .readingInteger) :
    (counted p.buf fun n rest => .leaf (.integer n) rest).RunWith alloc p := by
  have hp : p.pass alloc = p.readInteger := by rw [Parser.pass, hs]
  unfold readInteger at hp
  apply counted_run
  · intro h; rw [h] at hp; exact ⟨p, hp⟩
  · intro h; rw [h] at hp; exact ⟨p, hp⟩
  · intro v rest h
    rw [h] at hp
    exact run_leaf hp rfl

private theorem usizeTryFrom_eq {v : Int64} (h1 : v.toInt ≠ -1) (h2 : ¬ v.toInt < -1) :
    usizeTryFrom v = some v.toInt.toNat := by
  rw [usizeTryFrom, if_pos (by omega)]

theorem readBulkLength_run {p : Parser} (hs : p.state = .readingBulkLength) :
    (counted p.buf bulk).RunWith alloc p := by
  have hp : p.pass alloc = p.readBulkLength := by rw [Parser.pass, hs]
  unfold readBulkLength at hp
  apply counted_run
  · intro h; rw [h] at hp; exact ⟨p, hp⟩
  · intro h; rw [h] at hp; exact ⟨p, hp⟩
  · intro v rest h
    rw [h] at hp
    dsimp only at hp
    rw [bulk]
    by_cases h1 : v.toInt = -1
    · rw [if_pos h1] at hp ⊢
      exact run_leaf hp rfl
    · rw [if_neg h1] at hp ⊢
      by_cases h2 : v.toInt < -1
      · rw [if_pos h2] at hp ⊢
        exact run_error hp
      · rw [if_neg h2] at hp ⊢
        rw [usizeTryFrom_eq h1 h2] at hp
        exact .of_again hp rfl (readBulkString_run rfl)

theorem readArrayLength_run {p : Parser} (hs : p.state = .readingArrayLength) :
    (counted p.buf array).RunWith alloc p := by
  have hp : p.pass alloc = p.readArrayLength alloc := by rw [Parser.pass, hs]
  unfold readArrayLength at hp
  apply counted_run
  · intro h; rw [h] at hp; exact ⟨p, hp⟩
  · intro h; rw [h] at hp; exact ⟨p, hp⟩
  · intro v rest h
    rw [h] at hp
    dsimp only at hp
    rw [array]
    by_cases h1 : v.toInt = -1
    · rw [if_pos h1] at hp ⊢
      exact run_leaf hp rfl
    · rw [if_neg h1] at hp ⊢
      by_cases h0 : v.toInt = 0
      · rw [if_pos h0] at hp ⊢
        exact run_leaf hp rfl
      · rw [if_neg h0] at hp ⊢
        by_cases h2 : v.toInt < -1
        · rw [if_pos h2] at hp ⊢
          exact run_error hp
        · rw [if_neg h2] at hp ⊢
          rw [usizeTryFrom_eq h1 h2] at hp
          dsimp only at hp
          refine ⟨fun level hl => ?_, fun hn => ?_⟩
          · rw [hl] at hp
            exact .single (show p.step alloc = _ by rw [step, hp])
          · rw [hn] at hp
            exact ⟨p, .of_halt (show p.step alloc = _ by rw [step, hp])⟩

/-- From the start state the machine reads the item at the head of its buffer. -/
theorem item_runWith {p : Parser} (hs : p.state = .start) : (item p.buf).RunWith alloc p := by
  have hp : p.pass alloc = p.readStart := by rw [Parser.pass, hs]
  unfold readStart at hp
  cases hb : p.buf with
  | nil => rw [hb] at hp; exact run_more hp
  | cons b s =>
    rw [hb] at hp
    dsimp only at hp
    rw [item]
    by_cases hplus : b = plus
    · rw [if_pos hplus] at hp ⊢
      exact .of_again hp rfl (readSimple_run (p := { p with buf := s, state := .readingSimpleString }) rfl)
    rw [if_neg hplus] at hp ⊢
    by_cases hminus : b = minus
    · subst hminus
      rw [if_neg (by decide), if_neg (by decide), if_pos rfl] at hp
      rw [if_pos rfl]
      exact .of_again hp rfl (readSimple_run (p := { p with buf := s, state := .readingSimpleError }) rfl)
    rw [if_neg hminus]
    by_cases hcolon : b = colon
    · subst hcolon
      rw [if_neg (by decide), if_neg (by decide), if_neg (by decide), if_pos rfl] at hp
      rw [if_pos rfl]
      exact .of_again hp rfl (readInteger_run (p := { p with buf := s, state := .readingInteger }) rfl)
    rw [if_neg hcolon]
    by_cases hdollar : b = dollar
    · rw [if_pos hdollar] at hp ⊢
      exact .of_again hp rfl
        (readBulkLength_run (p := { p with buf := s, state := .readingBulkLength }) rfl)
    rw [if_neg hdollar] at hp ⊢
    by_cases hstar : b = star
    · rw [if_pos hstar] at hp ⊢
      exact .of_again hp rfl
        (readArrayLength_run (p := { p with buf := s, state := .readingArrayLength }) rfl)
    rw [if_neg hstar, if_neg hminus, if_neg hcolon] at hp
    rw [if_neg hstar]
    have hi : (inline p.buf).RunWith alloc { p with state := .readingInline } := readInline_run rfl
    rw [hb] at hi
    exact .of_again hp rfl hi

end Items

/-- The machine whose allocations succeed exactly. -/
abbrev M := machine .exact

/-! ## Frames -/

/-- The run an answer stands for, when the frame is handed to the levels `stack`. -/
def Answer.Run (p : Parser) (stack : List Level) : Answer Frame → Prop
  | .parsed f rest => Runs M p (accept f ⟨.start, rest, stack⟩).2 (accept f ⟨.start, rest, stack⟩).1
  | .more => ∃ q, Ends M p [] none q
  | .error e => ∃ q, Ends M p [] (some (.parse e)) q

theorem Answer.Run.of_runs {p q : Parser} {stack : List Level} {x : Answer Frame}
    (hr : Runs M p [] q) (h : x.Run q stack) : x.Run p stack := by
  cases x with
  | parsed f rest => exact hr.trans h
  | more => exact h.imp fun _ he => .of_runs hr he
  | error e => exact h.imp fun _ he => .of_runs hr he

/-- The last element of a level closes it: the array goes on to the level below. -/
theorem accept_last {L : Level} {f : Frame} {rest : Bytes} {stack : List Level}
    (h : L.capacity = L.frames.length + 1) :
    accept f ⟨.start, rest, L :: stack⟩ =
      accept (.array (some (L.frames ++ [f]))) ⟨.start, rest, stack⟩ := by
  have hfull : (L.push f).isFull = true := by
    simp [Level.isFull, Level.push, h]
  have hfr : (L.push f).frames = L.frames ++ [f] := rfl
  cases stack with
  | nil => simp [accept, closeLoop, hfull, hfr]
  | cons m stack => simp [accept, closeLoop, hfull, hfr]

/-- Any other element stays in the level. -/
theorem accept_inner {L : Level} {f : Frame} {rest : Bytes} {stack : List Level}
    (h : L.frames.length + 1 < L.capacity) :
    accept f ⟨.start, rest, L :: stack⟩ = (⟨.start, rest, L.push f :: stack⟩, []) := by
  have hfull : (L.push f).isFull = false := by
    have hlt : L.frames.length < L.capacity := by omega
    simp only [Level.isFull, Level.push, if_pos hlt, List.length_append, List.length_singleton,
      beq_eq_false_iff_ne]
    omega
  cases stack with
  | nil => simp [accept, closeLoop, hfull]
  | cons m stack => simp [accept, closeLoop, hfull]

theorem push_room {L : Level} {f : Frame} {k : Nat} (h : L.capacity = L.frames.length + (k + 1)) :
    (L.push f).capacity = (L.push f).frames.length + k := by
  have hlt : L.frames.length < L.capacity := by omega
  simp only [Level.push, if_pos hlt, List.length_append, List.length_singleton]
  omega

/-- The descent on frames, and on the elements an open level still needs, is a
run of the machine. -/
theorem descent_run :
    (∀ s stack, (frame s).answer.Run ⟨.start, s, stack⟩ stack) ∧
    ∀ n s, 0 < n → ∀ (L : Level) stack, L.capacity = L.frames.length + n →
      ((frames n s).answer.map fun fs => Frame.array (some (L.frames ++ fs))).Run
        ⟨.start, s, L :: stack⟩ stack := by
  refine descent_induction ?_ (fun s h => absurd h (Nat.lt_irrefl 0)) ?_
  · intro s ihFrame ihFrames stack
    have hi : (item s).RunWith .exact ⟨.start, s, stack⟩ := item_runWith rfl
    rw [frame_item]
    cases hit : item s with
    | leaf f rest => rw [hit] at hi; exact hi
    | more => rw [hit] at hi; exact hi
    | error e => rw [hit] at hi; exact hi
    | blank rest =>
      rw [hit] at hi
      exact .of_runs hi (ihFrame rest hit stack)
    | opened n rest =>
      rw [hit] at hi
      exact .of_runs (hi.1 ⟨n, [], Nat.zero_le n⟩ rfl)
        (ihFrames n rest hit (item_opened_pos hit) ⟨n, [], Nat.zero_le _⟩ stack (by simp))
  · intro k s ihFrame ihFrames _ L stack hroom
    have hf := ihFrame (L :: stack)
    rw [frames_succ]
    cases ha : (frame s).answer with
    | more => rw [ha] at hf; exact hf
    | error e => rw [ha] at hf; exact hf
    | parsed f rest =>
      rw [ha] at hf
      dsimp only [Answer.bind]
      cases k with
      | zero =>
        rw [Answer.Run, accept_last hroom] at hf
        rw [frames_zero]
        exact hf
      | succ k =>
        rw [Answer.Run, accept_inner (by omega)] at hf
        have hrest := ihFrames f rest ha (Nat.succ_pos k) (L.push f) stack (push_room hroom)
        have he : ((frames (k + 1) rest).answer.map (f :: ·)).map
              (fun fs => Frame.array (some (L.frames ++ fs))) =
            (frames (k + 1) rest).answer.map
              (fun fs => Frame.array (some ((L.push f).frames ++ fs))) := by
          cases (frames (k + 1) rest).answer <;> simp [Answer.map, Level.push]
        rw [he]
        exact .of_runs hf hrest

theorem frame_run (s : Bytes) (stack : List Level) :
    (frame s).answer.Run ⟨.start, s, stack⟩ stack :=
  descent_run.1 s stack

theorem stream_run (s : Bytes) :
    ∃ q, Ends M ⟨.start, s, []⟩ (stream s).1 ((stream s).2.map .parse) q := by
  induction hn : s.length using Nat.strongRecOn generalizing s with
  | ind n ih =>
    have hf := frame_run s []
    rw [stream_answer]
    cases ha : (frame s).answer with
    | more => rw [ha] at hf; exact hf
    | error e => rw [ha] at hf; exact hf
    | parsed f rest =>
      rw [ha] at hf
      obtain ⟨q, hq⟩ := ih rest.length (by rw [← hn]; exact answer_shorter ha) rest rfl
      exact ⟨q, .of_runs (show Runs M _ [f] _ from hf) hq⟩

/-- On every byte string a fresh parser answers what the grammar says: the same
frames, and then the same wait for more input or the same error. -/
theorem parse_agrees_with_grammar (s : Bytes) :
    ∃ p, new.parse .exact s = some (result s, p) := by
  obtain ⟨q, hq⟩ := stream_run s
  refine ⟨q, parse_iff_ends.mpr ?_⟩
  have hfeed : new.feed s = ⟨.start, s, []⟩ := rfl
  rw [hfeed]
  unfold result
  cases he : (stream s).2 with
  | none => rw [he] at hq; exact hq
  | some e => rw [he] at hq; exact hq

end Redlike.Resp.Grammar
