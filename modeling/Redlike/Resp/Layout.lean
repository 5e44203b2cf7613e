import Redlike.Resp.Inline

/-!
# How a request lies in its bytes

The documented layout of a request is the head of an array and then its bulk strings,
one behind the other. The parser takes one thing more: where an element may begin, also
inside an array, it passes over blank lines. Here the bytes of an array of bulk strings are
taken apart in that way, which is possible in one way only, and put together again.
-/
namespace Redlike.Resp.Grammar

open Lib

/-- `$<len>\r\n<payload>\r\n`, the length with an optional sign and leading zeros. -/
structure BulkItem where
  len : Bytes
  payload : Bytes
  announces : signed len = some (payload.length : Int)

def BulkItem.bytes (i : BulkItem) : Bytes := dollar :: (i.len ++ crlf ++ (i.payload ++ crlf))

/-- A bulk string with the blank lines in front of it, each by its white space. -/
structure Entry where
  blanks : List String
  item : BulkItem
  spaces : ∀ ws ∈ blanks, IsSpace ws

namespace Entry

def blankBytes (e : Entry) : Bytes := e.blanks.flatMap fun ws => asBytes ws ++ [lf]

def bytes (e : Entry) : Bytes := e.blankBytes ++ e.item.bytes

end Entry

/-! ## Lines -/

theorem split_untilCrlf {s line rest : Bytes} (h : untilCrlf s = some (line, rest)) :
    s = line ++ crlf ++ rest := by
  rw [untilCrlf_eq, Option.map_eq_some_iff] at h
  obtain ⟨pos, hp, he⟩ := h
  cases he
  exact (crlfPosition_spec hp).1

theorem split_untilLf {s line rest : Bytes} (h : untilLf s = some (line, rest)) :
    s = line ++ lf :: rest ∧ lf ∉ line := by
  induction s generalizing line with
  | nil => cases h
  | cons b s ih =>
    rw [untilLf] at h
    split at h
    · rename_i hb
      cases h
      exact ⟨by rw [hb, List.nil_append], by simp⟩
    · rename_i hb
      rw [Option.map_eq_some_iff] at h
      obtain ⟨⟨l, r⟩, hl, he⟩ := h
      cases he
      obtain ⟨hs, hlf⟩ := ih hl
      refine ⟨by rw [hs, List.cons_append], ?_⟩
      intro hm
      rcases List.mem_cons.mp hm with hm | hm
      · exact hb hm.symm
      · exact hlf hm

theorem cr_not_mem_signed {line : Bytes} {v : Int} (h : signed line = some v) : cr ∉ line := by
  obtain ⟨ds, -, hd, ⟨rfl, -⟩ | ⟨rfl, -⟩ | ⟨rfl, -⟩⟩ := signed_eq_some.mp h
  · exact cr_not_mem_digits hd
  · exact List.not_mem_cons_of_ne_of_not_mem (by decide) (cr_not_mem_digits hd)
  · exact List.not_mem_cons_of_ne_of_not_mem (by decide) (cr_not_mem_digits hd)

theorem untilCrlf_signed {line : Bytes} {v : Int} (h : signed line = some v) (rest : Bytes) :
    untilCrlf (line ++ crlf ++ rest) = some (line, rest) :=
  untilCrlf_payload rest (crlfPosition_none_of_not_mem (cr_not_mem_signed h))

/-- A number that was read is the number that is written, and in range. -/
theorem signed_of_number {line : Bytes} {v : Int64} (h : number line = some v) :
    signed line = some v.toInt := by
  rw [number, Option.bind_eq_some_iff] at h
  obtain ⟨w, hw, hv⟩ := h
  split at hv
  · rename_i hr
    cases hv
    unfold i64Min i64Max at hr
    rw [Int64.toInt_ofInt_of_le (by omega) (by omega), hw]
  · cases hv

theorem number_of_signed {line : Bytes} {n : Nat} (h : signed line = some (n : Int)) (hn : n < 2^63) :
    number line = some (Int64.ofInt n) := by
  rw [number, h, Option.bind_some, if_pos]
  unfold i64Min i64Max
  omega

/-! ## Items, taken apart -/

theorem item_leaf_bulk {s rest payload : Bytes} (h : item s = .leaf (.bulk (some payload)) rest) :
    payload.length < 2^63 ∧ ∃ i : BulkItem, i.payload = payload ∧ s = i.bytes ++ rest := by
  cases leaf_reads h with
  | @bulk _ len _ _ v hline hv hlen =>
    have hlt := v.toInt_lt
    have hsigned : signed len = some (payload.length : Int) := hlen ▸ signed_of_number hv
    refine ⟨by omega, ⟨len, payload, hsigned⟩, rfl, ?_⟩
    rw [split_untilCrlf hline]
    simp [BulkItem.bytes]

theorem isBlank_of_splitWhitespace {s : String} (h : splitWhitespace s = []) :
    Words.IsBlank isWhitespace s.toList := by
  have hwords : Words.words isWhitespace s.toList = [] := List.map_eq_nil_iff.mp h
  have hfilter := Words.flatten_words (p := isWhitespace) s.toList
  rw [hwords, List.flatten_nil] at hfilter
  intro c hc
  by_contra hnot
  have hm : c ∈ s.toList.filter fun a => !isWhitespace a := List.mem_filter.mpr ⟨hc, by simpa using hnot⟩
  rw [← hfilter] at hm
  cases hm

/-- What is skipped is a line of white space. -/
theorem item_eq_blank {s rest : Bytes} (h : item s = .blank rest) :
    ∃ ws, IsSpace ws ∧ s = asBytes ws ++ lf :: rest := by
  cases blank_reads h with
  | @blank _ _ _ _ text _ hline htext hwords =>
    obtain ⟨hs, hlf⟩ := split_untilLf hline
    rw [← asBytes_of_fromUtf8 htext] at hs hlf
    refine ⟨text, ⟨isBlank_of_splitWhitespace hwords, ?_⟩, hs⟩
    intro hm
    refine hlf ?_
    rw [asBytes_eq]
    exact List.mem_flatMap.mpr ⟨'\n', hm, by decide⟩

/-- Behind the head of an array nothing is read whole but the arrays without elements. -/
theorem item_star_leaf {s rest : Bytes} {f : Frame} (h : item (star :: s) = .leaf f rest) :
    f = .array none ∨ f = .array (some []) := by
  cases leaf_reads h with
  | nilArray => exact .inl rfl
  | emptyArray => exact .inr rfl
  | inline hb => exact absurd (by decide) hb

/-- An array head that opens a level announces in its line how many elements follow. -/
theorem item_star_opened {s rest : Bytes} {n : Nat} (h : item (star :: s) = .opened n rest) :
    n < 2^63 ∧ ∃ line, signed line = some (n : Int) ∧ s = line ++ crlf ++ rest := by
  cases opened_reads h with
  | @opened _ line _ v _ hline hv hlen _ =>
    have hlt := v.toInt_lt
    exact ⟨by omega, line, hlen ▸ signed_of_number hv, split_untilCrlf hline⟩

/-! ## Arrays of bulk strings, taken apart -/

theorem frame_entry {s rest payload : Bytes}
    (h : (frame s).answer = .parsed (.bulk (some payload)) rest) :
    payload.length < 2^63 ∧ ∃ e : Entry, e.item.payload = payload ∧ s = e.bytes ++ rest := by
  induction hn : s.length using Nat.strongRecOn generalizing s with
  | ind n ih =>
    rcases frame_parsed h with hit | ⟨r, hit, hr⟩ | ⟨_, _, _, _, _, hf⟩
    · obtain ⟨hlt, i, hi, hs⟩ := item_leaf_bulk hit
      exact ⟨hlt, ⟨[], i, by simp⟩, hi, hs⟩
    · obtain ⟨ws, hws, rfl⟩ := item_eq_blank hit
      obtain ⟨hlt, e, he, rfl⟩ := ih r.length (hn ▸ blank_shorter hit) hr rfl
      refine ⟨hlt, ⟨ws :: e.blanks, e.item, List.forall_mem_cons.mpr ⟨hws, e.spaces⟩⟩, he, ?_⟩
      simp [Entry.bytes, Entry.blankBytes]
    · cases hf

/-- The bytes of elements that are bulk strings: an entry for each. -/
theorem frames_entries {n : Nat} {s rest : Bytes} {payloads : List Bytes}
    (h : (frames n s).answer = .parsed (payloads.map fun b => .bulk (some b)) rest) :
    ∃ entries : List Entry, entries.length = n ∧ entries.map (·.item.payload) = payloads ∧
      (∀ e ∈ entries, e.item.payload.length < 2^63) ∧ s = entries.flatMap Entry.bytes ++ rest := by
  induction n generalizing s payloads with
  | zero =>
    rw [frames_zero] at h
    injection h with hp hs
    rw [List.map_eq_nil_iff.mp hp.symm]
    exact ⟨[], rfl, rfl, by simp, hs⟩
  | succ n ih =>
    obtain ⟨f, r, gs, hf, hgs, hp⟩ := frames_parsed h
    cases payloads with
    | nil => cases hp
    | cons payload payloads =>
      rw [List.map_cons, List.cons.injEq] at hp
      obtain ⟨rfl, rfl⟩ := hp
      obtain ⟨hlt, e, he, rfl⟩ := frame_entry hf
      obtain ⟨entries, hlen, hpay, hall, rfl⟩ := ih hgs
      refine ⟨e :: entries, ?_, ?_, List.forall_mem_cons.mpr ⟨he ▸ hlt, hall⟩, ?_⟩
      · rw [List.length_cons, hlen]
      · rw [List.map_cons, he, hpay]
      · rw [List.flatMap_cons, List.append_assoc]

/-! ## And put together -/

theorem item_bulkItem {i : BulkItem} (h : i.payload.length < 2^63) (rest : Bytes) :
    item (i.bytes ++ rest) = .leaf (.bulk (some i.payload)) rest := by
  have hb : i.bytes ++ rest = dollar :: (i.len ++ crlf ++ (i.payload ++ crlf ++ rest)) := by
    simp [BulkItem.bytes]
  rw [hb, item_dollar, counted, untilCrlf_signed i.announces]
  dsimp only
  rw [number_of_signed i.announces h]
  dsimp only
  rw [bulk, toInt_ofInt_nat h, if_neg (by omega), if_neg (by omega), Int.toNat_natCast, payload,
    if_neg (by simp [crlf]), List.append_assoc, List.drop_left, List.take_left,
    if_pos (by simp [crlf]), ← List.append_assoc,
    show i.payload.length + 2 = (i.payload ++ crlf).length by simp [crlf], List.drop_left]

theorem frame_of_entry {e : Entry} (h : e.item.payload.length < 2^63) (rest : Bytes) :
    (frame (e.bytes ++ rest)).answer = .parsed (.bulk (some e.item.payload)) rest := by
  obtain ⟨blanks, i, spaces⟩ := e
  induction blanks with
  | nil =>
    rw [frame_item, show (⟨[], i, spaces⟩ : Entry).bytes = i.bytes from rfl, item_bulkItem h]
  | cons ws blanks ih =>
    obtain ⟨hws, hspaces⟩ := List.forall_mem_cons.mp spaces
    have hb : (⟨ws :: blanks, i, spaces⟩ : Entry).bytes ++ rest =
        asBytes ws ++ lf :: ((⟨blanks, i, hspaces⟩ : Entry).bytes ++ rest) := by
      simp [Entry.bytes, Entry.blankBytes]
    rw [hb, frame_item, item_blank hws]
    exact ih hspaces h

theorem frames_of_entries {entries : List Entry}
    (h : ∀ e ∈ entries, e.item.payload.length < 2^63) (rest : Bytes) :
    (frames entries.length (entries.flatMap Entry.bytes ++ rest)).answer =
      .parsed (entries.map fun e => .bulk (some e.item.payload)) rest := by
  induction entries with
  | nil => exact frames_zero rest
  | cons e entries ih =>
    obtain ⟨he, hall⟩ := List.forall_mem_cons.mp h
    rw [List.length_cons, frames_succ, List.flatMap_cons, List.append_assoc, frame_of_entry he]
    dsimp only [Answer.bind]
    rw [ih hall]
    rfl

/-! ## There is one way to take the bytes apart -/

theorem BulkItem.append_inj {i j : BulkItem} {x y : Bytes} (h : i.bytes ++ x = j.bytes ++ y) :
    x = y := by
  simp only [BulkItem.bytes, List.cons_append, List.append_assoc, List.cons.injEq, true_and] at h
  have hi := untilCrlf_signed i.announces (i.payload ++ (crlf ++ x))
  have hj := untilCrlf_signed j.announces (j.payload ++ (crlf ++ y))
  rw [List.append_assoc] at hi hj
  rw [h, hj] at hi
  injection hi with hi
  obtain ⟨hlen, hrest⟩ := Prod.mk.inj hi
  have hsame : (j.payload.length : Int) = i.payload.length := by
    have := j.announces
    rw [hlen, i.announces] at this
    exact (Option.some.inj this).symm
  have htail := (List.append_inj hrest (by omega)).2
  exact (List.append_cancel_left htail).symm

/-- A blank line does not begin like a frame of the protocol. -/
theorem blank_ne_marked {ws : String} (h : IsSpace ws) {b : UInt8} (hb : b ∈ markerBytes)
    (x y : Bytes) : asBytes ws ++ lf :: x ≠ b :: y := by
  intro he
  have hhead : (asBytes ws ++ [lf]).head? = some b := by
    have hx : asBytes ws ++ [lf] ++ x = b :: y := by
      rw [← he, List.append_assoc]
      rfl
    have happ : (asBytes ws ++ [lf] ++ x).head? = (asBytes ws ++ [lf]).head? :=
      List.head?_append_of_ne_nil _ (by simp)
    rw [← happ, hx]
    rfl
  exact space_unmarked h b hhead hb

/-- Bytes that are bulk strings one behind the other have no blank line in front of any. -/
theorem blanks_eq_nil {entries : List Entry} {items : List BulkItem}
    (hlen : entries.length = items.length)
    (h : entries.flatMap Entry.bytes = items.flatMap BulkItem.bytes) :
    ∀ e ∈ entries, e.blanks = [] := by
  induction entries generalizing items with
  | nil => simp
  | cons e entries ih =>
    cases items with
    | nil => cases hlen
    | cons i items =>
      rw [List.flatMap_cons, List.flatMap_cons] at h
      cases hb : e.blanks with
      | nil =>
        have he : e.bytes = e.item.bytes := by simp [Entry.bytes, Entry.blankBytes, hb]
        rw [he] at h
        exact List.forall_mem_cons.mpr ⟨hb, ih (Nat.succ.inj hlen) (BulkItem.append_inj h)⟩
      | cons ws blanks =>
        have hws : IsSpace ws := e.spaces ws (by rw [hb]; simp)
        refine absurd ?_ (blank_ne_marked hws (b := dollar) (by decide)
          ((blanks.flatMap fun ws => asBytes ws ++ [lf]) ++ e.item.bytes ++ entries.flatMap Entry.bytes)
          (i.len ++ crlf ++ (i.payload ++ crlf) ++ items.flatMap BulkItem.bytes))
        rw [← List.cons_append]
        refine Eq.trans ?_ h
        simp [Entry.bytes, Entry.blankBytes, hb]

end Redlike.Resp.Grammar
