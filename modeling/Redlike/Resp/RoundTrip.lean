import Redlike.Resp.Agreement

/-!
# Encoding and parsing are inverse, byte for byte

A frame without a line end in its simple payloads is read back from its
encoding, whatever follows; no proper part of the encoding is enough, so a frame
is emitted by the very call that delivers its last byte. The restriction on
simple payloads is necessary: no frame the grammar yields violates it.
-/
namespace Redlike.Resp.Grammar

open Lib.Incremental
open Redlike.Resp.Parser

/-! ## More input changes no answer but `more` -/

theorem untilCrlf_append {s line rest : Bytes} (t : Bytes) (h : untilCrlf s = some (line, rest)) :
    untilCrlf (s ++ t) = some (line, rest ++ t) := by
  rw [untilCrlf_eq, Option.map_eq_some_iff] at h
  obtain ⟨pos, hp, he⟩ := h
  cases he
  have hl := (crlfPosition_spec hp).2.1
  rw [untilCrlf_eq, crlfPosition_append t hp, Option.map_some,
    List.take_append_of_le_length (by omega), List.drop_append_of_le_length (by omega)]

theorem untilLf_append {s line rest : Bytes} (t : Bytes) (h : untilLf s = some (line, rest)) :
    untilLf (s ++ t) = some (line, rest ++ t) := by
  rw [untilLf_eq, Option.map_eq_some_iff] at h
  obtain ⟨pos, hp, he⟩ := h
  cases he
  have hl := memchr_lt hp
  rw [untilLf_eq, memchr_append t hp, Option.map_some,
    List.take_append_of_le_length (by omega), List.drop_append_of_le_length (by omega)]

def Item.append (t : Bytes) : Item → Item
  | .leaf f rest => .leaf f (rest ++ t)
  | .opened n rest => .opened n (rest ++ t)
  | .blank rest => .blank (rest ++ t)
  | .more => .more
  | .error e => .error e

private theorem simple_append {make : String → Frame} {s : Bytes} (t : Bytes)
    (h : simple make s ≠ .more) : simple make (s ++ t) = (simple make s).append t := by
  unfold simple at h ⊢
  cases hu : untilCrlf s with
  | none => rw [hu] at h; exact absurd rfl h
  | some pair =>
    obtain ⟨line, rest⟩ := pair
    rw [untilCrlf_append t hu]
    dsimp only
    cases fromUtf8 line <;> rfl

private theorem counted_append {use : Int64 → Bytes → Item} {s : Bytes} (t : Bytes)
    (huse : ∀ n a, use n a ≠ .more → use n (a ++ t) = (use n a).append t)
    (h : counted s use ≠ .more) : counted (s ++ t) use = (counted s use).append t := by
  unfold counted at h ⊢
  cases hu : untilCrlf s with
  | none => rw [hu] at h; exact absurd rfl h
  | some pair =>
    obtain ⟨line, rest⟩ := pair
    rw [hu] at h
    rw [untilCrlf_append t hu]
    dsimp only at h ⊢
    cases hn : number line with
    | none => rfl
    | some v => rw [hn] at h; exact huse v rest h

private theorem bulk_append {n : Int64} {s : Bytes} (t : Bytes) (h : bulk n s ≠ .more) :
    bulk n (s ++ t) = (bulk n s).append t := by
  unfold bulk at h ⊢
  split
  · rfl
  split
  · rfl
  · rename_i h1 h2
    rw [if_neg h1, if_neg h2] at h
    unfold payload at h ⊢
    split at h
    · exact absurd rfl h
    · rename_i hl
      have hlt : ¬ (s ++ t).length < n.toInt.toNat + 2 := by rw [List.length_append]; omega
      rw [if_neg hl, if_neg hlt, List.drop_append_of_le_length (by omega),
        List.take_append_of_le_length (by rw [List.length_drop]; omega),
        List.take_append_of_le_length (by omega), List.drop_append_of_le_length (by omega)]
      split <;> rfl

private theorem inline_append {s : Bytes} (t : Bytes) (h : inline s ≠ .more) :
    inline (s ++ t) = (inline s).append t := by
  unfold inline at h ⊢
  cases hu : untilLf s with
  | none => rw [hu] at h; exact absurd rfl h
  | some pair =>
    obtain ⟨line, rest⟩ := pair
    rw [untilLf_append t hu]
    dsimp only
    cases fromUtf8 line with
    | none => rfl
    | some text =>
      dsimp only
      cases splitWhitespace text <;> rfl

theorem item_append {s : Bytes} (t : Bytes) (h : item s ≠ .more) :
    item (s ++ t) = (item s).append t := by
  cases s with
  | nil => exact absurd rfl h
  | cons b s =>
    rw [List.cons_append]
    rw [item] at h ⊢
    rw [item]
    split
    · rw [if_pos ‹_›] at h; exact simple_append t h
    rw [if_neg ‹_›] at h
    split
    · rw [if_pos ‹_›] at h; exact simple_append t h
    rw [if_neg ‹_›] at h
    split
    · rw [if_pos ‹_›] at h
      exact counted_append t (fun _ _ _ => rfl) h
    rw [if_neg ‹_›] at h
    split
    · rw [if_pos ‹_›] at h
      exact counted_append t (fun _ _ hb => bulk_append t hb) h
    rw [if_neg ‹_›] at h
    split
    · rw [if_pos ‹_›] at h
      refine counted_append t (fun n a _ => ?_) h
      unfold array
      repeat' split
      all_goals rfl
    rw [if_neg ‹_›] at h
    exact inline_append t h

def Answer.append {α : Type} (t : Bytes) : Answer α → Answer α
  | .parsed a rest => .parsed a (rest ++ t)
  | .more => .more
  | .error e => .error e

theorem Answer.append_map {α β : Type} (g : α → β) (t : Bytes) (x : Answer α) :
    (x.map g).append t = (x.append t).map g := by
  cases x <;> rfl

theorem descent_append (t : Bytes) :
    (∀ s, (frame s).answer ≠ .more → (frame (s ++ t)).answer = (frame s).answer.append t) ∧
    ∀ n s, (frames n s).answer ≠ .more →
      (frames n (s ++ t)).answer = (frames n s).answer.append t := by
  refine descent_induction ?_ ?_ ?_
  · intro s ihFrame ihFrames hne
    have happ : item s ≠ .more → item (s ++ t) = (item s).append t := item_append t
    rw [frame_item] at hne
    rw [frame_item, frame_item s]
    cases hit : item s with
    | leaf f rest => rw [happ (by rw [hit]; simp), hit]; rfl
    | more => rw [hit] at hne; exact absurd rfl hne
    | error e => rw [happ (by rw [hit]; simp), hit]; rfl
    | blank rest =>
      rw [hit] at hne
      rw [happ (by rw [hit]; simp), hit]
      exact ihFrame rest hit hne
    | opened n rest =>
      rw [hit] at hne
      rw [happ (by rw [hit]; simp), hit]
      dsimp only [Item.append]
      rw [Answer.append_map, ihFrames n rest hit]
      intro hmore
      dsimp only at hne
      rw [hmore] at hne
      exact hne rfl
  · intro s _
    rw [frames_zero, frames_zero]
    rfl
  · intro n s ihFrame ihFrames hne
    rw [frames_succ] at hne
    rw [frames_succ, frames_succ]
    cases hf : (frame s).answer with
    | more => rw [hf] at hne; exact absurd rfl hne
    | error e =>
      rw [ihFrame (by rw [hf]; simp), hf]
      rfl
    | parsed f rest =>
      rw [hf] at hne
      rw [ihFrame (by rw [hf]; simp), hf]
      dsimp only [Answer.bind, Answer.append] at hne ⊢
      rw [ihFrames f rest hf, ← Answer.append_map]
      · cases (frames n rest).answer <;> rfl
      · intro hmore
        rw [hmore] at hne
        exact hne rfl

theorem frame_append {s : Bytes} (t : Bytes) (h : (frame s).answer ≠ .more) :
    (frame (s ++ t)).answer = (frame s).answer.append t :=
  (descent_append t).1 s h

/-! ## Encodings are read back -/

theorem untilCrlf_payload {a : Bytes} (rest : Bytes) (h : crlfPosition a = none) :
    untilCrlf (a ++ crlf ++ rest) = some (a, rest) := by
  have hlen : (a ++ crlf).length = a.length + 2 := by simp [crlf]
  rw [untilCrlf_eq, crlfPosition_payload a rest h, Option.map_some, ← hlen, List.drop_left,
    List.append_assoc, List.take_left]

theorem number_toString (i : Int64) : number (asBytes (toString i)) = some i := by
  rw [number_eq, fromUtf8_asBytes, Option.bind_some, parseI64_toString]

theorem number_toString_nat {n : Nat} (h : n < 2^63) :
    number (asBytes (toString n)) = some (Int64.ofInt n) := by
  rw [number_eq, fromUtf8_asBytes, Option.bind_some, parseI64_toString_nat h]

theorem counted_toString {n : Nat} (h : n < 2^63) (rest : Bytes) (use : Int64 → Bytes → Item) :
    counted (asBytes (toString n) ++ crlf ++ rest) use = use (Int64.ofInt n) rest := by
  have hline := untilCrlf_payload rest (crlfPosition_none_of_not_mem (cr_not_mem_toString n))
  rw [counted, show toString n = toString (n : Int) from rfl, hline]
  dsimp only
  rw [show toString (n : Int) = toString n from rfl, number_toString_nat h]

theorem counted_nil (use : Int64 → Bytes → Item) (rest : Bytes) :
    counted ([minus, 49] ++ crlf ++ rest) use = use (-1) rest := by
  have hn : number [minus, 49] = some (-1) := by decide +kernel
  rw [counted, untilCrlf_payload rest (by decide)]
  dsimp only
  rw [hn]

theorem item_simpleString {inner : String} (rest : Bytes) (h : ¬ crlf <:+: asBytes inner) :
    item (Frame.toBytes (.simpleString inner) ++ rest) = .leaf (.simpleString inner) rest := by
  have hb : Frame.toBytes (.simpleString inner) ++ rest = plus :: (asBytes inner ++ crlf ++ rest) := by
    simp [Frame.toBytes, Frame.writeTo]
  rw [hb, item_plus, simple, untilCrlf_payload rest ((crlfPosition_eq_none _).mpr h)]
  dsimp only
  rw [fromUtf8_asBytes]

theorem item_simpleError {inner : String} (rest : Bytes) (h : ¬ crlf <:+: asBytes inner) :
    item (Frame.toBytes (.simpleError inner) ++ rest) = .leaf (.simpleError inner) rest := by
  have hb : Frame.toBytes (.simpleError inner) ++ rest = minus :: (asBytes inner ++ crlf ++ rest) := by
    simp [Frame.toBytes, Frame.writeTo]
  rw [hb, item_minus, simple, untilCrlf_payload rest ((crlfPosition_eq_none _).mpr h)]
  dsimp only
  rw [fromUtf8_asBytes]

theorem item_integer (inner : Int64) (rest : Bytes) :
    item (Frame.toBytes (.integer inner) ++ rest) = .leaf (.integer inner) rest := by
  have hb : Frame.toBytes (.integer inner) ++ rest =
      colon :: (asBytes (toString inner) ++ crlf ++ rest) := by
    simp [Frame.toBytes, Frame.writeTo]
  have hline := untilCrlf_payload rest
    (crlfPosition_none_of_not_mem (cr_not_mem_toString inner.toInt))
  rw [hb, item_colon, counted, show toString inner = toString inner.toInt from rfl, hline]
  dsimp only
  rw [show toString inner.toInt = toString inner from rfl, number_toString]

theorem item_bulk {inner : Option Bytes} (rest : Bytes) (h : (Frame.bulk inner).Fits) :
    item (Frame.toBytes (.bulk inner) ++ rest) = .leaf (.bulk inner) rest := by
  cases inner with
  | none =>
    have hb : Frame.toBytes (.bulk none) ++ rest = dollar :: ([minus, 49] ++ crlf ++ rest) := by
      simp [Frame.toBytes, Frame.writeTo]
    rw [hb, item_dollar, counted_nil, bulk, if_pos (by decide)]
  | some inner =>
    have hlen : inner.length < 2^63 := h
    have hv := toInt_ofInt_nat hlen
    have hb : Frame.toBytes (.bulk (some inner)) ++ rest =
        dollar :: (asBytes (toString inner.length) ++ crlf ++ (inner ++ crlf ++ rest)) := by
      simp [Frame.toBytes, Frame.writeTo]
    rw [hb, item_dollar, counted_toString hlen, bulk, hv, if_neg (by omega), if_neg (by omega), Int.toNat_natCast,
      payload, if_neg (by simp [crlf]), List.append_assoc, List.drop_left, List.take_left,
      if_pos (by simp [crlf]), ← List.append_assoc,
      show inner.length + 2 = (inner ++ crlf).length by simp [crlf], List.drop_left]

theorem item_nilArray (rest : Bytes) :
    item (Frame.toBytes (.array none) ++ rest) = .leaf (.array none) rest := by
  have hb : Frame.toBytes (.array none) ++ rest = star :: ([minus, 49] ++ crlf ++ rest) := by
    simp [Frame.toBytes, Frame.writeTo]
  rw [hb, item_star, counted_nil, array, if_pos (by decide)]

theorem item_array {inner : List Frame} (rest : Bytes) (h : inner.length < 2^63) :
    item (Frame.toBytes (.array (some inner)) ++ rest) =
      if inner.length = 0 then .leaf (.array (some [])) (inner.flatMap Frame.toBytes ++ rest)
      else .opened inner.length (inner.flatMap Frame.toBytes ++ rest) := by
  have hb : Frame.toBytes (.array (some inner)) ++ rest =
      star :: (asBytes (toString inner.length) ++ crlf ++ (inner.flatMap Frame.toBytes ++ rest)) := by
    simp [Frame.toBytes_array]
  rw [hb, item_star, counted_toString h, array, toInt_ofInt_nat h, if_neg (by omega)]
  by_cases h0 : inner.length = 0
  · rw [if_pos h0, if_pos (by omega)]
  · rw [if_neg h0, if_neg (by omega), if_neg (by omega), Int.toNat_natCast]

/-- The grammar reads a frame back from its encoding and leaves what follows. -/
theorem frame_toBytes (f : Frame) (hn : f.NoCrlf) (hf : f.Fits) (rest : Bytes) :
    (frame (f.toBytes ++ rest)).answer = .parsed f rest := by
  induction f using Frame.induction generalizing rest with
  | simpleString inner => rw [frame_item, item_simpleString rest hn]
  | simpleError inner => rw [frame_item, item_simpleError rest hn]
  | bulk inner => rw [frame_item, item_bulk rest hf]
  | integer inner => rw [frame_item, item_integer]
  | nilArray => rw [frame_item, item_nilArray]
  | array inner ih =>
    rw [Frame.NoCrlf, Frame.noCrlfAll_iff] at hn
    rw [Frame.Fits, Frame.fitsAll_iff] at hf
    have hall : ∀ l : List Frame, (∀ f ∈ l, f ∈ inner) → ∀ rest,
        (frames l.length (l.flatMap Frame.toBytes ++ rest)).answer = .parsed l rest := by
      intro l hl
      induction l with
      | nil => intro rest; exact frames_zero rest
      | cons f l ihl =>
        intro rest
        have hm := hl f (by simp)
        rw [List.length_cons, frames_succ, List.flatMap_cons, List.append_assoc,
          ih f hm (hn f hm) (hf.2 f hm)]
        dsimp only [Answer.bind]
        rw [ihl (fun g hg => hl g (by simp [hg]))]
        rfl
    rw [frame_item, item_array rest hf.1]
    by_cases h0 : inner.length = 0
    · rw [List.length_eq_zero_iff.mp h0]
      rfl
    · rw [if_neg h0]
      dsimp only
      rw [hall inner (fun _ h => h) rest]
      rfl

/-- No proper part of an encoding is enough. -/
theorem frame_cut {f : Frame} (hn : f.NoCrlf) (hf : f.Fits) {s t : Bytes}
    (he : s ++ t = f.toBytes) (ht : t ≠ []) : (frame s).answer = .more := by
  have hwhole := frame_toBytes f hn hf []
  rw [List.append_nil, ← he] at hwhole
  by_contra hm
  have happ := frame_append t hm
  rw [hwhole] at happ
  cases hs : (frame s).answer with
  | more => exact hm hs
  | error e => rw [hs] at happ; cases happ
  | parsed g rest =>
    rw [hs] at happ
    injection happ with _ hrest
    exact ht (List.append_eq_nil_iff.mp hrest.symm).2

/-! ## No frame of the grammar has a line end in a simple payload -/

/-- The text of a line that ends at the first CR LF has none. -/
theorem noCrlf_of_untilCrlf {s line rest : Bytes} {text : String}
    (hline : untilCrlf s = some (line, rest)) (htext : fromUtf8 line = some text) :
    ¬ crlf <:+: asBytes text := by
  rw [untilCrlf_eq, Option.map_eq_some_iff] at hline
  obtain ⟨pos, hp, he⟩ := hline
  cases he
  rw [asBytes_of_fromUtf8 htext, ← crlfPosition_eq_none]
  exact (crlfPosition_spec hp).2.2

theorem leaf_noCrlf {s rest : Bytes} {f : Frame} (h : item s = .leaf f rest) : f.NoCrlf := by
  cases leaf_reads h with
  | simpleString hline htext | simpleError hline htext => exact noCrlf_of_untilCrlf hline htext
  | integer | nilBulk | bulk | nilArray | emptyArray => trivial
  | inline =>
    rw [Frame.NoCrlf, Frame.noCrlfAll_iff]
    intro g hg
    obtain ⟨t, _, rfl⟩ := List.mem_map.mp hg
    trivial

theorem descent_noCrlf :
    (∀ s f rest, (frame s).answer = .parsed f rest → f.NoCrlf) ∧
    ∀ n s fs rest, (frames n s).answer = .parsed fs rest → ∀ f ∈ fs, f.NoCrlf := by
  refine descent_induction ?_ ?_ ?_
  · intro s ihFrame ihFrames f rest h
    rcases frame_parsed h with hit | ⟨r, hit, hr⟩ | ⟨n, r, fs, hit, hfs, rfl⟩
    · exact leaf_noCrlf hit
    · exact ihFrame r hit f rest hr
    · rw [Frame.NoCrlf, Frame.noCrlfAll_iff]
      exact ihFrames n r hit fs rest hfs
  · intro s fs rest h
    rw [frames_zero] at h
    cases h
    exact List.forall_mem_nil _
  · intro n s ihFrame ihFrames fs rest h
    obtain ⟨f, r, gs, hf, hgs, rfl⟩ := frames_parsed h
    exact List.forall_mem_cons.mpr ⟨ihFrame f r hf, ihFrames f r hf gs rest hgs⟩

theorem frame_noCrlf {s rest : Bytes} {f : Frame} (h : (frame s).answer = .parsed f rest) :
    f.NoCrlf :=
  descent_noCrlf.1 s f rest h

/-! ## When each frame is emitted -/

/-- Of the frames encoded one after another from offset `pos` on, those whose
last byte lies after offset `lo` and not after `hi`. -/
def deliveredIn (lo hi : Nat) : Nat → List Frame → List Frame
  | _, [] => []
  | pos, f :: fs =>
    (if lo < pos + f.toBytes.length ∧ pos + f.toBytes.length ≤ hi then [f] else []) ++
      deliveredIn lo hi (pos + f.toBytes.length) fs

/-- The results of parsing the chunks, the first of which starts at offset `lo`:
every call emits exactly the frames whose last byte its chunk delivers. -/
def deliveries (fs : List Frame) : Nat → List Bytes → List ParseResult
  | _, [] => []
  | lo, chunk :: chunks =>
    .complete (deliveredIn lo (lo + chunk.length) 0 fs) :: deliveries fs (lo + chunk.length) chunks

theorem deliveredIn_late (lo hi : Nat) (fs : List Frame) {pos : Nat} (h : hi < pos) :
    deliveredIn lo hi pos fs = [] := by
  induction fs generalizing pos with
  | nil => rfl
  | cons f fs ih => rw [deliveredIn, if_neg (by omega), ih (by omega)]; rfl

theorem deliveredIn_split {lo mid hi : Nat} (h1 : lo ≤ mid) (h2 : mid ≤ hi) (pos : Nat)
    (fs : List Frame) :
    deliveredIn lo hi pos fs = deliveredIn lo mid pos fs ++ deliveredIn mid hi pos fs := by
  induction fs generalizing pos with
  | nil => rfl
  | cons f fs ih =>
    rw [deliveredIn, deliveredIn, deliveredIn, ih]
    by_cases hm : pos + f.toBytes.length ≤ mid
    · rw [if_neg (by omega : ¬ (mid < pos + f.toBytes.length ∧ _)), List.nil_append,
        List.append_assoc]
      congr 1
      split <;> split <;> first | rfl | omega
    · -- past the middle nothing is delivered before it, so the left part is empty
      rw [deliveredIn_late lo mid fs (by omega), if_neg (by omega : ¬ (lo < _ ∧ _ ≤ mid)),
        List.nil_append, List.nil_append, List.nil_append]
      congr 1
      split <;> split <;> first | rfl | omega

theorem toBytes_length_pos (f : Frame) : 0 < f.toBytes.length := by
  cases f with
  | simpleString | simpleError | integer => simp [Frame.toBytes, Frame.writeTo]
  | bulk inner => cases inner <;> simp [Frame.toBytes, Frame.writeTo]
  | array inner =>
    cases inner with
    | none => simp [Frame.toBytes, Frame.writeTo]
    | some inner => simp [Frame.toBytes_array]

/-- On the first part of a list of encodings the grammar yields the frames that
are complete in it, and then waits. -/
theorem stream_cut (fs : List Frame) (hn : ∀ f ∈ fs, f.NoCrlf) (hf : ∀ f ∈ fs, f.Fits)
    (pos : Nat) {s t : Bytes} (he : s ++ t = fs.flatMap Frame.toBytes) :
    stream s = (deliveredIn 0 (pos + s.length) pos fs, none) := by
  induction fs generalizing s pos with
  | nil =>
    obtain ⟨rfl, _⟩ := List.append_eq_nil_iff.mp he
    rw [stream_answer, frame_item]
    rfl
  | cons f fs ih =>
    have hpos := toBytes_length_pos f
    rw [List.flatMap_cons] at he
    rw [deliveredIn]
    by_cases hlen : s.length < f.toBytes.length
    · -- the cut falls inside the first frame
      obtain ⟨u, hu, hu'⟩ : ∃ u, f.toBytes = s ++ u ∧ t = u ++ fs.flatMap Frame.toBytes :=
        (List.append_eq_append_iff.mp he).elim (fun ⟨u, h1, h2⟩ => ⟨u, h1, h2⟩)
          (fun ⟨u, h1, _⟩ => by rw [h1, List.length_append] at hlen; omega)
      have hne : u ≠ [] := by
        rintro rfl
        rw [hu, List.append_nil] at hlen
        exact Nat.lt_irrefl _ hlen
      rw [stream_answer, frame_cut (hn f (by simp)) (hf f (by simp)) hu.symm hne,
        if_neg (by omega), deliveredIn_late _ _ _ (by omega)]
      rfl
    · obtain ⟨u, rfl⟩ : ∃ u, s = f.toBytes ++ u :=
        (List.append_eq_append_iff.mp he).elim
          (fun ⟨u, h1, _⟩ => ⟨[], by
            have hz : u = [] := by
              rw [h1, List.length_append] at hlen
              exact List.length_eq_zero_iff.mp (by omega)
            rw [h1, hz, List.append_nil, List.append_nil]⟩)
          (fun ⟨u, h1, _⟩ => ⟨u, h1⟩)
      rw [List.append_assoc] at he
      have hu := List.append_cancel_left he
      have hrest := ih (fun g hg => hn g (by simp [hg])) (fun g hg => hf g (by simp [hg]))
        (pos + f.toBytes.length) hu
      rw [stream_answer, frame_toBytes f (hn f (by simp)) (hf f (by simp)),
        if_pos (by rw [List.length_append]; omega)]
      dsimp only
      rw [hrest, List.length_append, ← Nat.add_assoc]
      rfl

theorem encodings_run (fs : List Frame) (hn : ∀ f ∈ fs, f.NoCrlf) (hf : ∀ f ∈ fs, f.Fits) :
    Runs M ⟨.start, fs.flatMap Frame.toBytes, []⟩ fs new := by
  induction fs with
  | nil => exact .refl _
  | cons f fs ih =>
    have hr := frame_run (f.toBytes ++ fs.flatMap Frame.toBytes) []
    rw [frame_toBytes f (hn f (by simp)) (hf f (by simp))] at hr
    exact Runs.trans (a := [f]) hr
      (ih (fun g hg => hn g (by simp [hg])) (fun g hg => hf g (by simp [hg])))

theorem encodings_end (fs : List Frame) (hn : ∀ f ∈ fs, f.NoCrlf) (hf : ∀ f ∈ fs, f.Fits) :
    Ends M (new.feed (fs.flatMap Frame.toBytes)) fs none new :=
  ⟨new, encodings_run fs hn hf, rfl, rfl⟩

/-- The parser after the bytes `done` of a list of encodings, of which `t` are yet to come, goes on
to emit, call by call, what the later chunks complete. -/
theorem parseAll_deliveries {fs : List Frame} (hn : ∀ f ∈ fs, f.NoCrlf) (hf : ∀ f ∈ fs, f.Fits)
    {p : Parser} (done : Bytes) {t : Bytes} {chunks : List Bytes}
    (he : done ++ chunks.flatten ++ t = fs.flatMap Frame.toBytes)
    (hp : Ends M (new.feed done) (deliveredIn 0 done.length 0 fs) none p) :
    ∃ q, p.parseAll .exact chunks = some (deliveries fs done.length chunks, q) ∧
      ∃ out, Ends M (new.feed (done ++ chunks.flatten)) out none q := by
  induction chunks generalizing p done with
  | nil =>
    rw [List.flatten_nil, List.append_nil]
    exact ⟨p, rfl, _, hp⟩
  | cons chunk chunks ih =>
    have hflat : done ++ (chunk :: chunks).flatten = (done ++ chunk) ++ chunks.flatten := by simp
    rw [hflat] at he ⊢
    obtain ⟨r, q, hr⟩ := parse_exact_returns p chunk
    have hends := parse_iff_ends.mp hr
    have hresume : Ends M (new.feed (done ++ chunk))
        (deliveredIn 0 done.length 0 fs ++ r.frames) (verdict r) q := by
      rw [← feed_append]
      exact hp.resume hends
    obtain ⟨q', hq'⟩ := stream_run (done ++ chunk)
    rw [stream_cut fs hn hf 0 (by rwa [List.append_assoc] at he), Nat.zero_add] at hq'
    obtain ⟨hout, hv, hqq⟩ := hresume.unique hq'
    subst hqq
    rw [List.length_append,
      deliveredIn_split (Nat.zero_le done.length) (Nat.le_add_right _ _)] at hout
    have hframes := List.append_cancel_left hout
    have hrc : r = .complete (deliveredIn done.length (done.length + chunk.length) 0 fs) := by
      cases r with
      | complete frames => exact congrArg _ hframes
      | partialResult frames e => cases hv
    obtain ⟨u, hrest, hlast⟩ := ih _ he hq'
    rw [List.length_append] at hrest
    refine ⟨u, ?_, hlast⟩
    rw [parseAll, hr]
    dsimp only
    rw [hrest, deliveries, hrc]

theorem deliveredIn_empty (lo pos : Nat) (fs : List Frame) : deliveredIn lo lo pos fs = [] := by
  induction fs generalizing pos with
  | nil => rfl
  | cons f fs ih => rw [deliveredIn, if_neg (by omega), ih]; rfl

theorem deliveries_frames (fs : List Frame) (lo : Nat) (chunks : List Bytes) :
    (deliveries fs lo chunks).flatMap ParseResult.frames =
      deliveredIn lo (lo + chunks.flatten.length) 0 fs := by
  induction chunks generalizing lo with
  | nil =>
    rw [List.flatten_nil, List.length_nil, Nat.add_zero, deliveredIn_empty]
    rfl
  | cons chunk chunks ih =>
    rw [deliveries, List.flatMap_cons, ih, List.flatten_cons, List.length_append,
      ← Nat.add_assoc]
    exact (deliveredIn_split (Nat.le_add_right _ _) (Nat.le_add_right _ _) 0 fs).symm

theorem deliveries_complete {fs : List Frame} {lo : Nat} {chunks : List Bytes} {r : ParseResult}
    (h : r ∈ deliveries fs lo chunks) : ∃ frames, r = .complete frames := by
  induction chunks generalizing lo with
  | nil => cases h
  | cons chunk chunks ih =>
    rcases List.mem_cons.mp h with rfl | h
    · exact ⟨_, rfl⟩
    · exact ih h

theorem deliveredIn_all {lo hi pos : Nat} {fs : List Frame} (hlo : lo ≤ pos)
    (hhi : pos + (fs.flatMap Frame.toBytes).length ≤ hi) : deliveredIn lo hi pos fs = fs := by
  induction fs generalizing pos with
  | nil => rfl
  | cons f fs ih =>
    have hpos := toBytes_length_pos f
    rw [List.flatMap_cons, List.length_append] at hhi
    rw [deliveredIn, if_pos (by omega), ih (by omega) (by omega)]
    rfl

theorem deliveredIn_append (lo hi pos : Nat) (fs gs : List Frame) :
    deliveredIn lo hi pos (fs ++ gs) =
      deliveredIn lo hi pos fs ++ deliveredIn lo hi (pos + (fs.flatMap Frame.toBytes).length) gs := by
  induction fs generalizing pos with
  | nil => rfl
  | cons f fs ih =>
    rw [List.cons_append, deliveredIn, deliveredIn, ih, List.append_assoc, List.flatMap_cons,
      List.length_append, Nat.add_assoc]

/-- A fresh parser on the first bytes of a list of encodings. -/
theorem parseAll_part {fs : List Frame} (hn : ∀ f ∈ fs, f.NoCrlf) (hf : ∀ f ∈ fs, f.Fits)
    {t : Bytes} {chunks : List Bytes} (he : chunks.flatten ++ t = fs.flatMap Frame.toBytes) :
    ∃ q, new.parseAll .exact chunks = some (deliveries fs 0 chunks, q) ∧ (t = [] → q = new) ∧
      (deliveries fs 0 chunks).flatMap ParseResult.frames =
        deliveredIn 0 chunks.flatten.length 0 fs := by
  have hfresh : Ends M (new.feed []) (deliveredIn 0 0 0 fs) none new := by
    rw [feed_nil, deliveredIn_empty]
    exact .of_wait rfl
  obtain ⟨q, hq, out, hends⟩ := parseAll_deliveries hn hf [] he hfresh
  refine ⟨q, hq, ?_, by rw [deliveries_frames, Nat.zero_add]⟩
  rintro rfl
  rw [List.append_nil] at he
  rw [List.nil_append, he] at hends
  exact (hends.unique (encodings_end fs hn hf)).2.2

/-- Every list of frames without a line end in a simple payload is read back from
its encodings, however they are cut, each frame by the call that delivers its last
byte; the parser is then fresh again. Conversely only such frames are read back. -/
theorem parse_round_trip :
    (∀ (fs : List Frame) (chunks : List Bytes),
      (∀ f ∈ fs, f.NoCrlf) → (∀ f ∈ fs, f.Fits) → chunks.flatten = fs.flatMap Frame.toBytes →
        new.parseAll .exact chunks = some (deliveries fs 0 chunks, new) ∧
        (deliveries fs 0 chunks).flatMap ParseResult.frames = fs) ∧
    (∀ (f : Frame) (p : Parser),
      new.parse .exact f.toBytes = some (.complete [f], p) → f.NoCrlf) := by
  constructor
  · intro fs chunks hn hf he
    obtain ⟨q, hq, hnew, hframes⟩ := parseAll_part hn hf (t := []) (by rwa [List.append_nil])
    rw [hnew rfl] at hq
    refine ⟨hq, ?_⟩
    rw [hframes, he, deliveredIn_all (Nat.le_refl 0) (Nat.le_of_eq (Nat.zero_add _))]
  · intro f p h
    obtain ⟨q, hq⟩ := stream_run f.toBytes
    have hs := (hq.unique (parse_iff_ends.mp h)).1
    rw [stream_answer] at hs
    cases ha : (frame f.toBytes).answer with
    | more => rw [ha] at hs; cases hs
    | error e => rw [ha] at hs; cases hs
    | parsed g rest =>
      rw [ha] at hs
      injection hs with hg _
      exact hg ▸ frame_noCrlf ha

/-- A bulk and a simple payload that ends in CR, in one array, cut between the
payload's CR and the line end's. -/
theorem parse_round_trip_cut :
    new.parseAll .exact [asBytes "*2\r\n$1\r\nx\r\n+\r", asBytes "\r\n"] =
      some (deliveries [.array (some [.bulk (some [120]), .simpleString "\r"])] 0
        [asBytes "*2\r\n$1\r\nx\r\n+\r", asBytes "\r\n"], new) ∧
    (Frame.integer 7).NoCrlf := by
  have hn : (Frame.array (some [.bulk (some [120]), .simpleString "\r"])).NoCrlf :=
    ⟨trivial, (crlfPosition_eq_none _).mp (by decide), trivial⟩
  have hf : (Frame.array (some [.bulk (some [120]), .simpleString "\r"])).Fits :=
    ⟨by decide, by show 1 < 2^63; decide, trivial, trivial⟩
  have hcut : ∃ p, new.parse .exact (Frame.integer 7).toBytes = some (.complete [.integer 7], p) :=
    ⟨new, by decide +kernel⟩
  obtain ⟨p, hp⟩ := hcut
  exact ⟨(parse_round_trip.1 [_] _ (by simpa using hn) (by simpa using hf) (by decide)).1,
    parse_round_trip.2 _ p hp⟩

end Redlike.Resp.Grammar
