import Redlike.Connection.Command
import Redlike.Resp.Layout

/-!
# The formats of executed requests

A request that begins as an array and is decoded to a command consists of the head of the
array and its bulk strings, and of nothing else but blank lines: the start state of the parser
is also where the elements of an array begin, and there it skips them as between requests.
-/
namespace Redlike.Command

open Resp Resp.Grammar Resp.Parser

/-- `*<n>\r\n` and exactly `n` bulk strings, with nothing before, between or after them. -/
def Documented (s : Bytes) : Prop :=
  ∃ (n : Bytes) (items : List BulkItem), signed n = some (items.length : Int) ∧
    s = star :: (n ++ crlf ++ items.flatMap BulkItem.bytes)

/-- The same with blank lines in front of the bulk strings. -/
def Spaced (s : Bytes) (entries : List Entry) : Prop :=
  ∃ n : Bytes, signed n = some (entries.length : Int) ∧
    s = star :: (n ++ crlf ++ entries.flatMap Entry.bytes)

/-- A blank line stands between the head of the array and one of its bulk strings. -/
def BlankInside (s : Bytes) : Prop := ∃ entries, Spaced s entries ∧ ∃ e ∈ entries, e.blanks ≠ []

/-- A fresh parser has emitted nothing for all bytes but the last, and its first frame when the
last one arrives is `f`. -/
def EmitsAtEnd (s : Bytes) (f : Frame) : Prop :=
  ∃ (t : Bytes) (b : UInt8) (r₁ r₂ : ParseResult) (p q : Parser), s = t ++ [b] ∧
    new.parse .exact t = some (r₁, p) ∧ r₁.frames = [] ∧
    p.parse .exact [b] = some (r₂, q) ∧ r₂.frames.head? = some f

/-! ## What the grammar says of such bytes -/

/-- What a fresh parser emits is the stream of the grammar. -/
theorem stream_of_parse {s : Bytes} {r : ParseResult} {q : Parser}
    (h : new.parse .exact s = some (r, q)) : (stream s).1 = r.frames := by
  obtain ⟨u, hu⟩ := stream_run s
  exact (hu.unique (parse_iff_ends.mp h)).1

theorem frame_of_stream {s : Bytes} {f : Frame} (h : (stream s).1.head? = some f) :
    ∃ rest, (frame s).answer = .parsed f rest := by
  rw [stream_answer] at h
  cases ha : (frame s).answer with
  | parsed g rest =>
    rw [ha] at h
    cases h
    exact ⟨rest, rfl⟩
  | more => rw [ha] at h; cases h
  | error e => rw [ha] at h; cases h

theorem EmitsAtEnd.frame {s : Bytes} {f : Frame} (h : EmitsAtEnd s f) :
    ∃ t b rest, s = t ++ [b] ∧ (frame s).answer = .parsed f rest ∧
      ∀ g r, (Grammar.frame t).answer ≠ .parsed g r := by
  obtain ⟨t, b, r₁, r₂, p, q, rfl, ht, hnone, hb, hf⟩ := h
  have hearly (g : Frame) (r : Bytes) : (Grammar.frame t).answer ≠ .parsed g r := by
    intro ha
    have hstream := stream_of_parse ht
    rw [hnone, stream_answer, ha] at hstream
    cases hstream
  have hok : r₁.error = none := by
    cases he : r₁.error with
    | none => rfl
    | some e =>
      -- a parser that has failed emits nothing more
      have hends := parse_iff_ends.mp ht
      rw [show verdict r₁ = some (.parse e) by rw [verdict, he]; rfl] at hends
      have hout := ((parse_iff_ends.mp hb).unique (hends.halted [b])).1
      rw [hout] at hf
      cases hf
  obtain ⟨r, hr, hframes, -⟩ := parse_then ht hok hb
  rw [hnone, List.nil_append] at hframes
  obtain ⟨rest, hrest⟩ := frame_of_stream (s := t ++ [b]) (f := f)
    (by rw [stream_of_parse hr, hframes]; exact hf)
  exact ⟨t, b, rest, rfl, hrest, hearly⟩

/-- An array of bulk strings is read from a head and entries. -/
theorem frame_spaced {s rest : Bytes} {payloads : List Bytes} (hne : payloads ≠ [])
    (h : (frame (star :: s)).answer =
      .parsed (.array (some (payloads.map fun b => .bulk (some b)))) rest) :
    ∃ (n : Bytes) (entries : List Entry), signed n = some (entries.length : Int) ∧
      entries.length < 2^63 ∧ entries.length ≠ 0 ∧ entries.map (·.item.payload) = payloads ∧
      (∀ e ∈ entries, e.item.payload.length < 2^63) ∧
      s = n ++ crlf ++ (entries.flatMap Entry.bytes ++ rest) := by
  rcases frame_parsed h with hit | ⟨r, hit, -⟩ | ⟨m, r, fs, hit, hfs, hf⟩
  · rcases item_star_leaf hit with hnil | hnil
    · cases hnil
    · injection hnil with hnil
      injection hnil with hnil
      exact absurd (List.map_eq_nil_iff.mp hnil) hne
  · cases blank_reads hit with
    | blank hb => exact absurd (by decide) hb
  · obtain ⟨hlt, n, hn, rfl⟩ := item_star_opened hit
    have hpos := item_opened_pos hit
    injection hf with hf
    injection hf with hf
    rw [← hf] at hfs
    obtain ⟨entries, rfl, hpay, hall, rfl⟩ := frames_entries hfs
    exact ⟨n, entries, hn, hlt, by omega, hpay, hall, rfl⟩

/-- A head and entries are read as the array of their payloads, up to what follows. -/
theorem frame_of_spaced {n : Bytes} {entries : List Entry}
    (hn : signed n = some (entries.length : Int)) (hlt : entries.length < 2^63)
    (hne : entries.length ≠ 0) (hall : ∀ e ∈ entries, e.item.payload.length < 2^63) (rest : Bytes) :
    (frame (star :: (n ++ crlf ++ (entries.flatMap Entry.bytes ++ rest)))).answer =
      .parsed (.array (some (entries.map fun e => .bulk (some e.item.payload)))) rest := by
  have hopened : item (star :: (n ++ crlf ++ (entries.flatMap Entry.bytes ++ rest))) =
      .opened entries.length (entries.flatMap Entry.bytes ++ rest) := by
    rw [item_star, counted, untilCrlf_signed hn]
    dsimp only
    rw [number_of_signed hn hlt]
    dsimp only
    rw [array, toInt_ofInt_nat hlt, if_neg (by omega), if_neg (by omega), if_neg (by omega),
      Int.toNat_natCast]
  rw [frame_item, hopened]
  dsimp only
  rw [frames_of_entries hall rest]
  rfl

/-- A request that begins as an array, is emitted with its last byte and is decoded to a command
is a head with entries, and nothing is left over. -/
theorem spaced_of_executed {s : Bytes} {f : Frame} {c : Command} (hs : s.head? = some star)
    (he : EmitsAtEnd s f) (hc : tryFrom f = .ok c) :
    ∃ entries, Spaced s entries ∧
      f = .array (some (entries.map fun e => .bulk (some e.item.payload))) := by
  obtain ⟨t, b, rest, rfl, hframe, hearly⟩ := he.frame
  obtain ⟨name, argv, rfl, -⟩ := tryFrom_ok hc
  obtain ⟨u, hu⟩ : ∃ u, t ++ [b] = star :: u := by
    cases ht : t ++ [b] with
    | nil => rw [ht] at hs; cases hs
    | cons a u => rw [ht] at hs; cases hs; exact ⟨u, rfl⟩
  rw [hu] at hframe ⊢
  obtain ⟨n, entries, hn, hlt, hne, hpay, hall, rfl⟩ := frame_spaced (by simp) hframe
  have hrest : rest = [] := by
    rcases List.eq_nil_or_concat rest with hnil | ⟨rest', b', rfl⟩
    · exact hnil
    · -- with bytes left over, the frame would have come before the last of them
      exfalso
      have hsplit : t ++ [b] =
          star :: (n ++ crlf ++ (entries.flatMap Entry.bytes ++ rest')) ++ [b'] := by
        rw [hu]
        simp
      have ht := (List.append_inj' hsplit rfl).1
      exact hearly _ _ (ht ▸ frame_of_spaced hn hlt hne hall rest')
  subst hrest
  refine ⟨entries, ⟨n, hn, by rw [List.append_nil]⟩, ?_⟩
  rw [← hpay, List.map_map]
  rfl

/-- The two layouts exclude each other: the head ends at its first CR LF, so both ways to take
the bytes apart have the same one, and the same number of bulk strings behind it. -/
theorem Documented.not_blankInside {s : Bytes} (h : Documented s) : ¬ BlankInside s := by
  intro hblank
  obtain ⟨n, items, hn, rfl⟩ := h
  obtain ⟨entries, ⟨m, hm, heq⟩, e, hmem, hne⟩ := hblank
  injection heq with _ heq
  have hsame := untilCrlf_signed hn (items.flatMap BulkItem.bytes)
  rw [heq, untilCrlf_signed hm] at hsame
  injection hsame with hsame
  obtain ⟨rfl, hbody⟩ := Prod.mk.inj hsame
  rw [hm] at hn
  injection hn with hn
  exact hne (blanks_eq_nil (by omega) hbody e hmem)

/-- Of the requests that begin as an array and are executed, exactly those are of the documented
format that have no blank line between the head of the array and its bulk strings; and nothing
but such lines can stand there. -/
theorem executed_is_documented_iff {s : Bytes} {f : Frame} {c : Command} (hs : s.head? = some star)
    (he : EmitsAtEnd s f) (hc : tryFrom f = .ok c) :
    (∃ entries, Spaced s entries ∧
      f = .array (some (entries.map fun e => .bulk (some e.item.payload)))) ∧
    (Documented s ↔ ¬ BlankInside s) := by
  obtain ⟨entries, hspaced, hf⟩ := spaced_of_executed hs he hc
  refine ⟨⟨entries, hspaced, hf⟩, Documented.not_blankInside, ?_⟩
  intro hno
  obtain ⟨n, hn, rfl⟩ := hspaced
  have hblanks : ∀ e ∈ entries, e.bytes = e.item.bytes := by
    intro e hmem
    have hb : e.blanks = [] := by
      by_contra hb
      exact hno ⟨entries, ⟨n, hn, rfl⟩, e, hmem, hb⟩
    simp [Entry.bytes, Entry.blankBytes, hb]
  refine ⟨n, entries.map Entry.item, by rw [List.length_map]; exact hn, ?_⟩
  rw [List.flatMap_map, List.flatMap_congr hblanks]

/-- The frame of a PING. -/
def pingFrame : Frame := .array (some [.bulk (some (asBytes "PING"))])

theorem ping_emitted : EmitsAtEnd (asBytes "*1\r\n$+04\r\nPING\r\n") pingFrame :=
  ⟨asBytes "*1\r\n$+04\r\nPING\r", lf, .complete [], .complete [pingFrame],
    ⟨.readingBulkString 4, asBytes "PING\r", [⟨1, [], by decide⟩]⟩, new,
    by decide, by decide +kernel, rfl, by decide +kernel, rfl⟩

/-- A length with a sign and a zero in front is documented. -/
theorem executed_is_documented_iff_ping :
    tryFrom pingFrame = .ok .ping ∧
    (Documented (asBytes "*1\r\n$+04\r\nPING\r\n") ↔
      ¬ BlankInside (asBytes "*1\r\n$+04\r\nPING\r\n")) :=
  have hping : tryFrom pingFrame = .ok .ping := by decide
  ⟨hping, (executed_is_documented_iff (by decide) ping_emitted hping).2⟩

/-- An empty line in front of the word. -/
def blankPing : Entry where
  blanks := ["\r"]
  item := ⟨asBytes "4", asBytes "PING", by decide +kernel⟩
  spaces ws hws := by
    rw [List.mem_singleton.mp hws]
    exact ⟨by decide, by decide⟩

/-- A blank line in the array of a PING: it is skipped, and the PING is executed. -/
theorem blank_line_in_executed_array :
    (asBytes "*1\r\n\r\n$4\r\nPING\r\n").head? = some star ∧
    EmitsAtEnd (asBytes "*1\r\n\r\n$4\r\nPING\r\n") pingFrame ∧
    tryFrom pingFrame = .ok .ping ∧ ¬ Documented (asBytes "*1\r\n\r\n$4\r\nPING\r\n") := by
  refine ⟨by decide, ?_, by decide, ?_⟩
  · exact ⟨asBytes "*1\r\n\r\n$4\r\nPING\r", lf, .complete [], .complete [pingFrame],
      ⟨.readingBulkString 4, asBytes "PING\r", [⟨1, [], by decide⟩]⟩, new,
      by decide, by decide +kernel, rfl, by decide +kernel, rfl⟩
  · intro hdoc
    refine hdoc.not_blankInside ⟨[blankPing], ⟨asBytes "1", by decide +kernel, by decide⟩,
      blankPing, List.mem_singleton.mpr rfl, ?_⟩
    simp [blankPing]

end Redlike.Command
