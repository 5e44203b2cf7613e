import Mathlib.Data.List.Flatten
import Redlike.Lib.Words
import Redlike.Resp.RoundTrip

/-!
# Inline requests

A request can also be typed as a line: tokens with white space around them. Whatever
the white space, the parser emits for the line the frame it emits for the tokens in the
protocol's own encoding, an array of bulk strings; a line with no token in it is
skipped.
-/
namespace Redlike.Resp.Grammar

open Lib Lib.Incremental
open Redlike.Resp.Parser

/-- A token: a non-empty string without white space. -/
def IsToken (t : String) : Prop := Words.IsWord isWhitespace t.toList

/-- White space that does not end the line. -/
structure IsSpace (ws : String) : Prop where
  blank : Words.IsBlank isWhitespace ws.toList
  noLf : '\n' ∉ ws.toList

/-- The first characters of the protocol's own frames. -/
def markers : List Char := ['+', '$', '*', '-', ':']

/-- A line of tokens: white space in front, which a first token with a marker needs, a
first token, further tokens with the white space before each, and white space at the end. -/
structure InlineLine where
  lead : String
  first : String
  rest : List (String × String)
  trail : String
  lead_space : IsSpace lead
  first_token : IsToken first
  rest_tokens : ∀ e ∈ rest, (IsSpace e.1 ∧ e.1.toList ≠ []) ∧ IsToken e.2
  trail_space : IsSpace trail
  unmarked : lead.toList = [] → ∀ c ∈ first.toList.head?, c ∉ markers

namespace InlineLine

def tokens (l : InlineLine) : List String := l.first :: l.rest.map Prod.snd

/-- The bytes of the line, line end included. -/
def bytes (l : InlineLine) : Bytes :=
  asBytes l.lead ++ asBytes l.first ++ (l.rest.flatMap fun e => asBytes e.1 ++ asBytes e.2) ++
    asBytes l.trail ++ [lf]

end InlineLine

/-- The request of these tokens: an array of bulk strings. -/
def requestOf (tokens : List String) : Frame :=
  .array (some (tokens.map fun t => .bulk (some (asBytes t))))

/-! ## Characters and bytes -/

theorem asBytes_eq (s : String) : asBytes s = s.toList.flatMap String.utf8EncodeChar := by
  rw [← asBytes_ofList, String.ofList_toList]

/-- The bytes of a character beyond ASCII are all beyond ASCII. -/
theorem utf8EncodeChar_bytes (c : Char) :
    ∀ b ∈ String.utf8EncodeChar c, c.toNat = b.toNat ∨ 128 ≤ b.toNat := by
  have hv : c.val.toNat = c.toNat := rfl
  unfold String.utf8EncodeChar
  simp only [hv]
  repeat' split
  all_goals
    simp only [List.mem_cons, List.not_mem_nil, or_false, forall_eq_or_imp, forall_eq,
      UInt8.toNat_ofNat']
    omega

/-- An ASCII byte of a string is one of its characters. -/
theorem mem_asBytes_ascii {s : String} {b : UInt8} (h : b ∈ asBytes s) (hb : b.toNat < 128) :
    ∃ c ∈ s.toList, c.toNat = b.toNat := by
  rw [asBytes_eq] at h
  obtain ⟨c, hc, hbc⟩ := List.mem_flatMap.mp h
  refine ⟨c, hc, ?_⟩
  have := utf8EncodeChar_bytes c b hbc
  omega

/-- The first byte of a string, if it is ASCII, is its first character. -/
theorem head_asBytes_ascii {s : String} {b : UInt8} (h : (asBytes s).head? = some b)
    (hb : b.toNat < 128) : ∃ c, s.toList.head? = some c ∧ c.toNat = b.toNat := by
  rw [asBytes_eq] at h
  cases hs : s.toList with
  | nil => rw [hs] at h; cases h
  | cons c cs =>
    rw [hs, List.flatMap_cons] at h
    obtain ⟨a, as, ha⟩ := List.exists_cons_of_ne_nil (String.utf8EncodeChar_ne_nil (c := c))
    rw [ha] at h
    obtain rfl : a = b := Option.some.inj h
    refine ⟨c, rfl, ?_⟩
    have := utf8EncodeChar_bytes c a (by rw [ha]; simp)
    omega

theorem lf_not_mem_asBytes {s : String} (h : '\n' ∉ s.toList) : lf ∉ asBytes s := by
  intro hm
  obtain ⟨c, hc, hn⟩ := mem_asBytes_ascii hm (by decide)
  have hlf : c = '\n' := Char.toNat_inj.mp (hn.trans (by decide))
  exact h (hlf ▸ hc)

/-! ## Lines -/

theorem mem_markers {b : UInt8} {c : Char} (hb : b ∈ markerBytes) (hc : c.toNat = b.toNat) :
    c ∈ markers := by
  have same (d : Char) (hd : d.toNat = b.toNat) : c = d := Char.toNat_inj.mp (hc.trans hd.symm)
  simp only [markerBytes, List.mem_cons, List.not_mem_nil, or_false] at hb
  rcases hb with rfl | rfl | rfl | rfl | rfl
  · rw [same '+' rfl]; decide
  · rw [same '$' rfl]; decide
  · rw [same '*' rfl]; decide
  · rw [same '-' rfl]; decide
  · rw [same ':' rfl]; decide

theorem marker_not_space {c : Char} (h : c ∈ markers) : isWhitespace c = false := by
  simp only [markers, List.mem_cons, List.not_mem_nil, or_false] at h
  rcases h with rfl | rfl | rfl | rfl | rfl
  all_goals decide

/-- A line that a marker byte begins is a string that a marker begins. -/
theorem marked_head {s : String} {b : UInt8} (h : (asBytes s ++ [lf]).head? = some b)
    (hb : b ∈ markerBytes) : ∃ c, s.toList.head? = some c ∧ c ∈ markers := by
  by_cases hne : asBytes s = []
  · rw [hne] at h
    obtain rfl : lf = b := Option.some.inj h
    exact absurd hb (by decide)
  · rw [List.head?_append_of_ne_nil _ hne] at h
    obtain ⟨c, hc, hcb⟩ := head_asBytes_ascii h (by
      rcases mem_markerBytes.mp hb with rfl | rfl | rfl | rfl | rfl <;> decide)
    exact ⟨c, hc, mem_markers hb hcb⟩

theorem untilLf_line {a : Bytes} (h : lf ∉ a) (rest : Bytes) :
    untilLf (a ++ lf :: rest) = some (a, rest) := by
  induction a with
  | nil => rw [List.nil_append, untilLf, if_pos rfl]
  | cons b a ih =>
    have hb : b ≠ lf := fun he => h (by simp [he])
    rw [List.cons_append, untilLf, if_neg hb, ih fun hm => h (by simp [hm])]
    rfl

section Line

variable {line : Bytes} (hlf : lf ∉ line) (hm : ∀ b ∈ (line ++ [lf]).head?, b ∉ markerBytes)

include hm in
/-- No marker begins the line. -/
theorem item_line (rest : Bytes) : item (line ++ lf :: rest) = inline (line ++ lf :: rest) := by
  cases line with
  | nil => exact item_unmarked rest (by decide)
  | cons b line => exact item_unmarked _ (hm b rfl)

include hlf hm

theorem item_line_unreadable (hu : fromUtf8 line = none) (rest : Bytes) :
    item (line ++ lf :: rest) = .error .unreadableUtf := by
  rw [item_line hm, inline, untilLf_line hlf]
  dsimp only
  rw [hu]

theorem item_line_blank {text : String} (hu : fromUtf8 line = some text)
    (hw : splitWhitespace text = []) (rest : Bytes) : item (line ++ lf :: rest) = .blank rest := by
  rw [item_line hm, inline, untilLf_line hlf]
  dsimp only
  rw [hu]
  dsimp only
  rw [hw]

theorem item_line_tokens {text : String} (hu : fromUtf8 line = some text)
    (hw : splitWhitespace text ≠ []) (rest : Bytes) :
    item (line ++ lf :: rest) =
      .leaf (.array (some ((splitWhitespace text).map fun t => .bulk (some t)))) rest := by
  rw [item_line hm, inline, untilLf_line hlf]
  dsimp only
  rw [hu]
  dsimp only
  obtain ⟨t, ts, hts⟩ := List.exists_cons_of_ne_nil hw
  rw [hts]

end Line

namespace InlineLine

variable (l : InlineLine)

/-- The line as a string. -/
def text : String :=
  String.ofList (l.lead.toList ++
    (Words.spaced l.first.toList (l.rest.map fun e => (e.1.toList, e.2.toList)) ++ l.trail.toList))

theorem bytes_eq : l.bytes = asBytes l.text ++ [lf] := by
  have hrest : (l.rest.flatMap fun e => e.1.toList ++ e.2.toList).flatMap String.utf8EncodeChar =
      l.rest.flatMap fun e => asBytes e.1 ++ asBytes e.2 := by
    rw [List.flatMap_assoc]
    simp only [List.flatMap_append, ← asBytes_eq]
  rw [text, asBytes_ofList, Words.spaced, List.flatMap_map]
  simp only [List.flatMap_append, hrest, ← asBytes_eq]
  simp only [bytes, List.append_assoc]

theorem splitWhitespace_text : splitWhitespace l.text = l.tokens.map asBytes := by
  have hrest : ∀ e ∈ l.rest.map fun e => (e.1.toList, e.2.toList),
      (Words.IsBlank isWhitespace e.1 ∧ e.1 ≠ []) ∧ Words.IsWord isWhitespace e.2 := by
    intro e he
    obtain ⟨d, hd, rfl⟩ := List.mem_map.mp he
    obtain ⟨⟨hs, hne⟩, ht⟩ := l.rest_tokens d hd
    exact ⟨⟨hs.blank, hne⟩, ht⟩
  have hwords : Words.words isWhitespace l.text.toList = l.tokens.map String.toList := by
    rw [text, String.toList_ofList, Words.words_blank_append l.lead_space.blank,
      Words.words_spaced l.first_token hrest l.trail_space.blank]
    simp [tokens]
  show (Words.words isWhitespace l.text.toList).map (fun piece => asBytes (String.ofList piece)) = _
  rw [hwords, List.map_map]
  simp [Function.comp_def, String.ofList_toList]

theorem not_lf_of_token {t : String} (h : IsToken t) : '\n' ∉ t.toList := by
  intro hm
  have hw := h.plain '\n' hm
  exact absurd hw (by decide)

theorem lf_not_mem : lf ∉ asBytes l.text := by
  apply lf_not_mem_asBytes
  rw [text, String.toList_ofList, Words.spaced]
  simp only [List.mem_append, List.mem_flatMap, List.mem_map, not_or, not_exists, not_and]
  refine ⟨l.lead_space.noLf, ⟨not_lf_of_token l.first_token, ?_⟩, l.trail_space.noLf⟩
  intro x hx
  obtain ⟨e, he, rfl⟩ := hx
  obtain ⟨⟨hs, -⟩, ht⟩ := l.rest_tokens e he
  exact ⟨hs.noLf, not_lf_of_token ht⟩

/-- A marker is neither white space nor the first character of an unmarked token. -/
theorem head_unmarked : ∀ b ∈ (asBytes l.text ++ [lf]).head?, b ∉ markerBytes := by
  intro b hb hmark
  obtain ⟨c, hc, hcm⟩ := marked_head hb hmark
  rw [text, String.toList_ofList] at hc
  cases hl : l.lead.toList with
  | nil =>
    obtain ⟨d, ds, hd⟩ := List.exists_cons_of_ne_nil l.first_token.ne_nil
    rw [hl, Words.spaced, hd] at hc
    obtain rfl : d = c := Option.some.inj hc
    exact l.unmarked hl d (by rw [hd]; rfl) hcm
  | cons d ds =>
    rw [hl] at hc
    obtain rfl : d = c := Option.some.inj hc
    have hspace := l.lead_space.blank d (by rw [hl]; simp)
    rw [marker_not_space hcm] at hspace
    cases hspace

/-- The grammar reads the line as the request of its tokens. -/
theorem item_bytes (rest : Bytes) : item (l.bytes ++ rest) = .leaf (requestOf l.tokens) rest := by
  have htok : splitWhitespace l.text ≠ [] := by
    rw [l.splitWhitespace_text]
    simp [tokens]
  rw [l.bytes_eq, List.append_assoc, List.singleton_append,
    item_line_tokens l.lf_not_mem l.head_unmarked (fromUtf8_asBytes _) htok, l.splitWhitespace_text,
    List.map_map]
  rfl

end InlineLine

/-! ## Sizes -/

theorem length_le_asBytes (s : String) : s.toList.length ≤ (asBytes s).length := by
  rw [asBytes_eq]
  induction s.toList with
  | nil => exact Nat.le_refl _
  | cons c cs ih =>
    have hc := List.length_pos_iff.mpr (String.utf8EncodeChar_ne_nil (c := c))
    rw [List.flatMap_cons, List.length_cons, List.length_append]
    omega

/-- A line has no more tokens than bytes, and none is longer than the line. -/
theorem splitWhitespace_length (s : String) :
    (splitWhitespace s).length ≤ (asBytes s).length ∧
      ∀ t ∈ splitWhitespace s, t.length ≤ (asBytes s).length := by
  constructor
  · have hwords : (splitWhitespace s).length = (Words.words isWhitespace s.toList).length :=
      List.length_map _
    rw [hwords]
    exact Nat.le_trans (Words.length_words_le _) (length_le_asBytes s)
  · intro t ht
    obtain ⟨w, hw, rfl⟩ := List.mem_map.mp ht
    have hsub : w.Sublist s.toList := Words.sublist_of_mem hw
    rw [asBytes_ofList, asBytes_eq]
    exact (hsub.flatMap _).length_le

theorem tokens_fit {s : String} (h : (asBytes s).length < 2^63) :
    (Frame.array (some ((splitWhitespace s).map fun t => .bulk (some t)))).Fits := by
  obtain ⟨hcount, hlen⟩ := splitWhitespace_length s
  rw [Frame.Fits, Frame.fitsAll_iff, List.length_map]
  refine ⟨Nat.lt_of_le_of_lt hcount h, ?_⟩
  intro f hf
  obtain ⟨t, ht, rfl⟩ := List.mem_map.mp hf
  exact Nat.lt_of_le_of_lt (hlen t ht) h

theorem tokens_noCrlf (ts : List Bytes) :
    (Frame.array (some (ts.map fun t => .bulk (some t)))).NoCrlf := by
  rw [Frame.NoCrlf, Frame.noCrlfAll_iff]
  intro f hf
  obtain ⟨t, -, rfl⟩ := List.mem_map.mp hf
  trivial

/-! ## What the parser makes of lines -/

/-- One frame and nothing behind it. -/
theorem parse_of_frame {s : Bytes} {f : Frame} (h : (frame s).answer = .parsed f []) :
    new.parse .exact s = some (.complete [f], new) := by
  have hr := frame_run s []
  rw [h] at hr
  exact parse_iff_ends.mpr ⟨new, hr, rfl, rfl⟩

/-- Two spellings of one frame are parsed alike, whatever follows them. -/
theorem parse_congr {s t rest : Bytes} {f : Frame}
    (hs : (frame (s ++ rest)).answer = .parsed f rest)
    (ht : (frame (t ++ rest)).answer = .parsed f rest) :
    new.parse .exact (s ++ rest) = new.parse .exact (t ++ rest) := by
  obtain ⟨r, q, hr⟩ := parse_exact_returns new (t ++ rest)
  obtain ⟨v, hv⟩ := stream_run rest
  have hrun : ∀ u, (frame u).answer = .parsed f rest →
      Ends M ⟨.start, u, []⟩ ([f] ++ (stream rest).1) ((stream rest).2.map .parse) v := by
    intro u hu
    have hfu := frame_run u []
    rw [hu] at hfu
    exact .of_runs hfu hv
  obtain ⟨hout, hver, hq⟩ := (parse_iff_ends.mp hr).unique (hrun _ ht)
  rw [hr, parse_iff_ends, hout, hver, hq]
  exact hrun _ hs

theorem tokens_of_splitWhitespace (s : String) :
    ∃ tokens : List String, (∀ t ∈ tokens, IsToken t) ∧ splitWhitespace s = tokens.map asBytes := by
  refine ⟨(Words.words isWhitespace s.toList).map String.ofList, ?_, ?_⟩
  · intro t ht
    obtain ⟨w, hw, rfl⟩ := List.mem_map.mp ht
    rw [IsToken, String.toList_ofList]
    exact Words.isWord_of_mem hw
  · rw [List.map_map]
    rfl

/-- A line that no marker begins yields a request of tokens, or nothing. -/
theorem stream_line {line : Bytes} (hlf : lf ∉ line)
    (hm : ∀ b ∈ (line ++ [lf]).head?, b ∉ markerBytes) :
    (stream (line ++ [lf])).1 = [] ∨
      ∃ tokens, tokens ≠ [] ∧ (∀ t ∈ tokens, IsToken t) ∧
        (stream (line ++ [lf])).1 = [requestOf tokens] := by
  have hend : stream [] = ([], none) := by
    rw [stream_answer, frame_item]
    rfl
  rw [stream_answer, frame_item]
  cases hu : fromUtf8 line with
  | none => rw [item_line_unreadable hlf hm hu]; exact .inl rfl
  | some text =>
    by_cases hw : splitWhitespace text = []
    · rw [item_line_blank hlf hm hu hw]
      dsimp only
      rw [frame_item]
      exact .inl rfl
    · obtain ⟨tokens, htok, hts⟩ := tokens_of_splitWhitespace text
      rw [item_line_tokens hlf hm hu hw]
      dsimp only
      rw [hend, hts, List.map_map]
      refine .inr ⟨tokens, ?_, htok, rfl⟩
      rintro rfl
      exact hw hts

theorem space_unmarked {ws : String} (h : IsSpace ws) :
    ∀ b ∈ (asBytes ws ++ [lf]).head?, b ∉ markerBytes := by
  intro b hb hmark
  obtain ⟨c, hc, hcm⟩ := marked_head hb hmark
  have hspace := h.blank c (List.mem_of_head? hc)
  rw [marker_not_space hcm] at hspace
  cases hspace

theorem item_blank {ws : String} (h : IsSpace ws) (rest : Bytes) :
    item (asBytes ws ++ lf :: rest) = .blank rest := by
  have hwords : splitWhitespace ws = [] := by
    show (Words.words isWhitespace ws.toList).map _ = []
    rw [Words.words_blank h.blank, List.map_nil]
  exact item_line_blank (lf_not_mem_asBytes h.noLf) (space_unmarked h) (fromUtf8_asBytes ws) hwords rest

theorem frame_requestOf {l : InlineLine} (hl : l.bytes.length < 2^63) (rest : Bytes) :
    (frame ((requestOf l.tokens).toBytes ++ rest)).answer = .parsed (requestOf l.tokens) rest := by
  have hfit : (requestOf l.tokens).Fits := by
    rw [l.bytes_eq, List.length_append, List.length_singleton] at hl
    have h := tokens_fit (s := l.text) (by omega)
    rwa [l.splitWhitespace_text, List.map_map] at h
  have hcrlf : (requestOf l.tokens).NoCrlf := by
    have h := tokens_noCrlf (l.tokens.map asBytes)
    rwa [List.map_map] at h
  exact frame_toBytes _ hcrlf hfit rest

/-- Lines and arrays of bulk strings are the same requests: a line of tokens is parsed as the
encoding of its tokens is, whatever follows; a line yields nothing else; and a blank line yields
nothing at all. -/
theorem inline_agrees_with_resp :
    (∀ l : InlineLine, l.bytes.length < 2^63 →
      new.parse .exact l.bytes = some (.complete [requestOf l.tokens], new) ∧
      new.parse .exact (requestOf l.tokens).toBytes =
        some (.complete [requestOf l.tokens], new) ∧
      ∀ rest, new.parse .exact (l.bytes ++ rest) =
        new.parse .exact ((requestOf l.tokens).toBytes ++ rest)) ∧
    (∀ (line : Bytes) (r : ParseResult) (q : Parser), lf ∉ line →
      (∀ b ∈ (line ++ [lf]).head?, b ∉ markerBytes) → new.parse .exact (line ++ [lf]) = some (r, q) →
      ∀ f ∈ r.frames, ∃ tokens, tokens ≠ [] ∧ (∀ t ∈ tokens, IsToken t) ∧ f = requestOf tokens) ∧
    (∀ ws : String, IsSpace ws →
      new.parse .exact (asBytes ws ++ [lf]) = some (.complete [], new)) := by
  refine ⟨?_, ?_, ?_⟩
  · intro l hl
    have hline (rest : Bytes) :
        (frame (l.bytes ++ rest)).answer = .parsed (requestOf l.tokens) rest := by
      rw [frame_item, l.item_bytes]
    have hone := hline []
    have hresp := frame_requestOf hl []
    rw [List.append_nil] at hone hresp
    exact ⟨parse_of_frame hone, parse_of_frame hresp,
      fun rest => parse_congr (hline rest) (frame_requestOf hl rest)⟩
  · intro line r q hlf hm hp f hf
    obtain ⟨q', hq'⟩ := stream_run (line ++ [lf])
    rw [((parse_iff_ends.mp hp).unique hq').1] at hf
    rcases stream_line hlf hm with hs | ⟨tokens, hne, htok, hs⟩
    · rw [hs] at hf
      cases hf
    · rw [hs] at hf
      exact ⟨tokens, hne, htok, List.mem_singleton.mp hf⟩
  · intro ws hws
    have hrun : (item (new.feed (asBytes ws ++ [lf])).buf).RunWith .exact
        (new.feed (asBytes ws ++ [lf])) := item_runWith rfl
    rw [show (new.feed (asBytes ws ++ [lf])).buf = asBytes ws ++ lf :: [] from rfl,
      item_blank hws] at hrun
    exact parse_iff_ends.mpr ⟨new, hrun, rfl, rfl⟩

/-- White space in front of a marker, a tab between the tokens, and CR before the line end. -/
def markedLine : InlineLine where
  lead := " "
  first := "+x"
  rest := [("\t\u00a0", "é")]
  trail := "\r"
  lead_space := ⟨by decide, by decide⟩
  first_token := by unfold IsToken; decide
  rest_tokens := by
    intro e he
    rw [List.mem_singleton.mp he]
    exact ⟨⟨⟨by decide, by decide⟩, by decide⟩,
      by unfold IsToken; decide⟩
  trail_space := ⟨by decide, by decide⟩
  unmarked h := absurd h (by decide)

theorem inline_agrees_with_resp_marked :
    new.parse .exact markedLine.bytes = some (.complete [requestOf ["+x", "é"]], new) ∧
    (∃ tokens, tokens ≠ [] ∧ (∀ t ∈ tokens, IsToken t) ∧
      requestOf ["GET", "k"] = requestOf tokens) ∧
    new.parse .exact (asBytes "\t\r" ++ [lf]) = some (.complete [], new) := by
  have hget : ∃ q, new.parse .exact (asBytes "GET k\r" ++ [lf]) =
      some (.complete [requestOf ["GET", "k"]], q) := ⟨new, by decide +kernel⟩
  obtain ⟨q, hq⟩ := hget
  refine ⟨(inline_agrees_with_resp.1 markedLine (by decide)).1, ?_, ?_⟩
  · exact inline_agrees_with_resp.2.1 _ _ q (by decide) (by decide +kernel) hq _
      (List.mem_singleton.mpr rfl)
  · exact inline_agrees_with_resp.2.2 _
      ⟨by decide, by decide⟩

end Redlike.Resp.Grammar
