import Redlike.Connection.Names
import Redlike.Resp.Inline

/-!
# Commands that can be typed

Arrays of bulk strings carry any bytes, and so every command has a request. A line does not: its
tokens are words of UTF-8 text. So a command can be typed exactly if its key, its value or its
password is such a word. With any other password nobody gets in by typing.
-/
namespace Redlike.Command

open Resp Resp.Grammar

/-- The bytes of a request that a command keeps as they came. -/
def texts : Command → List Bytes
  | noop | ping | quit => []
  | get key | del key | ttl key | auth key | expire key _ => [key]
  | set key value => [key, value]

/-- The text is a word, as it stands in a line. -/
def IsTyped (a : Bytes) : Prop := ∃ t, IsToken t ∧ a = asBytes t

/-- The command can be typed. -/
def Typable (c : Command) : Prop := c ≠ .noop ∧ ∀ a ∈ c.texts, IsTyped a

/-- A line that is not one of the protocol's own frames. -/
structure IsLine (line : Bytes) : Prop where
  noLf : lf ∉ line
  unmarked : ∀ b ∈ (line ++ [lf]).head?, b ∉ markerBytes

theorem Builds.ne_noop {n : Name} {argv : List Bytes} {c : Command} (h : Builds n argv c) :
    c ≠ .noop := by
  cases h <;> simp

theorem Builds.texts_sublist {n : Name} {argv : List Bytes} {c : Command} (h : Builds n argv c) :
    c.texts.Sublist argv := by
  cases h with
  | ping | quit => exact .slnil
  | get _ | del _ | ttl _ | auth _ | set _ _ => exact .refl _
  | expire key _ => exact (List.nil_sublist _).cons_cons key

/-! ## A line for a command -/

theorem isWhitespace_digit {c : Char} (h : c.isDigit) : isWhitespace c = false := by
  obtain ⟨h0, h9⟩ := Char.isDigit_iff_toNat.mp h
  have hlo : 48 ≤ c.toNat := h0
  have hhi : c.toNat ≤ 57 := h9
  unfold isWhitespace
  simp
  omega

theorem isToken_digits (n : Nat) : IsToken (toString n) := by
  unfold IsToken
  rw [Nat.toString_eq_ofList_toDigits, String.toList_ofList]
  exact ⟨Nat.toDigits_ne_nil, fun c hc =>
    isWhitespace_digit (Nat.isDigit_of_mem_toDigits (by decide) (by decide) hc)⟩

/-- If the texts of a command are words, then there is a request for it all in words. -/
theorem builds_typed {c : Command} (hc : c ≠ .noop) (ht : ∀ a ∈ c.texts, IsTyped a) :
    ∃ n argv, Builds n argv c ∧ ∀ a ∈ argv, IsTyped a := by
  cases c with
  | noop => exact absurd rfl hc
  | ping => exact ⟨_, _, .ping, by simp⟩
  | quit => exact ⟨_, _, .quit, by simp⟩
  | get key => exact ⟨_, _, .get key, ht⟩
  | del key => exact ⟨_, _, .del key, ht⟩
  | ttl key => exact ⟨_, _, .ttl key, ht⟩
  | auth key => exact ⟨_, _, .auth key, ht⟩
  | set key value => exact ⟨_, _, .set key value, ht⟩
  | expire key value =>
    refine ⟨_, _, .expire key (isSeconds_digits value), ?_⟩
    intro a ha
    rcases List.mem_cons.mp ha with rfl | ha
    · exact ht _ List.mem_cons_self
    · rw [List.mem_singleton.mp ha]
      exact ⟨_, isToken_digits _, rfl⟩

theorem tokens_of_typed {argv : List Bytes} (h : ∀ a ∈ argv, IsTyped a) :
    ∃ ts : List String, (∀ t ∈ ts, IsToken t) ∧ argv = ts.map asBytes := by
  induction argv with
  | nil => exact ⟨[], by simp, rfl⟩
  | cons a argv ih =>
    obtain ⟨⟨t, ht, rfl⟩, hargv⟩ := List.forall_mem_cons.mp h
    obtain ⟨ts, hts, rfl⟩ := ih hargv
    exact ⟨t :: ts, List.forall_mem_cons.mpr ⟨ht, hts⟩, rfl⟩

theorem isSpace_single : IsSpace " " := ⟨by decide, by decide⟩

theorem isSpace_empty : IsSpace "" := ⟨by decide, by decide⟩

theorem Name.head_unmarked (n : Name) : ∀ c ∈ n.text.toList.head?, c ∉ markers := by
  have hhead : ∃ c, n.text.toList.head? = some c ∧ c ∉ markers := by
    cases n
    all_goals exact ⟨_, rfl, by decide⟩
  obtain ⟨c, hc, hm⟩ := hhead
  intro d hd
  rw [hc] at hd
  cases hd
  exact hm

/-- The name and the arguments, with one space between them. -/
def typedLine (n : Name) (ts : List String) (h : ∀ t ∈ ts, IsToken t) : InlineLine where
  lead := ""
  first := n.text
  rest := ts.map fun t => (" ", t)
  trail := ""
  lead_space := isSpace_empty
  first_token := by
    unfold IsToken
    cases n <;> decide
  rest_tokens := by
    intro e he
    obtain ⟨t, ht, rfl⟩ := List.mem_map.mp he
    exact ⟨⟨isSpace_single, by simp⟩, h t ht⟩
  trail_space := isSpace_empty
  unmarked _ := n.head_unmarked

theorem requestOf_typedLine (n : Name) (ts : List String) (h : ∀ t ∈ ts, IsToken t) :
    requestOf (typedLine n ts h).tokens = request (asBytes n.text) (ts.map asBytes) := by
  simp [requestOf, request, InlineLine.tokens, typedLine, Function.comp_def]

theorem isLine_typedLine (n : Name) (ts : List String) (h : ∀ t ∈ ts, IsToken t) :
    IsLine (asBytes (typedLine n ts h).text) :=
  ⟨InlineLine.lf_not_mem _, InlineLine.head_unmarked _⟩

theorem parse_typedLine (n : Name) (ts : List String) (h : ∀ t ∈ ts, IsToken t) :
    Parser.new.parse .exact (asBytes (typedLine n ts h).text ++ [lf]) =
      some (.complete [request (asBytes n.text) (ts.map asBytes)], .new) := by
  rw [← InlineLine.bytes_eq, ← requestOf_typedLine n ts h]
  apply parse_of_frame
  have hitem := (typedLine n ts h).item_bytes []
  rw [List.append_nil] at hitem
  rw [frame_item, hitem]

/-! ## What lines can say -/

/-- The frames of any number of lines are requests of tokens. -/
theorem stream_lines {lines : List Bytes} (h : ∀ line ∈ lines, IsLine line) :
    ∀ f ∈ (stream (lines.flatMap (· ++ [lf]))).1,
      ∃ tokens, tokens ≠ [] ∧ (∀ t ∈ tokens, IsToken t) ∧ f = requestOf tokens := by
  induction lines with
  | nil =>
    have hend : (stream []).1 = [] := by
      rw [stream_answer, frame_item]
      rfl
    intro f hf
    rw [List.flatMap_nil, hend] at hf
    cases hf
  | cons line lines ih =>
    obtain ⟨⟨hlf, hm⟩, hlines⟩ := List.forall_mem_cons.mp h
    have hbytes : (line :: lines).flatMap (· ++ [lf]) = line ++ lf :: lines.flatMap (· ++ [lf]) := by
      simp
    intro f hf
    rw [hbytes, stream_answer, frame_item] at hf
    cases hu : fromUtf8 line with
    | none =>
      rw [item_line_unreadable hlf hm hu] at hf
      cases hf
    | some text =>
      by_cases hw : splitWhitespace text = []
      · rw [item_line_blank hlf hm hu hw] at hf
        dsimp only at hf
        rw [← stream_answer] at hf
        exact ih hlines f hf
      · obtain ⟨tokens, htok, hts⟩ := tokens_of_splitWhitespace text
        rw [item_line_tokens hlf hm hu hw] at hf
        rcases List.mem_cons.mp hf with rfl | hf
        · refine ⟨tokens, ?_, htok, ?_⟩
          · rintro rfl
            exact hw hts
          · rw [hts, List.map_map]
            rfl
        · exact ih hlines f hf

/-- A request of tokens is decoded to a command that can be typed. -/
theorem typable_of_tokens {tokens : List String} (hne : tokens ≠ []) (htok : ∀ t ∈ tokens, IsToken t)
    {c : Command} (hok : tryFrom (requestOf tokens) = .ok c) : Typable c := by
  obtain ⟨t, ts, rfl⟩ := List.exists_cons_of_ne_nil hne
  obtain ⟨-, hts⟩ := List.forall_mem_cons.mp htok
  have hrequest : requestOf (t :: ts) = request (asBytes t) (ts.map asBytes) := by
    simp [requestOf, request, Function.comp_def]
  rw [hrequest] at hok
  obtain ⟨n, -, hb⟩ := tryFrom_ok_builds hok
  refine ⟨hb.ne_noop, fun a ha => ?_⟩
  obtain ⟨s, hs, rfl⟩ := List.mem_map.mp (hb.texts_sublist.mem ha)
  exact ⟨s, hts s hs, rfl⟩

/-- A command of the table comes from a line exactly if its key, its value or its password is a
non-empty word of UTF-8 text without white space. Then one line is enough for it, and else no
sequence of lines has a frame that is decoded to it. -/
theorem typed_iff (c : Command) :
    (Typable c ↔ ∃ line f, IsLine line ∧
      Parser.new.parse .exact (line ++ [lf]) = some (.complete [f], .new) ∧ tryFrom f = .ok c) ∧
    (Typable c ↔ ∃ (lines : List Bytes) (r : ParseResult) (q : Parser),
      (∀ line ∈ lines, IsLine line) ∧
      Parser.new.parse .exact (lines.flatMap (· ++ [lf])) = some (r, q) ∧
      ∃ f ∈ r.frames, tryFrom f = .ok c) := by
  have hone (hc : Typable c) : ∃ line f, IsLine line ∧
      Parser.new.parse .exact (line ++ [lf]) = some (.complete [f], .new) ∧ tryFrom f = .ok c := by
    obtain ⟨n, argv, hb, hargv⟩ := builds_typed hc.1 hc.2
    obtain ⟨ts, hts, rfl⟩ := tokens_of_typed hargv
    exact ⟨_, _, isLine_typedLine n ts hts, parse_typedLine n ts hts, hb.tryFrom (spells_text n)⟩
  have hall {lines : List Bytes} {r : ParseResult} {q : Parser} {f : Frame}
      (hlines : ∀ line ∈ lines, IsLine line)
      (hp : Parser.new.parse .exact (lines.flatMap (· ++ [lf])) = some (r, q)) (hf : f ∈ r.frames)
      (hok : tryFrom f = .ok c) : Typable c := by
    obtain ⟨q', hq'⟩ := stream_run (lines.flatMap (· ++ [lf]))
    rw [((Parser.parse_iff_ends.mp hp).unique hq').1] at hf
    obtain ⟨tokens, hne, htok, rfl⟩ := stream_lines hlines f hf
    exact typable_of_tokens hne htok hok
  refine ⟨⟨hone, ?_⟩, ⟨fun hc => ?_, ?_⟩⟩
  · intro hex
    obtain ⟨line, f, hline, hp, hok⟩ := hex
    refine @hall [line] (.complete [f]) .new f ?_ ?_ (List.mem_singleton_self f) hok
    · simpa using hline
    · simpa using hp
  · obtain ⟨line, f, hline, hp, hok⟩ := hone hc
    refine ⟨[line], .complete [f], .new, ?_, ?_, f, List.mem_singleton_self f, hok⟩
    · simpa using hline
    · simpa using hp
  · intro hex
    obtain ⟨lines, r, q, hlines, hp, f, hf, hok⟩ := hex
    exact hall hlines hp hf hok

end Redlike.Command
