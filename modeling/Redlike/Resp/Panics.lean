import Redlike.Resp.Checked

/-!
# When the parser panics

An array head makes the parser ask for all the room of the array at once. That request
is the only thing that can go wrong: the calls on some chunks return exactly if the
allocator grants every array head that the grammar finds in them, at any depth and
wherever the chunks are cut.
-/
namespace Redlike.Resp

open Lib.Incremental

namespace Grammar

/-- The announced lengths of the array heads, at any depth, up to the first error. -/
def heads (s : Bytes) : List Nat :=
  match _h : item s with
  | .leaf _ rest => heads rest
  | .blank rest => heads rest
  | .opened n rest => n :: heads rest
  | .more => []
  | .error _ => []
termination_by s.length
decreasing_by
  · exact leaf_shorter _h
  · exact blank_shorter _h
  · exact opened_shorter _h

theorem heads_nil : heads [] = [] := by
  rw [heads]
  rfl

end Grammar

namespace Parser

open Grammar

variable {alloc : Allocator}

theorem accept_eq_start (f : Frame) (rest : Bytes) (stack : List Level) :
    ∃ levels, (accept f ⟨.start, rest, stack⟩).1 = ⟨.start, rest, levels⟩ := by
  unfold accept
  split
  · exact ⟨_, rfl⟩
  · exact ⟨_, rfl⟩

theorem withCapacity_none {n : Nat} : Level.withCapacity alloc n = none ↔ alloc n = none := by
  rw [Level.withCapacity, Option.map_eq_none_iff]

/-- The machine reads all items; it faults exactly at an array head that is refused. -/
theorem heads_run (alloc : Allocator) (s : Bytes) (stack : List Level) :
    ∃ out v q, Ends (machine alloc) ⟨.start, s, stack⟩ out v q ∧
      (v = some .capacity ↔ ∃ n ∈ heads s, alloc n = none) := by
  induction hn : s.length using Nat.strongRecOn generalizing s stack with
  | ind n ih =>
    have hrun : (item s).RunWith alloc ⟨.start, s, stack⟩ := item_runWith rfl
    rw [heads]
    split
    · rename_i f rest hit
      rw [hit] at hrun
      obtain ⟨levels, hl⟩ := accept_eq_start f rest stack
      obtain ⟨out, v, q, hends, hv⟩ := ih rest.length (hn ▸ leaf_shorter hit) rest levels rfl
      rw [Item.RunWith, hl] at hrun
      exact ⟨_, v, q, .of_runs hrun hends, hv⟩
    · rename_i rest hit
      rw [hit] at hrun
      obtain ⟨out, v, q, hends, hv⟩ := ih rest.length (hn ▸ blank_shorter hit) rest stack rfl
      exact ⟨_, v, q, .of_runs hrun hends, hv⟩
    · rename_i m rest hit
      rw [hit] at hrun
      cases hw : Level.withCapacity alloc m with
      | none =>
        obtain ⟨q, hq⟩ := hrun.2 hw
        exact ⟨[], some .capacity, q, hq, by simp [withCapacity_none.mp hw]⟩
      | some level =>
        have hm : alloc m ≠ none := fun h => by rw [withCapacity_none.mpr h] at hw; cases hw
        obtain ⟨out, v, q, hends, hv⟩ :=
          ih rest.length (hn ▸ opened_shorter hit) rest (level :: stack) rfl
        exact ⟨_, v, q, .of_runs (hrun.1 level hw) hends, by simp [hv, hm]⟩
    · rename_i hit
      rw [hit] at hrun
      obtain ⟨q, hq⟩ := hrun
      exact ⟨[], none, q, hq, by simp⟩
    · rename_i e hit
      rw [hit] at hrun
      obtain ⟨q, hq⟩ := hrun
      exact ⟨[], some (.parse e), q, hq, by simp⟩

/-- A call that panics is the end of a run over all the bytes. -/
theorem parseAll_none {p : Parser} {chunks : List Bytes} (h : p.parseAll alloc chunks = none) :
    ∃ out q, Ends (machine alloc) (p.feed chunks.flatten) out (some .capacity) q := by
  induction chunks generalizing p with
  | nil => cases h
  | cons chunk chunks ih =>
    have hparsed := parseLoop_parsed alloc (p.feed chunk) []
    rw [List.flatten_cons, ← feed_append]
    rw [parseAll] at h
    cases hp : p.parse alloc chunk with
    | none =>
      rw [show (p.feed chunk).parseLoop alloc [] = none from hp] at hparsed
      obtain ⟨out, q, hq⟩ := hparsed
      exact ⟨out, _, hq.absorb chunks.flatten⟩
    | some pair =>
      obtain ⟨r, q⟩ := pair
      rw [hp] at h
      dsimp only at h
      have hrest : q.parseAll alloc chunks = none := by
        cases hq : q.parseAll alloc chunks with
        | none => rfl
        | some rest => rw [hq] at h; cases h
      obtain ⟨out, u, hu⟩ := ih hrest
      have hends := parse_iff_ends.mp hp
      cases hv : verdict r with
      | none =>
        rw [hv] at hends
        exact ⟨_, u, hends.resume hu⟩
      | some e =>
        -- a parser in the error state never asks for room again
        rw [hv] at hends
        have he := ((hends.halted chunks.flatten).unique hu).2.1
        cases r with
        | complete fs => cases hv
        | partialResult fs e' => cases hv; cases he

theorem verdict_ne_capacity (r : ParseResult) : verdict r ≠ some .capacity := by
  cases r <;> simp [verdict, ParseResult.error]

/-- Calls that all return are a run over all the bytes that ends without a refusal. -/
theorem parseAll_some {p q : Parser} {chunks : List Bytes} {rs : List ParseResult}
    (hne : chunks ≠ []) (h : p.parseAll alloc chunks = some (rs, q)) :
    ∃ out v, v ≠ some .capacity ∧ Ends (machine alloc) (p.feed chunks.flatten) out v q := by
  obtain ⟨c, cs, rfl⟩ := List.exists_cons_of_ne_nil hne
  obtain ⟨last, hlast, hends⟩ := chunk_runs_ends (parseAll_chunk_runs h)
  obtain ⟨r, -, rfl⟩ := List.mem_map.mp (List.mem_of_getLast? hlast)
  exact ⟨_, _, verdict_ne_capacity r, hends⟩

theorem parseAll_returns_iff (chunks : List Bytes) :
    (∃ results p, new.parseAll alloc chunks = some (results, p)) ↔
      ∀ n ∈ heads chunks.flatten, alloc n ≠ none := by
  obtain ⟨out, v, q, hends, hv⟩ := heads_run alloc chunks.flatten []
  have hnot : v ≠ some .capacity ↔ ∀ n ∈ heads chunks.flatten, alloc n ≠ none := by
    rw [ne_eq, hv]
    push Not
    rfl
  rw [← hnot]
  constructor
  · intro hreturns
    obtain ⟨results, p, hp⟩ := hreturns
    by_cases hne : chunks = []
    · subst hne
      rw [hnot, List.flatten_nil, heads_nil]
      exact fun n hn => absurd hn (by simp)
    · obtain ⟨out', v', hv', hends'⟩ := parseAll_some hne hp
      rw [(hends.unique hends').2.1]
      exact hv'
  · intro hcap
    cases hp : new.parseAll alloc chunks with
    | some pair => exact ⟨pair.1, pair.2, rfl⟩
    | none =>
      obtain ⟨out', q', hq'⟩ := parseAll_none hp
      exact absurd (hends.unique hq').2.1 hcap

/-- For an allocator that refuses exactly the requests of more than `isize::MAX` bytes, every
call returns if and only if no array head announces that much. -/
theorem parser_returns_iff (alloc : Allocator) (size : Nat)
    (hrefuse : ∀ n, alloc n = none ↔ Checked.isizeMax < n * size) (chunks : List Bytes)
    (hb : Buffered alloc new chunks) :
    (∃ results p, Checked.parseAll alloc new chunks = some (results, p)) ↔
      ∀ n ∈ heads chunks.flatten, n * size ≤ Checked.isizeMax := by
  rw [Checked.parseAll_eq hb (by simp [new]), parseAll_returns_iff]
  refine forall₂_congr fun n _ => ?_
  rw [ne_eq, hrefuse, Nat.not_lt]

/-- `size_of::<Frame>()`: two variants fill the three words of a string, so the discriminant
takes a word of its own. -/
def frameSize : Nat := 32

/-- An allocator that gives what is asked for, up to `isize::MAX` bytes. -/
def granting : Allocator := fun n => if n * frameSize ≤ Checked.isizeMax then some n else none

theorem granting_refuses (n : Nat) : granting n = none ↔ Checked.isizeMax < n * frameSize := by
  unfold granting
  split
  · simp only [reduceCtorEq, false_iff]
    omega
  · simp only [true_iff]
    omega

/-- A nested array of two heads, cut inside the second. -/
theorem parser_returns_iff_nested :
    ∃ results p, Checked.parseAll granting new
      [asBytes "*2\r\n:1\r\n*", asBytes "1\r\n$0\r\n\r\n"] = some (results, p) :=
  (parser_returns_iff granting frameSize granting_refuses _
    (buffered_of_length (by decide))).mpr (by decide +kernel)

/-- A status reply, already parsed, is lost with the panic of the array head behind it. -/
theorem announced_array_panics :
    ¬ ∀ chunks, ∃ results p, Checked.parseAll granting new chunks = some (results, p) := by
  intro h
  obtain ⟨results, p, hp⟩ := h [asBytes "+OK\r\n*9223372036854775807\r\n"]
  have hnone : Checked.parseAll granting new [asBytes "+OK\r\n*9223372036854775807\r\n"] = none := by
    decide +kernel
  rw [hnone] at hp
  cases hp

end Parser
end Redlike.Resp
