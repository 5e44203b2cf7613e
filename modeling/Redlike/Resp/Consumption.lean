import Mathlib.Algebra.GroupWithZero.Nat
import Redlike.Resp.History

/-!
# What parsing consumes

Every pass drains bytes or leaves the start state, so the loops end; and every node of a
frame, emitted or still on the stack, is paid for by a byte that has left the buffer. The
marker byte of a frame is drained before its node exists, and a line of tokens is longer
than it has tokens, so the account is in credit in every state and not only between frames.
-/
namespace Redlike.Resp

open Lib.Incremental Grammar

mutual
/-- A frame and everything below it. -/
def Frame.nodes : Frame → Nat
  | .simpleString _ => 1
  | .simpleError _ => 1
  | .bulk _ => 1
  | .integer _ => 1
  | .array none => 1
  | .array (some inner) => Frame.nodesAll inner + 1
def Frame.nodesAll : List Frame → Nat
  | [] => 0
  | f :: rest => Frame.nodes f + Frame.nodesAll rest
end

@[simp] theorem Frame.nodesAll_append (a b : List Frame) :
    Frame.nodesAll (a ++ b) = Frame.nodesAll a + Frame.nodesAll b := by
  induction a with
  | nil => simp [Frame.nodesAll]
  | cons f a ih =>
    rw [List.cons_append, Frame.nodesAll, Frame.nodesAll, ih]
    omega

@[simp] theorem Frame.nodesAll_singleton (f : Frame) : Frame.nodesAll [f] = f.nodes := by
  simp [Frame.nodesAll]

theorem Frame.nodesAll_tokens (ts : List Bytes) :
    Frame.nodesAll (ts.map fun t => .bulk (some t)) = ts.length := by
  induction ts with
  | nil => rfl
  | cons t ts ih =>
    rw [List.map_cons, Frame.nodesAll, Frame.nodes, ih, List.length_cons]
    omega

/-- An open array and the elements it has. -/
def Level.nodes (L : Level) : Nat := Frame.nodesAll L.frames + 1

@[simp] theorem Level.nodes_push (L : Level) (f : Frame) : (L.push f).nodes = L.nodes + f.nodes := by
  simp only [Level.nodes, Level.push, Frame.nodesAll_append, Frame.nodesAll_singleton]
  omega

/-- The start state may hand a line on without draining it; no other state may. -/
def State.rank : State → Nat
  | .start => 1
  | _ => 0

namespace Parser

/-- The open arrays with all they hold. -/
def stackNodes (p : Parser) : Nat := (p.stack.map Level.nodes).sum

variable {p q : Parser}

/-! ## One pass -/

/-- The bytes a pass has drained come from the front and pay for what it has built. -/
def Pass.Pays (p : Parser) : Pass → Prop
  | .again q => q.buf <:+ p.buf ∧ q.stackNodes + q.buf.length ≤ p.stackNodes + p.buf.length
  | .ret (.ok (some f)) q => q.buf <:+ p.buf ∧ f.nodes + q.buf.length ≤ p.buf.length
  | .ret (.ok none) q => q.buf <:+ p.buf
  | .ret (.error _) q => q.buf <:+ p.buf
  | .panicked => True

/-- A line of tokens that ends in LF has more bytes than tokens. -/
theorem Built.nodes_le {f : Frame} {n : Nat} (h : p.Built f n) : f.nodes ≤ n := by
  cases h with
  | @inline pos text _ _ htext =>
    have htokens := (splitWhitespace_length text).1
    rw [asBytes_of_fromUtf8 htext, List.length_take] at htokens
    rw [Frame.nodes, Frame.nodesAll_tokens]
    omega
  | simpleString | simpleError | nilBulk | bulk | integer | nilArray =>
    rw [Frame.nodes]
    omega
  | emptyArray =>
    rw [Frame.nodes, Frame.nodesAll]
    omega

/-- The line end of an array head pays for the level it opens. -/
theorem pass_pays (alloc : Allocator) (p : Parser) : (p.pass alloc).Pays p := by
  have h := passes alloc p
  generalize p.pass alloc = r at h
  cases h with
  | @marked b rest state _ hb _ =>
    refine ⟨hb ▸ List.suffix_cons b rest, ?_⟩
    simp only [stackNodes, hb, List.length_cons]
    omega
  | unmarked => exact ⟨List.suffix_refl _, Nat.le_refl _⟩
  | blank | bulkLength =>
    refine ⟨List.drop_suffix _ _, ?_⟩
    simp only [stackNodes, List.length_drop]
    omega
  | @opened _ _ _ level _ hl _ _ hlevel =>
    have hnodes : level.nodes = 1 := by
      rw [Level.withCapacity, Option.map_eq_some_iff] at hlevel
      obtain ⟨capacity, -, rfl⟩ := hlevel
      rfl
    have hle := hl.le
    refine ⟨List.drop_suffix _ _, ?_⟩
    simp only [stackNodes, List.map_cons, List.sum_cons, hnodes, List.length_drop]
    omega
  | @frame f n hf =>
    have hpaid := hf.nodes_le
    have hle := hf.bounds.2.2
    refine ⟨List.drop_suffix _ _, ?_⟩
    rw [List.length_drop]
    omega
  | waits => exact List.suffix_refl _
  | fails n => exact List.drop_suffix n _
  | panics => trivial

theorem pass_again_pays {alloc : Allocator} (h : p.pass alloc = .again q) :
    q.buf <:+ p.buf ∧ q.stackNodes + q.buf.length ≤ p.stackNodes + p.buf.length := by
  have hpays := pass_pays alloc p
  rwa [h] at hpays

theorem pass_frame_pays {alloc : Allocator} {f : Frame} (h : p.pass alloc = .ret (.ok (some f)) q) :
    q.buf <:+ p.buf ∧ f.nodes + q.buf.length ≤ p.buf.length := by
  have hpays := pass_pays alloc p
  rwa [h] at hpays

theorem pass_error_suffix {alloc : Allocator} {e : ParseError}
    (h : p.pass alloc = .ret (.error e) q) : q.buf <:+ p.buf := by
  have hpays := pass_pays alloc p
  rwa [h] at hpays

/-! ## Histories -/

/-- Closing moves nodes and makes none. -/
theorem closeLoop_nodes (top : Level) (rest : List Level) :
    Frame.nodesAll (closeLoop top rest).2 + ((closeLoop top rest).1.map Level.nodes).sum =
      top.nodes + (rest.map Level.nodes).sum := by
  induction rest generalizing top with
  | nil =>
    rw [closeLoop]
    split
    · simp [Frame.nodes, Level.nodes]
    · simp [Frame.nodesAll]
  | cons next rest ih =>
    rw [closeLoop]
    split
    · rw [ih, Level.nodes_push, Frame.nodes, List.map_cons, List.sum_cons, Level.nodes, Level.nodes]
      omega
    · simp [Frame.nodesAll]

theorem accept_nodes (f : Frame) (p : Parser) :
    Frame.nodesAll (p.accept f).2 + (p.accept f).1.stackNodes = f.nodes + p.stackNodes := by
  unfold accept
  cases hs : p.stack with
  | nil => simp [stackNodes, hs]
  | cons top rest =>
    simp only [stackNodes, hs, List.map_cons, List.sum_cons]
    rw [closeLoop_nodes, Level.nodes_push]
    omega

/-- Between any two passes the buffer is what is left of the bytes fed, and the nodes built
are no more than the bytes that have left it. -/
theorem Reached.consumes {x : History} (hx : Reached x) :
    x.parser.buf <:+ x.fed ∧
      Frame.nodesAll x.emitted + x.parser.stackNodes + x.parser.buf.length ≤ x.fed.length := by
  induction hx with
  | new => exact ⟨List.suffix_refl _, Nat.le_refl _⟩
  | @call x _ _ input ih =>
    obtain ⟨⟨front, hfront⟩, hle⟩ := ih
    refine ⟨⟨front, ?_⟩, ?_⟩
    · rw [← hfront, List.append_assoc]
      rfl
    · simp only [feed, stackNodes, List.length_append] at hle ⊢
      omega
  | @pass x q _ _ hp ih =>
    obtain ⟨hsuffix, hpaid⟩ := pass_again_pays hp
    refine ⟨hsuffix.trans ih.1, ?_⟩
    have := ih.2
    dsimp only
    omega
  | @opened x q _ _ _ _ _ hp ih =>
    obtain ⟨hsuffix, hpaid⟩ := pass_again_pays hp
    refine ⟨hsuffix.trans ih.1, ?_⟩
    have := ih.2
    dsimp only
    omega
  | @frame x q f _ hp ih =>
    obtain ⟨hsuffix, hpaid⟩ := pass_frame_pays hp
    have hnodes := accept_nodes f q
    have hq : q.stackNodes = x.parser.stackNodes := by
      rw [stackNodes, (pass_frame hp).stack, stackNodes]
    refine ⟨?_, ?_⟩
    · rw [accept_buf]
      exact hsuffix.trans ih.1
    · have := ih.2
      dsimp only
      rw [accept_buf, Frame.nodesAll_append]
      omega
  | @failed x q e _ hp ih =>
    obtain ⟨hstack, hlen⟩ := pass_error hp
    refine ⟨(pass_error_suffix hp).trans ih.1, ?_⟩
    have := ih.2
    simp only [setError, stackNodes, hstack] at this ⊢
    omega

/-! ## Loops -/

/-- The buffer is shorter, or it is as long and the state is of smaller rank. -/
def Shrinks (p q : Parser) : Prop :=
  q.buf.length < p.buf.length ∨ q.buf.length = p.buf.length ∧ q.state.rank < p.state.rank

theorem pass_again_shrinks {alloc : Allocator} (h : p.pass alloc = .again q) : p.Shrinks q := by
  have hm := pass_again_measure h
  have hrank (r : Parser) : r.measure = 2 * r.buf.length + r.state.rank := by
    unfold measure
    cases r.state <;> simp [State.rank]
  have hle (s : State) : s.rank ≤ 1 := by
    cases s <;> simp [State.rank]
  have hp := hle p.state
  rw [hrank, hrank] at hm
  unfold Shrinks
  omega

theorem tryLoop_state {alloc : Allocator} {f : Frame}
    (h : p.tryLoop alloc = some (.ok (some f), q)) : q.state = .start := by
  induction p using tryLoop.induct alloc with
  | case1 p r hp ih =>
    rw [tryLoop, hp] at h
    exact ih h
  | case2 p result r hp =>
    rw [tryLoop, hp] at h
    cases h
    exact (pass_frame hp).state
  | case3 p hp =>
    rw [tryLoop, hp] at h
    cases h

/-- A round of the loop of `parse` that goes on has drained something. -/
theorem tryParseOneFrame_drains {alloc : Allocator} {f : Frame}
    (h : p.tryParseOneFrame alloc = some (.ok (some f), q)) :
    (q.accept f).1.buf.length < p.buf.length := by
  have hm := tryParseOneFrame_frame h
  have hq : q.state = .start := by
    unfold tryParseOneFrame at h
    split at h
    · cases h
    · exact tryLoop_state h
  rw [accept_buf]
  unfold measure at hm
  rw [if_pos hq] at hm
  split at hm <;> omega

/-- The loops end for every parser and every chunk: `parse` returns, a pass that goes on
shrinks the parser, and so does a round of `parse`. Whatever the calls, also after an error,
the buffer is a suffix of the bytes fed, and the nodes of the frames emitted and of the open
arrays together are no more than the bytes consumed. -/
theorem parse_consumes_linearly :
    (∀ (p : Parser) (input : Bytes), ∃ r q, p.parse .exact input = some (r, q)) ∧
    (∀ p q : Parser, p.pass .exact = .again q → p.Shrinks q) ∧
    (∀ (p q : Parser) (f : Frame), p.tryParseOneFrame .exact = some (.ok (some f), q) →
      (q.accept f).1.buf.length < p.buf.length) ∧
    (∀ x, Reached x → x.parser.buf <:+ x.fed ∧
      Frame.nodesAll x.emitted + x.parser.stackNodes ≤ x.fed.length - x.parser.buf.length) ∧
    ∀ chunks rs q, new.parseAll .exact chunks = some (rs, q) →
      q.buf <:+ chunks.flatten ∧
      Frame.nodesAll (rs.flatMap ParseResult.frames) + q.stackNodes ≤
        chunks.flatten.length - q.buf.length := by
  refine ⟨parse_exact_returns, fun p q h => pass_again_shrinks h,
    fun p q f h => tryParseOneFrame_drains h, ?_, ?_⟩
  · intro x hx
    obtain ⟨hsuffix, hle⟩ := hx.consumes
    exact ⟨hsuffix, by omega⟩
  · intro chunks rs q h
    obtain ⟨-, announced, hx⟩ := reached_parseAll h
    obtain ⟨hsuffix, hle⟩ := hx.consumes
    dsimp only at hsuffix hle
    exact ⟨hsuffix, by omega⟩

/-- Two inline requests of one letter each: four nodes, and four bytes for them. -/
theorem parse_consumes_linearly_tight :
    ∃ rs q, new.parseAll .exact [asBytes "a\nb", asBytes "\n*"] = some (rs, q) ∧
      Frame.nodesAll (rs.flatMap ParseResult.frames) = 4 ∧
      Frame.nodesAll (rs.flatMap ParseResult.frames) + q.stackNodes ≤ 5 - q.buf.length := by
  have hrun : new.parseAll .exact [asBytes "a\nb", asBytes "\n*"] =
      some ([.complete [.array (some [.bulk (some (asBytes "a"))])],
        .complete [.array (some [.bulk (some (asBytes "b"))])]], ⟨.readingArrayLength, [], []⟩) := by
    decide +kernel
  exact ⟨_, _, hrun, rfl, (parse_consumes_linearly.2.2.2.2 _ _ _ hrun).2⟩

end Parser
end Redlike.Resp
