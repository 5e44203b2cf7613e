import Mathlib.Data.List.Basic

/-!
# Resumable machines

A resumable machine keeps its unread input inside its state. `feed` appends
input, `step` either waits for more, advances with some output, or halts with a
fault. The two `_feed` fields say that a step already possible is not changed by
input that arrives later; from them alone follows that the cutting of the input
into pieces is invisible (`chunk_runs_ends`).
-/
namespace Redlike.Lib.Incremental

/-- What one step of a machine does. -/
inductive Step (σ ο ε : Type) where
  | wait
  | advance (next : σ) (out : List ο)
  | halt (fault : ε) (last : σ)

structure Machine (σ ι ο ε : Type) where
  feed : σ → List ι → σ
  step : σ → Step σ ο ε
  feed_nil : ∀ s, feed s [] = s
  feed_append : ∀ s a b, feed (feed s a) b = feed s (a ++ b)
  advance_feed : ∀ {s t out} (a : List ι), step s = .advance t out →
    step (feed s a) = .advance (feed t a) out
  halt_feed : ∀ {s t e} (a : List ι), step s = .halt e t → step (feed s a) = .halt e (feed t a)
  halt_sticky : ∀ {s t e}, step s = .halt e t → step t = .halt e t

variable {σ ι ο ε : Type} {M : Machine σ ι ο ε}

/-- Finitely many advancing steps, with their output in order. -/
inductive Runs (M : Machine σ ι ο ε) : σ → List ο → σ → Prop where
  | refl (s : σ) : Runs M s [] s
  | cons {s t u : σ} {out rest : List ο} (head : M.step s = .advance t out)
      (tail : Runs M t rest u) : Runs M s (out ++ rest) u

/-- A machine stops where it waits (`none`) or where it halts with a fault. -/
def Stops (M : Machine σ ι ο ε) (s : σ) : Option ε → σ → Prop
  | none, t => M.step s = .wait ∧ t = s
  | some e, t => M.step s = .halt e t

/-- A maximal run: advance while possible, then stop. -/
def Ends (M : Machine σ ι ο ε) (s : σ) (out : List ο) (verdict : Option ε) (t : σ) : Prop :=
  ∃ u, Runs M s out u ∧ Stops M u verdict t

theorem Runs.single {s t : σ} {out : List ο} (h : M.step s = .advance t out) :
    Runs M s out t := by
  have hr := Runs.cons h (Runs.refl t)
  rwa [List.append_nil] at hr

theorem Runs.trans {s t u : σ} {a b : List ο} (hl : Runs M s a t) (hr : Runs M t b u) :
    Runs M s (a ++ b) u := by
  induction hl with
  | refl => exact hr
  | cons head tail ih =>
    rw [List.append_assoc]
    exact .cons head (ih hr)

/-- Steps already possible stay possible, and stay the same, under more input. -/
theorem Runs.feed {s t : σ} {out : List ο} (h : Runs M s out t) (a : List ι) :
    Runs M (M.feed s a) out (M.feed t a) := by
  induction h with
  | refl => exact .refl _
  | cons head tail ih => exact .cons (M.advance_feed a head) ih

theorem Ends.of_runs {s t u : σ} {a b : List ο} {r : Option ε}
    (hr : Runs M s a t) (he : Ends M t b r u) : Ends M s (a ++ b) r u := by
  obtain ⟨v, hv, hs⟩ := he
  exact ⟨v, hr.trans hv, hs⟩

theorem Ends.of_wait {s : σ} (h : M.step s = .wait) : Ends M s [] none s := ⟨s, .refl s, h, rfl⟩

theorem Ends.of_halt {s t : σ} {e : ε} (h : M.step s = .halt e t) : Ends M s [] (some e) t :=
  ⟨s, .refl s, h⟩

section Invariant

variable {I : σ → Prop} {P : ο → Prop}
  (advance : ∀ {s t out}, I s → M.step s = .advance t out → I t ∧ ∀ o ∈ out, P o)
  (halt : ∀ {s t e}, I s → M.step s = .halt e t → I t)

include advance

/-- What every step keeps, and promises of its output, a run keeps and promises. -/
theorem Runs.keeps {s t : σ} {out : List ο} (h : Runs M s out t) (hs : I s) :
    I t ∧ ∀ o ∈ out, P o := by
  induction h with
  | refl s => exact ⟨hs, by simp⟩
  | cons head _ ih =>
    obtain ⟨ht, hout⟩ := advance hs head
    obtain ⟨hu, hrest⟩ := ih ht
    exact ⟨hu, List.forall_mem_append.mpr ⟨hout, hrest⟩⟩

include halt

theorem Ends.keeps {s t : σ} {out : List ο} {r : Option ε} (h : Ends M s out r t) (hs : I s) :
    I t ∧ ∀ o ∈ out, P o := by
  obtain ⟨u, hr, hstop⟩ := h
  obtain ⟨hu, hout⟩ := hr.keeps advance hs
  cases r with
  | none => exact ⟨hstop.2 ▸ hu, hout⟩
  | some e => exact ⟨halt hu hstop, hout⟩

end Invariant

private theorem stops_not_advance {s t u : σ} {r : Option ε} {out : List ο}
    (h : Stops M s r t) (ha : M.step s = .advance u out) : False := by
  cases r with
  | none => rw [h.1] at ha; cases ha
  | some e => rw [show M.step s = .halt e t from h] at ha; cases ha

/-- A machine is deterministic: output, verdict and last state are functions of
the state it starts in. -/
theorem Ends.unique {s t u : σ} {a b : List ο} {r q : Option ε}
    (hl : Ends M s a r t) (hr : Ends M s b q u) : a = b ∧ r = q ∧ t = u := by
  obtain ⟨v, hv, hs⟩ := hl
  obtain ⟨w, hw, hs'⟩ := hr
  induction hv generalizing b with
  | refl s =>
    cases hw with
    | refl =>
      cases r <;> cases q
      · exact ⟨rfl, rfl, hs.2.trans hs'.2.symm⟩
      · exact absurd (hs.1.symm.trans hs') (by simp)
      · exact absurd (hs'.1.symm.trans hs) (by simp)
      · have he := hs.symm.trans hs'
        injection he with h1 h2
        exact ⟨rfl, congrArg some h1, h2⟩
    | cons head _ => exact (stops_not_advance hs head).elim
  | cons head _ ih =>
    cases hw with
    | refl => exact (stops_not_advance hs' head).elim
    | cons head' tail' =>
      have he := head.symm.trans head'
      injection he with h1 h2
      subst h1 h2
      obtain ⟨h, hrest⟩ := ih hs tail'
      exact ⟨by rw [h], hrest⟩

/-- A waiting machine that gets more input continues the same run. -/
theorem Ends.resume {s t u : σ} {a b : List ο} {r : Option ε} {i : List ι}
    (hl : Ends M s a none t) (hr : Ends M (M.feed t i) b r u) :
    Ends M (M.feed s i) (a ++ b) r u := by
  obtain ⟨v, hv, _, rfl⟩ := hl
  exact .of_runs (hv.feed i) hr

/-- A halted machine only stores what it is fed. -/
theorem Ends.absorb {s t : σ} {a : List ο} {e : ε} (i : List ι) (h : Ends M s a (some e) t) :
    Ends M (M.feed s i) a (some e) (M.feed t i) := by
  obtain ⟨v, hv, hs⟩ := h
  exact ⟨M.feed v i, hv.feed i, M.halt_feed i hs⟩

theorem Ends.halted {s t : σ} {a : List ο} {e : ε} (i : List ι) (h : Ends M s a (some e) t) :
    Ends M (M.feed t i) [] (some e) (M.feed t i) := by
  obtain ⟨v, _, hs⟩ := h
  exact .of_halt (M.halt_feed i (M.halt_sticky hs))

/-- Feed the pieces one after another, running the machine to its stop after
each; one output and one verdict a piece. -/
inductive ChunkRuns (M : Machine σ ι ο ε) :
    σ → List (List ι) → List (List ο × Option ε) → σ → Prop where
  | nil (s : σ) : ChunkRuns M s [] [] s
  | cons {s t u : σ} {c : List ι} {cs : List (List ι)} {out : List ο} {r : Option ε}
      {rest : List (List ο × Option ε)}
      (head : Ends M (M.feed s c) out r t) (tail : ChunkRuns M t cs rest u) :
      ChunkRuns M s (c :: cs) ((out, r) :: rest) u

/-- The run over the pieces is the run over their concatenation. -/
theorem chunk_runs_ends {s t : σ} {c : List ι} {cs : List (List ι)}
    {rs : List (List ο × Option ε)} (h : ChunkRuns M s (c :: cs) rs t) :
    ∃ r, rs.getLast? = some r ∧
      Ends M (M.feed s (c :: cs).flatten) (rs.flatMap Prod.fst) r.2 t := by
  induction cs generalizing s c rs with
  | nil =>
    cases h with
    | cons head tail =>
      cases tail with
      | nil => exact ⟨_, rfl, by simpa using head⟩
  | cons c' cs ih =>
    cases h with
    | @cons _ mid _ _ _ out r rest head tail =>
      obtain ⟨q, hq, he⟩ := ih tail
      have hne : rest ≠ [] := by rintro rfl; simp at hq
      refine ⟨q, by rw [List.getLast?_cons, hq]; rfl, ?_⟩
      rw [List.flatten_cons, ← M.feed_append, List.flatMap_cons]
      cases r with
      | none => exact head.resume he
      | some e =>
        -- after a fault the later pieces add nothing, so the run of the rest is known
        obtain ⟨ho, hr, ht⟩ := he.unique (head.halted _)
        rw [ho, hr, ht, List.append_nil]
        exact head.absorb _

theorem chunk_runs_stuck {s t : σ} {cs : List (List ι)} {rs : List (List ο × Option ε)} {e : ε}
    (hs : M.step s = .halt e s) (h : ChunkRuns M s cs rs t) {j : Nat} (hj : j < rs.length) :
    rs[j]? = some ([], some e) := by
  induction h generalizing j with
  | nil => simp at hj
  | @cons s _ _ c _ _ _ _ head tail ih =>
    have hstop : M.step (M.feed s c) = .halt e (M.feed s c) := M.halt_feed c hs
    obtain ⟨rfl, rfl, rfl⟩ := head.unique (.of_halt hstop)
    cases j with
    | zero => rfl
    | succ j => simpa using ih hstop (by simpa using hj)

/-- After the first fault every later piece yields no output and the same fault. -/
theorem chunk_runs_faulted {s t : σ} {cs : List (List ι)} {rs : List (List ο × Option ε)}
    (h : ChunkRuns M s cs rs t) {i j : Nat} {out : List ο} {e : ε} (hij : i < j)
    (hi : rs[i]? = some (out, some e)) (hj : j < rs.length) : rs[j]? = some ([], some e) := by
  induction h generalizing i j with
  | nil => simp at hi
  | cons head tail ih =>
    obtain ⟨j, rfl⟩ : ∃ k, j = k+1 := ⟨j-1, by omega⟩
    have hj' := Nat.lt_of_succ_lt_succ hj
    cases i with
    | zero =>
      simp only [List.getElem?_cons_zero, Option.some.injEq, Prod.mk.injEq] at hi
      obtain ⟨rfl, rfl⟩ := hi
      obtain ⟨v, _, hs⟩ := head
      exact chunk_runs_stuck (M.halt_sticky hs) tail hj'
    | succ i => exact ih (Nat.lt_of_succ_lt_succ hij) hi hj'

/-- Pieces the last of which ends in a wait met no fault. -/
theorem chunk_runs_unfaulted {s t : σ} {cs : List (List ι)} {rs : List (List ο × Option ε)}
    (h : ChunkRuns M s cs rs t) {r : List ο × Option ε} (hlast : rs.getLast? = some r)
    (hr : r.2 = none) : ∀ x ∈ rs, x.2 = none := by
  intro x hx
  obtain ⟨i, hi⟩ := List.mem_iff_getElem?.mp hx
  have hlt : i < rs.length := (List.getElem?_eq_some_iff.mp hi).1
  rw [List.getLast?_eq_getElem?] at hlast
  cases he : x.2 with
  | none => rfl
  | some e =>
    have hx : x = (x.1, some e) := Prod.ext rfl he
    rw [hx] at hi
    by_cases hend : i = rs.length - 1
    · rw [← hend, hi] at hlast
      cases hlast
      cases hr
    · have hfault := chunk_runs_faulted h (i := i) (j := rs.length - 1) (by omega) hi (by omega)
      rw [hfault] at hlast
      cases hlast
      cases hr

end Redlike.Lib.Incremental
