import Mathlib.Order.Lattice
import Mathlib.Data.List.Basic
import Mathlib.Data.List.Nodup
import Mathlib.Data.List.Pairwise

/-!
# Timed linearizability

Calls of a concurrent object leave a history of invocations and responses, each
stamped with the clock. A linearization runs calls one at a time on a sequential
object, each at a clock value of its own interval, in an order that keeps calls in
sequence where one returned before the other began. A call that never returned may
take part or not. The rules below grow a linearization along a history: an event is
added to the history, or a call is given its place.
-/
namespace Redlike.Lib.Linear

variable {ι κ ρ σ τ : Type}

inductive Event (ι κ ρ τ : Type) where
  | invoke (id : ι) (call : κ) (time : τ)
  | respond (id : ι) (reply : ρ) (time : τ)

def Event.time : Event ι κ ρ τ → τ
  | invoke _ _ t => t
  | respond _ _ t => t

def Event.id : Event ι κ ρ τ → ι
  | invoke i _ _ => i
  | respond i _ _ => i

/-- The place of a call in the sequential run. -/
structure Point (ι κ τ : Type) where
  id : ι
  call : κ
  time : τ

section Sequential

variable (step : τ → κ → σ → ρ × σ)

def final : List (Point ι κ τ) → σ → σ
  | [], m => m
  | p :: ps, m => final ps (step p.time p.call m).2

def replies : List (Point ι κ τ) → σ → List (ι × ρ)
  | [], _ => []
  | p :: ps, m => (p.id, (step p.time p.call m).1) :: replies ps (step p.time p.call m).2

theorem final_append (L L' : List (Point ι κ τ)) (m : σ) :
    final step (L ++ L') m = final step L' (final step L m) := by
  induction L generalizing m with
  | nil => rfl
  | cons p L ih => exact ih _

theorem replies_append (L L' : List (Point ι κ τ)) (m : σ) :
    replies step (L ++ L') m = replies step L m ++ replies step L' (final step L m) := by
  induction L generalizing m with
  | nil => rfl
  | cons p L ih => simp only [List.cons_append, replies, ih, final]

theorem replies_insert {L₁ L₂ : List (Point ι κ τ)} {p : Point ι κ τ} {m : σ}
    (hsame : replies step L₂ (step p.time p.call (final step L₁ m)).2 =
      replies step L₂ (final step L₁ m)) {ir : ι × ρ} (h : ir ∈ replies step (L₁ ++ L₂) m) :
    ir ∈ replies step (L₁ ++ p :: L₂) m := by
  rw [replies_append] at h ⊢
  rw [replies, hsame]
  exact List.perm_middle.mem_iff.mpr (List.mem_cons_of_mem _ h)

theorem replies_ids (L : List (Point ι κ τ)) (m : σ) :
    (replies step L m).map Prod.fst = L.map Point.id := by
  induction L generalizing m with
  | nil => rfl
  | cons p L ih => simp only [replies, List.map_cons, ih]

variable {step} in
theorem mem_ids_of_reply {L : List (Point ι κ τ)} {m : σ} {i : ι} {r : ρ}
    (h : (i, r) ∈ replies step L m) : i ∈ L.map Point.id := by
  rw [← replies_ids step L m]
  exact List.mem_map_of_mem h

theorem reply_unique {L : List (Point ι κ τ)} {m : σ} (hn : (L.map Point.id).Nodup) {i : ι}
    {r r' : ρ} (h : (i, r) ∈ replies step L m) (h' : (i, r') ∈ replies step L m) : r = r' := by
  rw [← replies_ids step L m] at hn
  exact (Prod.mk.inj (List.inj_on_of_nodup_map hn h h' rfl)).2

end Sequential

/-- `i` returned before `j` was called. -/
def Precedes (h : List (Event ι κ ρ τ)) (i j : ι) : Prop :=
  ∃ r t c t', [.respond i r t, .invoke j c t'].Sublist h

theorem Precedes.responded {h : List (Event ι κ ρ τ)} {i j : ι} (hp : Precedes h i j) :
    ∃ r t, .respond i r t ∈ h := by
  obtain ⟨r, t, c, t', hs⟩ := hp
  exact ⟨r, t, hs.subset (by simp)⟩

/-- A new invocation comes after every response, and a new response before none. -/
theorem precedes_append {h : List (Event ι κ ρ τ)} {e : Event ι κ ρ τ} {i j : ι}
    (hp : Precedes (h ++ [e]) i j) : Precedes h i j ∨ ∃ c t, e = .invoke j c t := by
  obtain ⟨r, t, c, t', hs⟩ := hp
  obtain ⟨l₁, l₂, hl, h₁, h₂⟩ := List.sublist_append_iff.mp hs
  rcases List.sublist_singleton.mp h₂ with rfl | rfl
  · exact .inl ⟨r, t, c, t', by rwa [hl, List.append_nil]⟩
  · have hl : [Event.respond i r t] ++ [.invoke j c t'] = l₁ ++ [e] := hl
    obtain ⟨-, he⟩ := List.append_inj' hl rfl
    exact .inr ⟨c, t', (List.cons.inj he).1.symm⟩

variable [LinearOrder τ]

/-- The calls that returned, and perhaps some that did not, have places: one each, in an
order and at times that the history allows. -/
structure Schedules (h : List (Event ι κ ρ τ)) (L : List (Point ι κ τ)) : Prop where
  nodup : (L.map Point.id).Nodup
  sorted : L.Pairwise fun p q => p.time ≤ q.time
  ordered : L.Pairwise fun p q => ¬ Precedes h q.id p.id
  invoked : ∀ p ∈ L, ∃ t ≤ p.time, .invoke p.id p.call t ∈ h
  answered : ∀ i r t, .respond i r t ∈ h →
    i ∈ L.map Point.id ∧ ∀ p ∈ L, p.id = i → p.time ≤ t

/-- The places also explain the replies, when the calls run one at a time from `init`. -/
structure Linearizes (step : τ → κ → σ → ρ × σ) (init : σ) (h : List (Event ι κ ρ τ))
    (L : List (Point ι κ τ)) : Prop extends Schedules h L where
  replied : ∀ i r t, .respond i r t ∈ h → (i, r) ∈ replies step L init

def Linearizable (step : τ → κ → σ → ρ × σ) (init : σ) (h : List (Event ι κ ρ τ)) : Prop :=
  ∃ L : List (Point ι κ τ), Linearizes step init h L

section Schedules

variable {h : List (Event ι κ ρ τ)} {L : List (Point ι κ τ)}

theorem schedules_nil : Schedules (ι := ι) (κ := κ) (ρ := ρ) (τ := τ) [] [] where
  nodup := .nil
  sorted := .nil
  ordered := .nil
  invoked := by simp
  answered := by simp

theorem Schedules.invoke (hl : Schedules h L) {i : ι} (hi : i ∉ L.map Point.id)
    (c : κ) (t : τ) : Schedules (h ++ [.invoke i c t]) L where
  nodup := hl.nodup
  sorted := hl.sorted
  ordered := by
    apply List.Pairwise.imp_of_mem _ hl.ordered
    intro p q hp hq hn hpre
    rcases precedes_append hpre with hpre | ⟨c', t', he⟩
    · exact hn hpre
    · obtain ⟨rfl, -, -⟩ := Event.invoke.inj he
      exact hi (List.mem_map_of_mem hp)
  invoked p hp := by
    obtain ⟨t', hle, hm⟩ := hl.invoked p hp
    exact ⟨t', hle, List.mem_append_left _ hm⟩
  answered j r t' hm := by
    apply hl.answered j r t'
    simpa using hm

theorem Schedules.respond (hl : Schedules h L) {i : ι} (hi : i ∈ L.map Point.id) {t : τ}
    (ht : ∀ p ∈ L, p.time ≤ t) (r : ρ) : Schedules (h ++ [.respond i r t]) L where
  nodup := hl.nodup
  sorted := hl.sorted
  ordered := by
    apply hl.ordered.imp
    intro p q hn hpre
    rcases precedes_append hpre with hpre | ⟨c', t', he⟩
    · exact hn hpre
    · cases he
  invoked p hp := by
    obtain ⟨t', hle, hm⟩ := hl.invoked p hp
    exact ⟨t', hle, List.mem_append_left _ hm⟩
  answered j r' t' hm := by
    rcases List.mem_append.mp hm with hm | hm
    · exact hl.answered j r' t' hm
    · obtain ⟨rfl, rfl, rfl⟩ := Event.respond.inj (List.mem_singleton.mp hm)
      exact ⟨hi, fun p hp _ => ht p hp⟩

/-- The places before a moment, and those from it on. -/
theorem Schedules.split (hl : Schedules h L) (t : τ) :
    ∃ L₁ L₂, L = L₁ ++ L₂ ∧ (∀ p ∈ L₁, p.time < t) ∧ ∀ p ∈ L₂, t ≤ p.time := by
  have hs := hl.sorted
  clear hl
  induction L with
  | nil => exact ⟨[], [], rfl, by simp, by simp⟩
  | cons p L ih =>
    obtain ⟨hp, hs⟩ := List.pairwise_cons.mp hs
    by_cases hlt : p.time < t
    · obtain ⟨L₁, L₂, rfl, h₁, h₂⟩ := ih hs
      exact ⟨p :: L₁, L₂, rfl, by simpa using ⟨hlt, h₁⟩, h₂⟩
    · have hle := le_of_not_gt hlt
      exact ⟨[], p :: L, rfl, by simp, by simpa using ⟨hle, fun q hq => le_trans hle (hp q hq)⟩⟩

/-- A call that has not returned is given a place. -/
theorem Schedules.insert {L₁ L₂ : List (Point ι κ τ)} (hl : Schedules h (L₁ ++ L₂))
    {p : Point ι κ τ} (hnew : p.id ∉ (L₁ ++ L₂).map Point.id)
    (hinv : ∃ t ≤ p.time, .invoke p.id p.call t ∈ h) (hopen : ∀ r t, .respond p.id r t ∉ h)
    (h₁ : ∀ q ∈ L₁, q.time ≤ p.time) (h₂ : ∀ q ∈ L₂, p.time ≤ q.time)
    (hlate : ∀ q ∈ L₂, ¬ Precedes h q.id p.id) : Schedules h (L₁ ++ p :: L₂) where
  nodup := by
    rw [List.map_append, List.map_cons]
    rw [List.map_append] at hnew
    exact List.nodup_middle.mpr (List.nodup_cons.mpr ⟨hnew, by rw [← List.map_append]; exact hl.nodup⟩)
  sorted := by
    obtain ⟨s₁, s₂, s₃⟩ := List.pairwise_append.mp hl.sorted
    refine List.pairwise_append.mpr ⟨s₁, List.pairwise_cons.mpr ⟨h₂, s₂⟩, ?_⟩
    intro a ha b hb
    rcases List.mem_cons.mp hb with rfl | hb
    · exact h₁ a ha
    · exact s₃ a ha b hb
  ordered := by
    obtain ⟨s₁, s₂, s₃⟩ := List.pairwise_append.mp hl.ordered
    refine List.pairwise_append.mpr ⟨s₁, List.pairwise_cons.mpr ⟨hlate, s₂⟩, ?_⟩
    intro a ha b hb
    rcases List.mem_cons.mp hb with rfl | hb
    · intro hpre
      obtain ⟨r, t, hm⟩ := hpre.responded
      exact hopen r t hm
    · exact s₃ a ha b hb
  invoked q hq := by
    rcases List.mem_cons.mp (List.perm_middle.mem_iff.mp hq) with rfl | hq
    · exact hinv
    · exact hl.invoked q hq
  answered i r t hm := by
    obtain ⟨hi, ht⟩ := hl.answered i r t hm
    constructor
    · obtain ⟨q, hq, rfl⟩ := List.mem_map.mp hi
      exact List.mem_map_of_mem (List.perm_middle.mem_iff.mpr (List.mem_cons_of_mem _ hq))
    · intro q hq hid
      rcases List.mem_cons.mp (List.perm_middle.mem_iff.mp hq) with rfl | hq
      · subst hid
        exact absurd hm (hopen r t)
      · exact ht q hq hid

/-- A call that has not returned is given the last place. -/
theorem Schedules.append (hl : Schedules h L) {p : Point ι κ τ}
    (hnew : p.id ∉ L.map Point.id) (hinv : ∃ t ≤ p.time, .invoke p.id p.call t ∈ h)
    (hopen : ∀ r t, .respond p.id r t ∉ h) (hlast : ∀ q ∈ L, q.time ≤ p.time) :
    Schedules h (L ++ [p]) := by
  have hl' : Schedules h (L ++ []) := by rwa [List.append_nil]
  exact hl'.insert (by rwa [List.append_nil]) hinv hopen hlast (by simp) (by simp)

/-- A call whose place is later than every invocation of `i` did not return before `i` began. -/
theorem Schedules.not_precedes (hl : Schedules h L)
    (hclock : h.Pairwise fun e e' => e.time ≤ e'.time) {p : Point ι κ τ} (hp : p ∈ L) {i : ι}
    (hi : ∀ c t, .invoke i c t ∈ h → t < p.time) : ¬ Precedes h p.id i := by
  rintro ⟨r, t, c, t', hs⟩
  have hle : t ≤ t' := (List.pairwise_cons.mp (hclock.sublist hs)).1 (.invoke i c t') (by simp)
  have hlt := hi c t' (hs.subset (by simp))
  have ht := (hl.answered p.id r t (hs.subset (by simp))).2 p hp rfl
  exact absurd (lt_of_lt_of_le hlt (le_trans ht hle)) (lt_irrefl _)

end Schedules

variable {step : τ → κ → σ → ρ × σ} {init : σ} {h : List (Event ι κ ρ τ)} {L : List (Point ι κ τ)}

theorem linearizes_nil : Linearizes (ι := ι) step init [] [] where
  toSchedules := schedules_nil
  replied := by simp

theorem Linearizes.invoke (hl : Linearizes step init h L) {i : ι} (hi : i ∉ L.map Point.id)
    (c : κ) (t : τ) : Linearizes step init (h ++ [.invoke i c t]) L where
  toSchedules := hl.toSchedules.invoke hi c t
  replied j r t' hm := hl.replied j r t' (by simpa using hm)

theorem Linearizes.respond (hl : Linearizes step init h L) {i : ι} {r : ρ} {t : τ}
    (hr : (i, r) ∈ replies step L init) (ht : ∀ p ∈ L, p.time ≤ t) :
    Linearizes step init (h ++ [.respond i r t]) L where
  toSchedules := hl.toSchedules.respond (mem_ids_of_reply hr) ht r
  replied j r' t' hm := by
    rcases List.mem_append.mp hm with hm | hm
    · exact hl.replied j r' t' hm
    · obtain ⟨rfl, rfl, rfl⟩ := Event.respond.inj (List.mem_singleton.mp hm)
      exact hr

/-- The new place may be one that no later call notices. -/
theorem Linearizes.insert {L₁ L₂ : List (Point ι κ τ)} (hl : Linearizes step init h (L₁ ++ L₂))
    {p : Point ι κ τ} (hs : Schedules h (L₁ ++ p :: L₂))
    (hsame : replies step L₂ (step p.time p.call (final step L₁ init)).2 =
      replies step L₂ (final step L₁ init)) : Linearizes step init h (L₁ ++ p :: L₂) where
  toSchedules := hs
  replied i r t hm := replies_insert step hsame (hl.replied i r t hm)

/-- The last place is one that no other call notices. -/
theorem Linearizes.append (hl : Linearizes step init h L) {p : Point ι κ τ}
    (hs : Schedules h (L ++ [p])) : Linearizes step init h (L ++ [p]) where
  toSchedules := hs
  replied i r t hm := by
    rw [replies_append]
    exact List.mem_append_left _ (hl.replied i r t hm)

end Redlike.Lib.Linear
