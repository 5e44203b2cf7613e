import Mathlib.Data.List.Basic

/-!
# Words between separators

The maximal runs of a list without separators, in order. However many separators
stand before, between and behind some words, the words are read back; and what is
read from any list is words.
-/
namespace Redlike.Lib.Words

variable {α : Type} {p : α → Bool}

def words (p : α → Bool) (l : List α) : List (List α) :=
  (l.splitOnP p).filter fun w => !w.isEmpty

/-- A word: it is not empty and has no separator. -/
structure IsWord (p : α → Bool) (w : List α) : Prop where
  ne_nil : w ≠ []
  plain : ∀ a ∈ w, p a = false

/-- Only separators. -/
def IsBlank (p : α → Bool) (l : List α) : Prop := ∀ a ∈ l, p a = true

instance (l : List α) : Decidable (IsBlank p l) := decidable_of_iff (l.all p = true) List.all_eq_true

instance (w : List α) : Decidable (IsWord p w) :=
  decidable_of_iff (w.isEmpty = false ∧ w.all (fun a => !p a) = true) <| by
    rw [List.isEmpty_eq_false_iff, List.all_eq_true]
    constructor
    · intro h
      exact ⟨h.1, fun a ha => by simpa using h.2 a ha⟩
    · intro h
      exact ⟨h.ne_nil, fun a ha => by simpa using h.plain a ha⟩

theorem words_nil : words p [] = [] := rfl

theorem words_blank_append {b : List α} (hb : IsBlank p b) (l : List α) :
    words p (b ++ l) = words p l := by
  induction b with
  | nil => rfl
  | cons a b ih =>
    have ha := hb a (by simp)
    have hb' : IsBlank p b := fun c hc => hb c (by simp [hc])
    rw [List.cons_append, words, List.splitOnP_cons_eq_if_modifyHead, if_pos ha,
      List.filter_cons_of_neg (by simp)]
    exact ih hb'

theorem words_blank {b : List α} (hb : IsBlank p b) : words p b = [] := by
  have h := words_blank_append hb []
  rwa [List.append_nil] at h

theorem words_word {w : List α} (hw : IsWord p w) : words p w = [w] := by
  rw [words, List.splitOnP_eq_singleton hw.plain, List.filter_cons_of_pos (by simp [hw.ne_nil])]
  rfl

/-- A word ends at the first separator. -/
theorem words_append {w b : List α} (hw : IsWord p w) (hb : IsBlank p b) (hne : b ≠ [])
    (l : List α) : words p (w ++ b ++ l) = w :: words p l := by
  obtain ⟨a, b, rfl⟩ := List.exists_cons_of_ne_nil hne
  have ha := hb a (by simp)
  have hb' : IsBlank p b := fun c hc => hb c (by simp [hc])
  rw [List.append_assoc, List.cons_append, words,
    List.splitOnP_append_cons_of_forall_mem hw.plain a ha,
    List.filter_cons_of_pos (by simp [hw.ne_nil])]
  exact congrArg _ (words_blank_append hb' l)

/-- A first word, and further words with what stands before each of them. -/
def spaced (first : List α) (rest : List (List α × List α)) : List α :=
  first ++ rest.flatMap fun e => e.1 ++ e.2

theorem words_spaced {first trail : List α} {rest : List (List α × List α)}
    (hf : IsWord p first)
    (hr : ∀ e ∈ rest, (IsBlank p e.1 ∧ e.1 ≠ []) ∧ IsWord p e.2) (ht : IsBlank p trail) :
    words p (spaced first rest ++ trail) = first :: rest.map Prod.snd := by
  induction rest generalizing first with
  | nil =>
    rw [spaced, List.flatMap_nil, List.append_nil, List.map_nil]
    by_cases hne : trail = []
    · rw [hne, List.append_nil, words_word hf]
    · have h := words_append hf ht hne []
      rwa [List.append_nil, words_nil] at h
  | cons e rest ih =>
    obtain ⟨⟨hb, hne⟩, hw⟩ := hr e (by simp)
    have hcons : spaced first (e :: rest) ++ trail = first ++ e.1 ++ (spaced e.2 rest ++ trail) := by
      simp [spaced]
    rw [hcons, words_append hf hb hne, ih hw fun e' he => hr e' (by simp [he])]
    rfl

theorem flatten_splitOnP (l : List α) : (l.splitOnP p).flatten = l.filter fun a => !p a := by
  induction l with
  | nil => rfl
  | cons a l ih =>
    rw [List.splitOnP_cons_eq_if_modifyHead]
    cases ha : p a with
    | true => simp [ha, ih]
    | false =>
      obtain ⟨w, ws, hw⟩ := List.exists_cons_of_ne_nil (List.splitOnP_ne_nil p l)
      rw [hw, List.flatten_cons] at ih
      simp [ha, hw, ih]

/-- The words together are the list without its separators. -/
theorem flatten_words (l : List α) : (words p l).flatten = l.filter fun a => !p a := by
  rw [words, List.flatten_filter_not_isEmpty, flatten_splitOnP]

theorem isWord_of_mem {l w : List α} (h : w ∈ words p l) : IsWord p w := by
  obtain ⟨-, hne⟩ := List.mem_filter.mp h
  refine ⟨by simpa using hne, ?_⟩
  intro a ha
  have hflat : a ∈ (words p l).flatten := List.mem_flatten.mpr ⟨w, h, ha⟩
  rw [flatten_words, List.mem_filter] at hflat
  simpa using hflat.2

theorem sublist_of_mem {l w : List α} (h : w ∈ words p l) : w.Sublist l := by
  have hflat : w.Sublist (words p l).flatten := List.sublist_flatten_of_mem h
  rw [flatten_words] at hflat
  exact hflat.trans List.filter_sublist

theorem length_words_le (l : List α) : (words p l).length ≤ l.length := by
  have hall : ∀ ws : List (List α), (∀ w ∈ ws, w ≠ []) → ws.length ≤ ws.flatten.length := by
    intro ws hws
    induction ws with
    | nil => exact Nat.le_refl _
    | cons w ws ih =>
      have hw := List.length_pos_iff.mpr (hws w (by simp))
      have hrest := ih fun v hv => hws v (by simp [hv])
      rw [List.length_cons, List.flatten_cons, List.length_append]
      omega
  have h := hall (words p l) fun w hw => (isWord_of_mem hw).ne_nil
  rw [flatten_words] at h
  exact Nat.le_trans h (List.length_filter_le _ _)

end Redlike.Lib.Words
