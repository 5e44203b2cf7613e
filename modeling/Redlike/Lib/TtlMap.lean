import Mathlib.Order.Basic
import Mathlib.Order.Lattice
import Mathlib.Logic.Function.Basic
import Mathlib.Data.Option.Basic

/-!
# Maps whose entries expire

A map from keys to values with optional deadlines, over any key type, value type
and linear time. An entry whose deadline has come does not exist for a reader,
whether or not it is still stored. `Agree now` is the resulting equivalence of
maps: it only becomes weaker as time passes, and every operation that goes
through `read` respects it.
-/
namespace Redlike.Lib

structure TtlEntry (ν τ : Type) where
  value : ν
  deadline : Option τ
  deriving DecidableEq

/-- What is stored, dead entries included. -/
abbrev TtlMap (κ ν τ : Type) := κ → Option (TtlEntry ν τ)

namespace TtlMap

variable {κ ν τ : Type}

section Update

variable [DecidableEq κ]

def put (m : TtlMap κ ν τ) (k : κ) (e : TtlEntry ν τ) : TtlMap κ ν τ := Function.update m k (some e)

def remove (m : TtlMap κ ν τ) (k : κ) : TtlMap κ ν τ := Function.update m k none

@[simp] theorem put_self (m : TtlMap κ ν τ) (k : κ) (e : TtlEntry ν τ) : put m k e k = some e :=
  Function.update_self _ _ _

@[simp] theorem put_other (m : TtlMap κ ν τ) {k j : κ} (e : TtlEntry ν τ) (h : j ≠ k) :
    put m k e j = m j := Function.update_of_ne h _ _

@[simp] theorem remove_self (m : TtlMap κ ν τ) (k : κ) : remove m k k = none :=
  Function.update_self _ _ _

@[simp] theorem remove_other (m : TtlMap κ ν τ) {k j : κ} (h : j ≠ k) : remove m k j = m j :=
  Function.update_of_ne h _ _

theorem put_remove_comm (m : TtlMap κ ν τ) {j k : κ} (e : TtlEntry ν τ) (h : j ≠ k) :
    put (remove m j) k e = remove (put m k e) j := Function.update_comm h _ _ _

theorem remove_comm (m : TtlMap κ ν τ) {j k : κ} (h : j ≠ k) :
    remove (remove m j) k = remove (remove m k) j := Function.update_comm h _ _ _

/-- Everything stored in `m` is stored in `m'`. -/
def Below (m m' : TtlMap κ ν τ) : Prop := ∀ k e, m k = some e → m' k = some e

theorem Below.put {m m' : TtlMap κ ν τ} (h : Below m m') (k : κ) (e : TtlEntry ν τ) :
    Below (TtlMap.put m k e) (TtlMap.put m' k e) := by
  intro j e' hj
  by_cases hk : j = k
  · subst hk
    simpa using hj
  · rw [put_other _ _ hk] at hj ⊢
    exact h j e' hj

theorem Below.remove {m m' : TtlMap κ ν τ} (h : Below m m') (k : κ) :
    Below (TtlMap.remove m k) (TtlMap.remove m' k) := by
  intro j e hj
  by_cases hk : j = k
  · subst hk
    simp at hj
  · rw [remove_other _ hk] at hj ⊢
    exact h j e hj

theorem remove_below (m : TtlMap κ ν τ) (k : κ) : Below (TtlMap.remove m k) m := by
  intro j e hj
  by_cases hk : j = k
  · subst hk
    simp at hj
  · rwa [remove_other _ hk] at hj

end Update

variable [LinearOrder τ]

def live (now : τ) (e : TtlEntry ν τ) : Bool :=
  match e.deadline with
  | none => true
  | some d => decide (now < d)

/-- What a reader sees at time `now`. -/
def read (m : TtlMap κ ν τ) (now : τ) (k : κ) : Option (TtlEntry ν τ) := (m k).filter (live now)

/-- The two maps look the same at time `now`, and so at every later time. -/
def Agree (now : τ) (m m' : TtlMap κ ν τ) : Prop := ∀ k, read m now k = read m' now k

theorem live_mono {now later : τ} (h : now ≤ later) {e : TtlEntry ν τ} (hl : live later e = true) :
    live now e = true := by
  unfold live at hl ⊢
  cases hd : e.deadline with
  | none => rfl
  | some d =>
    rw [hd] at hl
    exact decide_eq_true (lt_of_le_of_lt h (of_decide_eq_true hl))

theorem read_eq_some {m : TtlMap κ ν τ} {now : τ} {k : κ} {e : TtlEntry ν τ} :
    read m now k = some e ↔ m k = some e ∧ live now e = true := by
  unfold read
  rw [Option.filter_eq_some_iff]

theorem read_eq_none {m : TtlMap κ ν τ} {now : τ} {k : κ} :
    read m now k = none ↔ ∀ e, m k = some e → live now e = false := by
  unfold read
  rw [Option.filter_eq_none_iff]
  simp

/-- Reading later is reading now and forgetting what has died since. -/
theorem read_later {m : TtlMap κ ν τ} {now later : τ} (h : now ≤ later) (k : κ) :
    read m later k = (read m now k).filter (live later) := by
  unfold read
  cases hm : m k with
  | none => rfl
  | some e =>
    simp only [Option.filter_some]
    cases hn : live now e with
    | true => rw [if_pos rfl, Option.filter_some]
    | false =>
      have hl : ¬ live later e = true := fun hl => by rw [live_mono h hl] at hn; cases hn
      rw [if_neg hl]
      rfl

theorem Agree.refl (now : τ) (m : TtlMap κ ν τ) : Agree now m m := fun _ => rfl

theorem Agree.symm {now : τ} {m m' : TtlMap κ ν τ} (h : Agree now m m') : Agree now m' m :=
  fun k => (h k).symm

theorem Agree.trans {now : τ} {m m' m'' : TtlMap κ ν τ} (h : Agree now m m')
    (h' : Agree now m' m'') : Agree now m m'' := fun k => (h k).trans (h' k)

theorem Agree.mono {now later : τ} {m m' : TtlMap κ ν τ} (h : Agree now m m')
    (hle : now ≤ later) : Agree later m m' := by
  intro k
  rw [read_later hle, read_later hle, h k]

variable [DecidableEq κ]

theorem Agree.put {now : τ} {m m' : TtlMap κ ν τ} (h : Agree now m m') (k : κ) (e : TtlEntry ν τ) :
    Agree now (put m k e) (put m' k e) := by
  intro j
  by_cases hj : j = k
  · subst hj
    simp [read]
  · have hr := h j
    simpa [read, hj] using hr

theorem Agree.remove {now : τ} {m m' : TtlMap κ ν τ} (h : Agree now m m') (k : κ) :
    Agree now (remove m k) (remove m' k) := by
  intro j
  by_cases hj : j = k
  · subst hj
    simp [read]
  · have hr := h j
    simpa [read, hj] using hr

/-- Forgetting a dead entry is invisible. -/
theorem agree_remove_dead {now : τ} {m : TtlMap κ ν τ} {k : κ} (h : read m now k = none) :
    Agree now (TtlMap.remove m k) m := by
  intro j
  by_cases hj : j = k
  · subst hj
    rw [h]
    simp [read]
  · simp [read, hj]

end TtlMap
end Redlike.Lib
