import Mathlib.Algebra.BigOperators.Group.Finset.Basic

/-!
# Systems that come to rest

Some of the steps of a system are its own, and the others are what the world around it
does. A measure that every own step lowers bounds how many of them can follow one another,
so a system that is left alone comes to rest. What holds at rest can then be read off the
steps that are not possible.
-/
namespace Redlike.Lib.Settling

variable {σ α : Type} (step : σ → α → σ → Prop) (own free : α → Prop)

/-- Exactly `n` own steps. -/
inductive Takes : Nat → σ → σ → Prop where
  | zero (x : σ) : Takes 0 x x
  | succ {n : Nat} {x y z : σ} {a : α} (ht : Takes n x y) (ha : own a) (hs : step y a z) :
      Takes (n + 1) x z

/-- Exactly `n` own steps, among others that are free. -/
inductive Among : Nat → σ → σ → Prop where
  | zero (x : σ) : Among 0 x x
  | succ {n : Nat} {x y z : σ} {a : α} (ht : Among n x y) (ha : own a) (hs : step y a z) :
      Among (n + 1) x z
  | free {n : Nat} {x y z : σ} {a : α} (ht : Among n x y) (ha : free a) (hs : step y a z) :
      Among n x z

/-- No own step is possible. -/
def AtRest (x : σ) : Prop := ∀ a y, own a → ¬ step x a y

/-- Where `I` holds, own steps keep it and lower the measure. -/
structure Spends (I : σ → Prop) (work : σ → Nat) : Prop where
  keep : ∀ {x a y}, I x → own a → step x a y → I y
  lower : ∀ {x a y}, I x → own a → step x a y → work y < work x

variable {step own free}

theorem Takes.head {n : Nat} {x y z : σ} {a : α} (ha : own a) (hs : step x a y)
    (ht : Takes step own n y z) : Takes step own (n + 1) x z := by
  induction ht with
  | zero y => exact .succ (.zero x) ha hs
  | succ _ hb hs' ih => exact .succ (ih hs) hb hs'

theorem Takes.among {own' : α → Prop} (h : ∀ a, own' a → own a) {n : Nat} {x y : σ}
    (ht : Takes step own' n x y) : Among step own free n x y := by
  induction ht with
  | zero x => exact .zero x
  | succ _ ha hs ih => exact .succ ih (h _ ha) hs

variable {I : σ → Prop} {work : σ → Nat}

/-- A part of the own steps is paid for as well. -/
theorem Spends.mono {own' : α → Prop} (h : Spends step own I work) (hown : ∀ a, own' a → own a) :
    Spends step own' I work :=
  ⟨fun hx ha hs => h.keep hx (hown _ ha) hs, fun hx ha hs => h.lower hx (hown _ ha) hs⟩

/-- Every own step is paid for. -/
theorem Spends.takes (h : Spends step own I work) {n : Nat} {x y : σ} (hx : I x)
    (ht : Takes step own n x y) : I y ∧ n + work y ≤ work x := by
  induction ht with
  | zero x => exact ⟨hx, by omega⟩
  | succ _ ha hs ih =>
    obtain ⟨hy, hle⟩ := ih hx
    have hlt := h.lower hy ha hs
    exact ⟨h.keep hy ha hs, by omega⟩

/-- Also among steps that are free and cost nothing. -/
theorem Spends.among (h : Spends step own I work)
    (hfree : ∀ {x a y}, I x → free a → step x a y → I y ∧ work y ≤ work x) {n : Nat} {x y : σ}
    (hx : I x) (ht : Among step own free n x y) : I y ∧ n + work y ≤ work x := by
  induction ht with
  | zero x => exact ⟨hx, by omega⟩
  | succ _ ha hs ih =>
    obtain ⟨hy, hle⟩ := ih hx
    have hlt := h.lower hy ha hs
    exact ⟨h.keep hy ha hs, by omega⟩
  | free _ ha hs ih =>
    obtain ⟨hy, hle⟩ := ih hx
    obtain ⟨hz, hcost⟩ := hfree hy ha hs
    exact ⟨hz, by omega⟩

/-- Left alone, the system comes to rest. -/
theorem Spends.settles (h : Spends step own I work) {x : σ} (hx : I x) :
    ∃ n y, Takes step own n x y ∧ AtRest step own y := by
  induction hw : work x using Nat.strongRecOn generalizing x with
  | ind w ih =>
    by_cases hrest : AtRest step own x
    · exact ⟨0, x, .zero x, hrest⟩
    · unfold AtRest at hrest
      push Not at hrest
      obtain ⟨a, y, ha, hs⟩ := hrest
      obtain ⟨n, z, ht, hz⟩ := ih (work y) (hw ▸ h.lower hx ha hs) (h.keep hx ha hs) rfl
      exact ⟨n + 1, z, ht.head ha hs, hz⟩

/-- A measure that is a sum changes with the one share that does. -/
theorem sum_add_eq {ι : Type} [DecidableEq ι] {s : Finset ι} {f g : ι → Nat} {i : ι} (hi : i ∈ s)
    (h : ∀ j, j ≠ i → g j = f j) : ∑ j ∈ s, g j + f i = ∑ j ∈ s, f j + g i := by
  have hrest : ∑ j ∈ s.erase i, g j = ∑ j ∈ s.erase i, f j :=
    Finset.sum_congr rfl fun j hj => h j (Finset.ne_of_mem_erase hj)
  have hf := Finset.add_sum_erase s f hi
  have hg := Finset.add_sum_erase s g hi
  omega

end Redlike.Lib.Settling
