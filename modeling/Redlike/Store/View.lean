import Redlike.Store.Expire
import Redlike.Store.Keys

/-!
# What can be told of a store

A caller learns of a store what its calls answer, now and at any later time. This is
exactly the live entries with their deadlines: two stores that agree on these give the same
answers for ever, panics included, whatever else their maps and heaps hold and however their
sweepers are scheduled; and two stores that do not are told apart by one GET at the right moment.
So an answer of TTL or EXPIRE is a promise about every run to come.
-/
namespace Redlike.Store

open Resp Lib

def Event.isSweep : Event → Bool
  | .pop _ | .remove => true
  | _ => false

/-- A call does the same to stores that look alike, also where it panics. -/
theorem Call.run_alike (now : Instant) (c : Call) {s s' : Store}
    (h : TtlMap.Agree now.val (contents s) (contents s')) :
    (c.run now s).1 = (c.run now s').1 ∧
      TtlMap.Agree now.val (contents (c.run now s).2) (contents (c.run now s').2) := by
  by_cases hr : Ideal.Representable now.val c (contents s)
  · obtain ⟨hreply, hrun⟩ := c.run_ideal now s hr
    obtain ⟨hreply', hrun'⟩ := c.run_ideal now s' (Ideal.representable_agree h.symm hr)
    obtain ⟨hsame, hagree⟩ := Ideal.step_agree h c
    exact ⟨by rw [hreply, hreply', hsame], (hrun.trans hagree).trans hrun'.symm⟩
  · cases c with
    | get _ | set _ _ | del _ | ttl _ => exact absurd trivial hr
    | expire key secs =>
      -- The entry is live in both, and both lose it.
      obtain ⟨hlive, hlim⟩ := Classical.not_imp.mp hr
      obtain ⟨v, hl, he⟩ := isSome_read.mp hlive
      obtain ⟨v', hl', he'⟩ := isSome_read.mp (h key ▸ hlive)
      simp only [run, expire_panics hl he hlim, expire_panics hl' he' hlim]
      refine ⟨trivial, ?_⟩
      show TtlMap.Agree _ (mapContents (s.hashmap.erase key)) (mapContents (s'.hashmap.erase key))
      rw [mapContents_erase, mapContents_erase]
      exact h.remove key

namespace System

variable {x y : System}

/-- A sweep in progress has read the clock before. -/
def Prompt (x : System) : Prop :=
  ∀ now candidates, x.sweep = some (now, candidates) → now ≤ x.clock

theorem Prompt.step (h : x.Prompt) (e : Event) : (x.step e).2.Prompt := by
  cases e with
  | advance t => exact fun now c hs => le_trans (h now c hs) (le_max_left _ _)
  | call c => exact h
  | pop now =>
    simp only [System.step]
    split
    · exact h
    · intro now' c hs
      cases hs
      exact min_le_right _ _
  | remove =>
    simp only [System.step]
    split
    · exact h
    · exact fun _ _ hs => by cases hs

theorem Prompt.run (h : x.Prompt) (es : List Event) : (x.run es).2.Prompt := by
  induction es generalizing x with
  | nil => exact h
  | cons e es ih => exact ih (h.step e)

/-- A system with an idle sweeper, whatever its store holds. -/
theorem prompt_of_idle (t : Instant) (s : Store) : Prompt ⟨t, s, none⟩ :=
  fun _ _ hs => by cases hs

theorem clock_le_step (e : Event) (x : System) : x.clock ≤ (x.step e).2.clock := by
  cases e with
  | advance t => exact le_max_left _ _
  | call c => exact le_refl _
  | pop now => simp only [System.step]; split <;> exact le_refl _
  | remove => simp only [System.step]; split <;> exact le_refl _

theorem clock_le_run (es : List Event) (x : System) : x.clock ≤ (x.run es).2.clock := by
  induction es generalizing x with
  | nil => exact le_refl _
  | cons e es ih => exact le_trans (clock_le_step e x) (ih _)

/-- A phase of the sweeper answers nobody and cannot be seen. -/
theorem Prompt.sweep (h : x.Prompt) {e : Event} (he : e.isSweep = true) :
    (x.step e).1 = [] ∧ (x.step e).2.clock = x.clock ∧
      TtlMap.Agree x.clock.val (contents (x.step e).2.store) (contents x.store) := by
  cases e with
  | advance _ | call _ => cases he
  | pop now =>
    simp only [System.step]
    split
    · exact ⟨rfl, rfl, .refl _ _⟩
    · exact ⟨rfl, rfl, by rw [contents_sweepPop]; exact .refl _ _⟩
  | remove =>
    simp only [System.step]
    split
    · exact ⟨rfl, rfl, .refl _ _⟩
    · rename_i now candidates hs
      exact ⟨rfl, rfl, (sweepRemove_agree now candidates x.store).mono (h now candidates hs)⟩

/-- Nobody can tell the systems apart by what is live. -/
structure Indistinct (x y : System) : Prop where
  clock : x.clock = y.clock
  agree : TtlMap.Agree x.clock.val (contents x.store) (contents y.store)

/-- An event that is no sweep does the same to both. -/
theorem Indistinct.step (h : Indistinct x y) {e : Event} (he : e.isSweep = false) :
    (x.step e).1 = (y.step e).1 ∧ Indistinct (x.step e).2 (y.step e).2 := by
  cases e with
  | pop _ | remove => cases he
  | advance t =>
    exact ⟨rfl, by simp only [System.step, h.clock], h.agree.mono (le_max_left x.clock t)⟩
  | call c =>
    obtain ⟨hreply, hagree⟩ := c.run_alike x.clock h.agree
    simp only [System.step, ← h.clock]
    exact ⟨by rw [hreply], rfl, hagree⟩

theorem Indistinct.run (h : Indistinct x y) (hx : x.Prompt) (es : List Event) :
    (x.run es).1 = (y.run (es.filter (!·.isSweep))).1 ∧
      Indistinct (x.run es).2 (y.run (es.filter (!·.isSweep))).2 := by
  induction es generalizing x y with
  | nil => exact ⟨rfl, h⟩
  | cons e es ih =>
    by_cases he : e.isSweep = true
    · obtain ⟨hnone, hclock, hsame⟩ := hx.sweep he
      rw [List.filter_cons_of_neg (by simp [he])]
      have hstep : Indistinct (x.step e).2 y :=
        ⟨hclock.trans h.clock, by rw [hclock]; exact hsame.trans h.agree⟩
      obtain ⟨hreplies, hrun⟩ := ih hstep (hx.step e)
      exact ⟨by rw [System.run, hnone, hreplies]; rfl, hrun⟩
    · obtain ⟨hreply, hstep⟩ := h.step (Bool.eq_false_iff.mpr he)
      obtain ⟨hreplies, hrun⟩ := ih hstep (hx.step e)
      rw [List.filter_cons_of_pos (by simp [he])]
      exact ⟨by rw [System.run, System.run, hreply, hreplies], hrun⟩

end System

/-! ## Promises -/

/-- The call may change the entry of the key. -/
def Call.Writes (k : Key) : Call → Prop
  | .set key _ | .del key | .expire key _ => key = k
  | .get _ | .ttl _ => False

theorem Call.contents_untouched (now : Instant) {c : Call} {k : Key} (h : ¬ c.Writes k) (s : Store) :
    contents (c.run now s).2 k = contents s k := by
  have hl : (c.run now s).2.hashmap.lookup k = s.hashmap.lookup k := by
    cases c with
    | get _ | ttl _ => rfl
    | set key value | del key | expire key secs =>
      refine (run_other now s ?_).lookup
      exact fun hk => h hk.symm
  simp only [contents, mapContents, hl]

namespace System

variable {x : System} {k : Key}

theorem Prompt.untouched_step (hx : x.Prompt) {e : Event}
    (he : ∀ c, e = .call c → ¬ c.Writes k) :
    (contents (x.step e).2.store).read (x.step e).2.clock.val k =
      (contents x.store).read (x.step e).2.clock.val k := by
  cases e with
  | advance t => rfl
  | call c =>
    unfold TtlMap.read
    rw [show contents (x.step (.call c)).2.store k = contents x.store k from
      c.contents_untouched x.clock (he c rfl) x.store]
  | pop now =>
    obtain ⟨-, hclock, hagree⟩ := hx.sweep (e := .pop now) rfl
    rw [hclock]
    exact hagree k
  | remove =>
    obtain ⟨-, hclock, hagree⟩ := hx.sweep (e := .remove) rfl
    rw [hclock]
    exact hagree k

/-- As long as nobody writes to the key, all that happens to its entry is that it dies. -/
theorem Prompt.untouched_run (hx : x.Prompt) {es : List Event}
    (hes : ∀ c, .call c ∈ es → ¬ c.Writes k) :
    (contents (x.run es).2.store).read (x.run es).2.clock.val k =
      (contents x.store).read (x.run es).2.clock.val k := by
  induction es generalizing x with
  | nil => rfl
  | cons e es ih =>
    have hstep := hx.untouched_step fun c hc => hes c (hc ▸ List.mem_cons_self)
    have hle : (x.step e).2.clock.val ≤ ((x.step e).2.run es).2.clock.val := clock_le_run es _
    show (contents ((x.step e).2.run es).2.store).read ((x.step e).2.run es).2.clock.val k = _
    rw [ih (hx.step e) fun c hc => hes c (List.mem_cons_of_mem _ hc), TtlMap.read_later hle, hstep,
      ← TtlMap.read_later hle]
    rfl

end System

/-- What TTL has said at time `asked`, when a GET would have answered `value`, about a later
time `now`, when GET answers `got` and TTL `later`. -/
structure Promise (n : Int) (asked : Instant) (value : Option Bytes) (now : Instant)
    (got : Option Bytes) (later : Int) : Prop where
  range : -2 ≤ n
  absent : n = -2 → got = none ∧ later = -2
  lasting : n = -1 → got = value ∧ value.isSome = true ∧ later = -1
  live : 0 ≤ n → (now.val : Int) < asked.val + n * nanosPerSec → got = value ∧ value.isSome = true
  dead : 0 ≤ n → (asked.val : Int) + (n + 1) * nanosPerSec ≤ now.val → got = none
  elapsed : 0 ≤ n → later = -2 ∨
    ((n - later - 1) * nanosPerSec < now.val - asked.val ∧
      (now.val - asked.val : Int) < (n - later + 1) * nanosPerSec)

theorem promise_of_read {asked now : Instant} (hle : asked ≤ now)
    {r r' : Option (TtlEntry Bytes Nat)} (hr : ∀ e ∈ r, TtlMap.live asked.val e = true)
    (hr' : r' = r.filter (TtlMap.live now.val)) :
    Promise (Ideal.remaining asked.val r) asked (r.map (·.value)) now (r'.map (·.value))
      (Ideal.remaining now.val r') := by
  have hle : asked.val ≤ now.val := hle
  subst hr'
  rcases r with _ | ⟨v, _ | d⟩
  · simp only [Ideal.remaining, Option.filter_none]
    exact ⟨by omega, by simp, by omega, by omega, by omega, by omega⟩
  · have hlive : TtlMap.live now.val (⟨v, none⟩ : TtlEntry Bytes Nat) = true := rfl
    simp only [Option.filter_some, hlive, if_true, Option.map_some, Ideal.remaining]
    exact ⟨by omega, by omega, by simp, by omega, by omega, by omega⟩
  · have hlive : asked.val < d := of_decide_eq_true (hr _ rfl)
    by_cases hnow : now.val < d
    · have hkept : TtlMap.live now.val (⟨v, some d⟩ : TtlEntry Bytes Nat) = true := decide_eq_true hnow
      simp only [Option.filter_some, hkept, if_true, Option.map_some, Ideal.remaining, nanosPerSec]
      refine ⟨by omega, by omega, by omega, by simp, ?_, ?_⟩
      · simp only [nanosPerSec]
        omega
      · simp only [nanosPerSec]
        omega
    · have hgone : ¬ TtlMap.live now.val (⟨v, some d⟩ : TtlEntry Bytes Nat) = true :=
        fun h => hnow (of_decide_eq_true h)
      simp only [Option.filter_some, hgone, Option.map_some, Ideal.remaining, nanosPerSec]
      refine ⟨by omega, by omega, by omega, ?_, by simp, by simp⟩
      simp only [nanosPerSec]
      omega

/-- From any contents of the store and after any run, and as long as nobody writes to the key,
through any run: an answer of TTL keeps its promise; and a key that an EXPIRE has answered 1 for
is live with its value exactly until its seconds are over. -/
theorem answers_are_promises (t : Instant) (s : Store) (before : List Event) (k : Key)
    (es : List Event) (hes : ∀ c, .call c ∈ es → ¬ c.Writes k) :
    let x := (System.run before ⟨t, s, none⟩).2
    let value := x.store.get x.clock k
    (∀ n, (x.step (.call (.ttl k))).1 = [some (.seconds n)] →
      let y := ((x.step (.call (.ttl k))).2.run es).2
      Promise n x.clock value y.clock (y.store.get y.clock k) (y.store.ttl y.clock k).toInt) ∧
    ∀ secs, (x.step (.call (.expire k secs))).1 = [some (.flag 1)] →
      let y := ((x.step (.call (.expire k secs))).2.run es).2
      value.isSome = true ∧ y.store.get y.clock k =
        if y.clock.val < x.clock.val + secs.toNat * nanosPerSec then value else none := by
  intro x value
  have hx : x.Prompt := (System.prompt_of_idle t s).run before
  constructor
  · intro n hn y
    have hle : x.clock.val ≤ y.clock.val := System.clock_le_run es x
    have hread := hx.untouched_run hes
    have hn : (x.store.ttl x.clock k).toInt = n := by
      simpa [System.step, Call.run] using hn
    rw [← hn, show value = _ from get_eq x.clock k x.store, get_eq, ttl_eq, ttl_eq]
    refine promise_of_read hle (fun e he => (TtlMap.read_eq_some.mp he).2) ?_
    rw [← TtlMap.read_later hle]
    exact hread
  · intro secs hreply y
    have hread : (contents y.store).read y.clock.val k = _ :=
      (hx.step (.call (.expire k secs))).untouched_run hes
    have hflag : (x.store.expire x.clock k secs).1 = some 1 := by
      simpa [System.step, Call.run] using hreply
    cases hr : (contents x.store).read x.clock.val k with
    | none =>
      rw [(expire_absent hr secs).1] at hflag
      cases hflag
    | some e =>
      by_cases hlim : x.clock.val + secs.toNat * nanosPerSec < instantLimit
      · rw [show value = _ from get_eq x.clock k x.store, get_eq, hread, hr]
        show _ ∧ ((contents (x.store.expire x.clock k secs).2).read _ k).map _ = _
        rw [(expire_live hr hlim).2]
        simp only [TtlMap.read, TtlMap.put_self, Option.filter_some, TtlMap.live, decide_eq_true_eq]
        rw [apply_ite (Option.map _)]
        exact ⟨rfl, rfl⟩
      · obtain ⟨v, hl, he⟩ := isSome_read.mp (by rw [hr]; rfl)
        rw [expire_panics hl he hlim] at hflag
        cases hflag

/-- TTL has answered 10 for a key with 10.5 seconds to go. -/
theorem answers_are_promises_ten :
    let before := [.call (.set [1] [7]), .call (.expire [1] 11), .advance ⟨500000000, by decide⟩]
    let es := [.call (.set [2] [8]), .advance ⟨10000000000, by decide⟩, .pop ⟨10000000000, by decide⟩,
      .remove, .call (.get [1])]
    let x := (System.run before ⟨⟨0, by decide⟩, .new, none⟩).2
    let y := ((x.step (.call (.ttl [1]))).2.run es).2
    (x.step (.call (.ttl [1]))).1 = [some (.seconds 10)] ∧ y.store.get y.clock [1] = some [7] := by
  intro before es x y
  have hes : ∀ c, .call c ∈ es → ¬ c.Writes [1] := by
    intro c hc
    simp [es] at hc
    rcases hc with rfl | rfl
    · simp [Call.Writes]
    · simp [Call.Writes]
  have hten : (x.step (.call (.ttl [1]))).1 = [some (.seconds 10)] := by decide
  obtain ⟨hget, -⟩ := ((answers_are_promises ⟨0, by decide⟩ .new before [1] es hes).1 10 hten).live
    (by decide) (by decide)
  exact ⟨hten, hget.trans (by decide)⟩

end Redlike.Store
