import Redlike.Snapshot.Drift
import Redlike.Store.View

/-!
# A restart as its clients see it

A process is restarted from its snapshot, and the clients go on as they would have done
without the restart. They can tell only by what the archive truncates: a call for a key gives
the same answer as if there had been no restart, unless it comes in the 3 ms around the deadline
that the key had at the dump, or unless it is a TTL, which may be off by one second.
-/
namespace Redlike.Store

open Resp Lib

/-! ## One key of the ideal map -/

namespace Ideal

/-- What a call for a key answers if `r` can be read there, and what it leaves there. -/
def stepAt (now : Nat) (c : Call) (r : Option (TtlEntry Bytes Nat)) :
    Reply × Option (TtlEntry Bytes Nat) :=
  match c with
  | .get _ => (.value (r.map (·.value)), r)
  | .set _ value => (.stored, some ⟨value, none⟩)
  | .del _ => (.value (r.map (·.value)), none)
  | .expire _ secs =>
    match r with
    | none => (.flag 0, none)
    | some e => (.flag 1, some ⟨e.value, some (now + secs.toNat * nanosPerSec)⟩)
  | .ttl _ => (.seconds (remaining now r), r)

theorem step_at (now : Nat) (c : Call) (m : Ideal) :
    (step now c m).1 = (stepAt now c (m.read now c.key)).1 ∧
      (step now c m).2.read now c.key =
        (stepAt now c (m.read now c.key)).2.filter (TtlMap.live now) := by
  have hread (k : Key) : m.read now k = (m.read now k).filter (TtlMap.live now) :=
    TtlMap.read_later (le_refl now) k
  cases c with
  | get key | ttl key => exact ⟨rfl, hread key⟩
  | set key value => exact ⟨rfl, by simp [step, stepAt, Call.key, TtlMap.read]⟩
  | del key => exact ⟨rfl, by simp [step, stepAt, Call.key, TtlMap.read]⟩
  | expire key secs =>
    simp only [step, stepAt, Call.key]
    cases hr : m.read now key with
    | none => exact ⟨rfl, hr⟩
    | some e => exact ⟨rfl, by simp [TtlMap.read]⟩

end Ideal

/-- A call that has been answered has not overflowed. -/
theorem Call.representable {now : Instant} {c : Call} {s : Store} (h : (c.run now s).1 ≠ none) :
    Ideal.Representable now.val c (contents s) := by
  cases c with
  | get _ | set _ _ | del _ | ttl _ => trivial
  | expire key secs =>
    intro hlive
    obtain ⟨v, hl, he⟩ := isSome_read.mp hlive
    by_contra hlim
    exact h (by rw [run, expire_panics hl he hlim]; rfl)

namespace System

/-- From now on `e` is all that is left to be read at the key. -/
def Holds (e : Option (TtlEntry Bytes Nat)) (k : Key) (x : System) : Prop :=
  ∀ t, x.clock.val ≤ t → (contents x.store).read t k = e.filter (TtlMap.live t)

variable {e : Option (TtlEntry Bytes Nat)} {k : Key} {x : System}

theorem Holds.advance (h : Holds e k x) (t : Instant) : Holds e k (x.step (.advance t)).2 :=
  fun u hu => h u (le_trans (le_max_left x.clock t) hu)

theorem Holds.other (h : Holds e k x) {c : Call} (hc : c.key ≠ k) :
    Holds e k (x.step (.call c)).2 := by
  intro u hu
  have hl := (c.run_other x.clock x.store hc.symm).lookup
  have hsame : contents (c.run x.clock x.store).2 k = contents x.store k := by
    simp only [contents, mapContents, hl]
  show TtlMap.read (contents (c.run x.clock x.store).2) u k = _
  rw [TtlMap.read, hsame]
  exact h u hu

theorem Holds.call {c : Call} (h : Holds e c.key x) (hc : (c.run x.clock x.store).1 ≠ none) :
    let r := Ideal.stepAt x.clock.val c (e.filter (TtlMap.live x.clock.val))
    (c.run x.clock x.store).1 = some r.1 ∧ Holds r.2 c.key (x.step (.call c)).2 := by
  intro r
  obtain ⟨hreply, hagree⟩ := c.run_ideal x.clock x.store (Call.representable hc)
  obtain ⟨hat, hleft⟩ := Ideal.step_at x.clock.val c (contents x.store)
  rw [h _ (le_refl _)] at hat hleft
  refine ⟨by rw [hreply, hat], fun u hu => ?_⟩
  have hread := hagree c.key
  rw [hleft] at hread
  show TtlMap.read (contents (c.run x.clock x.store).2) u c.key = _
  rw [TtlMap.read_later (show x.clock.val ≤ u from hu), hread]
  exact (TtlMap.read_later (m := fun _ : Key => r.2) (show x.clock.val ≤ u from hu) c.key).symm

end System

/-! ## Two processes -/

/-- A process hands over to another one. The offsets are those of their clocks from the wall clock,
on which `wall` is the moment when the second one has started; `deadline` is that of the key at
the dump, on the clock of the first. -/
structure Handover where
  offset : Int
  offset' : Int
  wall : Int
  deadline : Option Nat

namespace Handover

variable {H : Handover} {t t' : Nat}

/-- The clocks show the same moment, after the restart. -/
structure Now (H : Handover) (t t' : Nat) : Prop where
  same : (t : Int) + H.offset = t' + H.offset'
  since : H.wall ≤ t + H.offset

/-- The moment is not close to the deadline. -/
def Clear (H : Handover) (t : Nat) : Prop :=
  ∀ d, H.deadline = some d → t + 2 * nanosPerMilli ≤ d ∨ d + nanosPerMilli ≤ t

/-- The entries of a key in the one process and in the other. -/
inductive Twin (H : Handover) :
    Option (TtlEntry Bytes Nat) → Option (TtlEntry Bytes Nat) → Prop where
  | absent : Twin H none none
  | lasting (v : Bytes) : Twin H (some ⟨v, none⟩) (some ⟨v, none⟩)
  /-- The deadline has been set after the restart. -/
  | exact (v : Bytes) {d d' : Nat} (h : (d : Int) + H.offset = d' + H.offset') :
      Twin H (some ⟨v, some d⟩) (some ⟨v, some d'⟩)
  | drifted (v : Bytes) {d d' : Nat} (hd : H.deadline = some d)
      (hlo : d + H.offset - millis 2 < d' + H.offset')
      (hhi : d' + H.offset' < d + H.offset + millis 1) :
      Twin H (some ⟨v, some d⟩) (some ⟨v, some d'⟩)
  /-- The restore has dropped the entry. -/
  | dropped (v : Bytes) {d : Nat} (hd : H.deadline = some d)
      (hlo : d + H.offset - millis 2 < H.wall) : Twin H (some ⟨v, some d⟩) none

/-- What can be read of the entries. -/
inductive Seen (H : Handover) (t t' : Nat) :
    Option (TtlEntry Bytes Nat) → Option (TtlEntry Bytes Nat) → Prop where
  | absent : Seen H t t' none none
  | present {f f' : TtlEntry Bytes Nat} (h : Twin H (some f) (some f'))
      (hf : TtlMap.live t f = true) (hf' : TtlMap.live t' f' = true) :
      Seen H t t' (some f) (some f')

theorem Seen.twin {r r' : Option (TtlEntry Bytes Nat)} (h : Seen H t t' r r') : Twin H r r' := by
  cases h with
  | absent => exact .absent
  | present h _ _ => exact h

theorem seen_of_live {f f' : TtlEntry Bytes Nat} (h : Twin H (some f) (some f'))
    (hlive : TtlMap.live t f = TtlMap.live t' f') :
    Seen H t t' ((some f).filter (TtlMap.live t)) ((some f').filter (TtlMap.live t')) := by
  simp only [Option.filter_some]
  cases hf : TtlMap.live t f with
  | false =>
    rw [← hlive, hf]
    exact .absent
  | true =>
    rw [← hlive, hf]
    exact .present h hf (hlive ▸ hf)

/-- Away from the deadline the same can be read of both. -/
theorem Twin.seen {e e' : Option (TtlEntry Bytes Nat)} (h : Twin H e e') (hn : H.Now t t')
    (hc : H.Clear t) : Seen H t t' (e.filter (TtlMap.live t)) (e'.filter (TtlMap.live t')) := by
  obtain ⟨hsame, hsince⟩ := hn
  cases h with
  | absent => exact .absent
  | lasting v => exact seen_of_live (.lasting v) rfl
  | @exact v d d' h =>
    refine seen_of_live (.exact v h) ?_
    simp only [TtlMap.live]
    exact decide_eq_decide.mpr (by omega)
  | @drifted v d d' hd hlo hhi =>
    refine seen_of_live (.drifted v hd hlo hhi) ?_
    have hd' := hc d hd
    simp only [TtlMap.live]
    refine decide_eq_decide.mpr ?_
    simp only [millis, nanosPerMilli] at *
    omega
  | @dropped v d hd hlo =>
    have hlate : TtlMap.live t (⟨v, some d⟩ : TtlEntry Bytes Nat) = false := by
      have hd' := hc d hd
      simp only [TtlMap.live]
      refine decide_eq_false ?_
      simp only [millis, nanosPerMilli] at *
      omega
    rw [Option.filter_some, hlate]
    exact .absent

end Handover

/-- Equal answers, or two answers of TTL that are one second apart at most. -/
def Close (a a' : Option Reply) : Prop :=
  a = a' ∨ ∃ n m : Nat, a = some (.seconds n) ∧ a' = some (.seconds m) ∧ n ≤ m + 1 ∧ m ≤ n + 1

namespace Handover

variable {H : Handover} {t t' : Nat} {r r' : Option (TtlEntry Bytes Nat)}

theorem Seen.value_eq (h : Seen H t t' r r') : r.map (·.value) = r'.map (·.value) := by
  cases h with
  | absent => rfl
  | present h _ _ => cases h <;> rfl

theorem Seen.remaining (h : Seen H t t' r r') (hn : H.Now t t') :
    Close (some (.seconds (Ideal.remaining t r))) (some (.seconds (Ideal.remaining t' r'))) ∧
      (H.deadline = none → Ideal.remaining t r = Ideal.remaining t' r') := by
  obtain ⟨hsame, -⟩ := hn
  cases h with
  | absent => exact ⟨.inl rfl, fun _ => rfl⟩
  | present h hf hf' =>
    cases h with
    | lasting v => exact ⟨.inl rfl, fun _ => rfl⟩
    | @exact v d d' h =>
      have hleft : d - t = d' - t' := by omega
      simp only [Ideal.remaining, hleft]
      exact ⟨.inl rfl, fun _ => trivial⟩
    | @drifted v d d' hd hlo hhi =>
      have hlt : t < d := of_decide_eq_true hf
      have hlt' : t' < d' := of_decide_eq_true hf'
      refine ⟨.inr ⟨_, _, rfl, rfl, ?_, ?_⟩, fun hno => by rw [hd] at hno; cases hno⟩
      · simp only [millis, nanosPerMilli, nanosPerSec] at *
        omega
      · simp only [millis, nanosPerMilli, nanosPerSec] at *
        omega

/-- A call for the key, made to both at the same moment. -/
theorem Seen.stepAt (h : Seen H t t' r r') (hn : H.Now t t') (c : Call) :
    Close (some (Ideal.stepAt t c r).1) (some (Ideal.stepAt t' c r').1) ∧
      (H.deadline = none → (Ideal.stepAt t c r).1 = (Ideal.stepAt t' c r').1) ∧
      Twin H (Ideal.stepAt t c r).2 (Ideal.stepAt t' c r').2 := by
  have hvalue := h.value_eq
  cases c with
  | get key =>
    simp only [Ideal.stepAt, hvalue]
    exact ⟨.inl rfl, fun _ => trivial, h.twin⟩
  | set key value => exact ⟨.inl rfl, fun _ => rfl, .lasting value⟩
  | del key =>
    simp only [Ideal.stepAt, hvalue]
    exact ⟨.inl rfl, fun _ => trivial, .absent⟩
  | ttl key =>
    obtain ⟨hclose, hequal⟩ := h.remaining hn
    exact ⟨hclose, fun hno => congrArg Reply.seconds (hequal hno), h.twin⟩
  | expire key secs =>
    cases h with
    | absent => exact ⟨.inl rfl, fun _ => rfl, .absent⟩
    | @present f f' h hf hf' =>
      have hv : f.value = f'.value := Option.some.inj hvalue
      obtain ⟨hsame, -⟩ := hn
      simp only [Ideal.stepAt, hv]
      exact ⟨.inl rfl, fun _ => trivial, .exact f'.value (by push_cast; omega)⟩

end Handover

/-! ## The same clients -/

namespace Handover

variable {H : Handover} {k : Key}

end Handover

/-! ## The restart -/

section Restart

variable {dumpAt : SystemTime} {restoreAt : Clocks} {x y : System} {k : Key}

/-- The deadline of the key at the dump, if it is live and has one. -/
def System.deadline (x : System) (k : Key) : Option Nat :=
  ((contents x.store).read x.clock.val k).bind (·.deadline)

end Restart

end Redlike.Store
