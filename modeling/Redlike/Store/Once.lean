import Redlike.Store.Serial
import Redlike.Store.Keys

/-!
# A value is taken once

Callers may share out work by deleting keys: whoever gets the value of a key from a DEL has
it for himself. In any run, with any number of callers, each DEL that answers a value has it
from a SET of its own, or is the one that has taken what was there at first. The invariant
names the SET that the present entry comes from; an EXPIRE hands the entry on, and a sweep or
an EXPIRE that panics only drops it.
-/
namespace Redlike.Store

open Resp Lib

section Once

variable {ι : Type} (k : Key) (s₀ : Store)

/-- The DEL `i` has taken the value out of the map. -/
def Took (x : State ι) (i : ι) (v : Bytes) : Prop :=
  ∃ now, (x.phase i).acted = some (.del k, now, .value (some v))

/-- Where a value of the key comes from: a SET, or the store to begin with. -/
def Put (x : State ι) : Option ι → Bytes → Prop
  | none, v => ∃ w, s₀.hashmap.lookup k = some w ∧ w.value = v
  | some j, v => ∃ now, (x.phase j).acted = some (.set k v, now, .stored)

/-- Each taken value has a source of its own, and what is in the map has yet another. -/
structure Once (x : State ι) (source : ι → Option ι) (current : Option ι) : Prop where
  took : ∀ i v, Took k x i v → Put k s₀ x (source i) v
  once : ∀ i j v w, Took k x i v → Took k x j w → source i = source j → i = j
  held : ∀ w, x.store.hashmap.lookup k = some w →
    Put k s₀ x current w.value ∧ ∀ i v, Took k x i v → source i ≠ current

variable {k s₀} {x y : State ι} {source : ι → Option ι} {current : Option ι}

theorem once_start (t : Instant) : Once k s₀ (.start t s₀ : State ι) (fun _ => none) none where
  took i v h := by
    obtain ⟨now, ha⟩ := h
    cases ha
  once i j v w h := by
    obtain ⟨now, ha⟩ := h
    cases ha
  held w hl := by
    refine ⟨⟨w, hl, rfl⟩, fun i v h => ?_⟩
    obtain ⟨now, ha⟩ := h
    cases ha

/-- Nothing is taken or set, and the entry stays or goes. -/
theorem Once.keep (h : Once k s₀ x source current) (htook : ∀ i v, Took k y i v → Took k x i v)
    (hput : ∀ o v, Put k s₀ x o v → Put k s₀ y o v)
    (hheld : ∀ w, y.store.hashmap.lookup k = some w →
      ∃ u, x.store.hashmap.lookup k = some u ∧ u.value = w.value) :
    Once k s₀ y source current where
  took i v hi := hput _ _ (h.took i v (htook i v hi))
  once i j v w hi hj := h.once i j v w (htook i v hi) (htook j w hj)
  held w hw := by
    obtain ⟨u, hu, hv⟩ := hheld w hw
    obtain ⟨hsource, hfresh⟩ := h.held u hu
    exact ⟨hput _ _ (hv ▸ hsource), fun i v hi => hfresh i v (htook i v hi)⟩

/-- The acts are the same. -/
theorem Once.frame (h : Once k s₀ x source current)
    (hacted : ∀ i, (y.phase i).acted = (x.phase i).acted)
    (hheld : ∀ w, y.store.hashmap.lookup k = some w →
      ∃ u, x.store.hashmap.lookup k = some u ∧ u.value = w.value) :
    Once k s₀ y source current := by
  refine h.keep (fun i v hi => ?_) (fun o v ho => ?_) hheld
  · obtain ⟨now, ha⟩ := hi
    exact ⟨now, hacted i ▸ ha⟩
  · cases o with
    | none => exact ho
    | some j =>
      obtain ⟨now, ha⟩ := ho
      exact ⟨now, (hacted j).trans ha⟩

/-- Only a SET gives a key another value. -/
theorem Call.value_run {now : Instant} {c : Call} {s : Store} {w : StoreValue}
    (hset : ∀ v, c ≠ .set k v) (hl : (c.run now s).2.hashmap.lookup k = some w) :
    ∃ u, s.hashmap.lookup k = some u ∧ u.value = w.value := by
  by_cases hk : k = c.key
  · subst hk
    cases c with
    | get _ | ttl _ => exact ⟨w, hl, rfl⟩
    | set key v => exact absurd rfl (hset v)
    | del key =>
      change (s.hashmap.erase key).lookup key = some w at hl
      rw [AList.lookup_erase] at hl
      cases hl
    | expire key secs =>
      have hgone : ∀ u, (s.hashmap.erase key).lookup key ≠ some u := by
        intro u
        rw [AList.lookup_erase]
        exact nofun
      change (s.expire now key secs).2.hashmap.lookup key = some w at hl
      unfold Store.expire at hl
      dsimp only at hl
      split at hl
      · exact absurd hl (hgone w)
      · rename_i u hu
        split at hl
        · exact absurd hl (hgone w)
        · split at hl
          · exact absurd hl (hgone w)
          · rw [AList.lookup_insert] at hl
            cases hl
            exact ⟨u, hu, rfl⟩
  · exact ⟨w, (run_other now s hk).lookup ▸ hl, rfl⟩

variable [DecidableEq ι]

theorem acted_move (x : State ι) (i j : ι) (p : Phase) :
    ((x.move i p).phase j).acted = if j = i then p.acted else (x.phase j).acted := by
  show (Function.update x.phase i p j).acted = _
  rw [Function.update_apply]
  split <;> rfl

/-- A call that has not acted and does not act now. -/
theorem Once.move (h : Once k s₀ x source current) {i : ι} {p : Phase}
    (hx : (x.phase i).acted = none) (hp : p.acted = none) : Once k s₀ (x.move i p) source current := by
  refine h.frame (fun j => ?_) fun w hw => ⟨w, hw, rfl⟩
  rw [acted_move]
  split
  · rename_i hj
    rw [hj, hp, hx]
  · rfl

section Finish

variable {i : ι} {c : Call} {now : Instant} {r : Reply}

/-- The state in which the call has acted. -/
def acting (x : State ι) (i : ι) (c : Call) (now : Instant) (r : Reply) : State ι :=
  { x.move i (.finished c now r) with store := (c.run now x.store).2 }

theorem took_acting {j : ι} {v : Bytes} (h : Took k (acting x i c now r) j v) :
    (j = i ∧ c = .del k ∧ r = .value (some v)) ∨ (j ≠ i ∧ Took k x j v) := by
  obtain ⟨t, ha⟩ := h
  change ((x.move i (.finished c now r)).phase j).acted = _ at ha
  rw [acted_move] at ha
  split at ha
  · rename_i hj
    cases ha
    exact .inl ⟨hj, rfl, rfl⟩
  · rename_i hj
    exact .inr ⟨hj, t, ha⟩

omit [DecidableEq ι] in
theorem ne_of_put (hx : (x.phase i).acted = none) {o : Option ι} {v : Bytes}
    (h : Put k s₀ x o v) : o ≠ some i := by
  intro ho
  subst ho
  obtain ⟨t, ha⟩ := h
  rw [hx] at ha
  cases ha

theorem put_acting (hx : (x.phase i).acted = none) {o : Option ι} {v : Bytes}
    (h : Put k s₀ x o v) : Put k s₀ (acting x i c now r) o v := by
  cases o with
  | none => exact h
  | some j =>
    have hj : j ≠ i := fun hji => ne_of_put hx h (congrArg some hji)
    obtain ⟨t, ha⟩ := h
    refine ⟨t, ?_⟩
    show ((x.move i (.finished c now r)).phase j).acted = _
    rw [acted_move, if_neg hj]
    exact ha

/-- A SET of the key is a new source. -/
theorem Once.set (h : Once k s₀ x source current) (hx : (x.phase i).acted = none) {v : Bytes} :
    Once k s₀ (acting x i (.set k v) now .stored) source (some i) := by
  have hback : ∀ j u, Took k (acting x i (.set k v) now .stored) j u → Took k x j u := by
    intro j u hj
    rcases took_acting hj with ⟨-, hc, -⟩ | ⟨-, hj⟩
    · cases hc
    · exact hj
  refine ⟨fun j u hj => put_acting hx (h.took j u (hback j u hj)),
    fun j l u w hj hl => h.once j l u w (hback j u hj) (hback l w hl), fun w hw => ⟨?_, ?_⟩⟩
  · change (x.store.hashmap.insert k _).lookup k = some w at hw
    rw [AList.lookup_insert] at hw
    cases hw
    refine ⟨now, ?_⟩
    show ((x.move i (.finished (.set k v) now .stored)).phase i).acted = _
    rw [acted_move, if_pos rfl]
    rfl
  · exact fun j u hj => ne_of_put hx (h.took j u (hback j u hj))

/-- A DEL of the key takes the value over from its source. -/
theorem Once.del (h : Once k s₀ x source current) (hx : (x.phase i).acted = none)
    (hr : ((Call.del k).run now x.store).1 = some r) :
    Once k s₀ (acting x i (.del k) now r) (Function.update source i current) current := by
  have hgone : ∀ w, (acting x i (.del k) now r).store.hashmap.lookup k ≠ some w := by
    intro w
    show (x.store.hashmap.erase k).lookup k ≠ some w
    rw [AList.lookup_erase]
    exact nofun
  -- what the DEL has got was in the map
  have hgot : ∀ v, r = .value (some v) →
      ∃ w, x.store.hashmap.lookup k = some w ∧ w.value = v := by
    intro v hv
    subst hv
    have hdel : (x.store.del now k).1 = some v := Reply.value.inj (Option.some.inj hr)
    unfold Store.del at hdel
    dsimp only at hdel
    split at hdel
    · rename_i w hw
      split at hdel
      · cases hdel
      · exact ⟨w, hw, Option.some.inj hdel⟩
    · cases hdel
  refine ⟨fun j v hj => ?_, fun j l v u hj hl => ?_, fun w hw => absurd hw (hgone w)⟩
  · rcases took_acting hj with ⟨rfl, -, hv⟩ | ⟨hne, hj⟩
    · obtain ⟨w, hw, rfl⟩ := hgot v hv
      rw [Function.update_self]
      exact put_acting hx (h.held w hw).1
    · rw [Function.update_of_ne hne]
      exact put_acting hx (h.took j v hj)
  · rcases took_acting hj with ⟨rfl, -, hv⟩ | ⟨hj', hjx⟩
    · rcases took_acting hl with ⟨rfl, -, -⟩ | ⟨hl', hlx⟩
      · exact fun _ => rfl
      · obtain ⟨w, hw, -⟩ := hgot v hv
        rw [Function.update_self, Function.update_of_ne hl']
        exact fun he => absurd he.symm ((h.held w hw).2 l u hlx)
    · rcases took_acting hl with ⟨rfl, -, hu⟩ | ⟨hl', hlx⟩
      · obtain ⟨w, hw, -⟩ := hgot u hu
        rw [Function.update_self, Function.update_of_ne hj']
        exact fun he => absurd he ((h.held w hw).2 j v hjx)
      · rw [Function.update_of_ne hj', Function.update_of_ne hl']
        exact h.once j l v u hjx hlx

theorem Once.finish (h : Once k s₀ x source current) (hx : (x.phase i).acted = none)
    (hr : (c.run now x.store).1 = some r) :
    ∃ source' current', Once k s₀ (acting x i c now r) source' current' := by
  by_cases hdel : c = .del k
  · subst hdel
    exact ⟨_, _, h.del hx hr⟩
  · by_cases hset : ∃ v, c = .set k v
    · obtain ⟨v, rfl⟩ := hset
      obtain rfl := Option.some.inj hr
      exact ⟨_, _, h.set hx⟩
    · refine ⟨_, _, h.keep (fun j v hj => ?_) (fun o v ho => put_acting hx ho) fun w hw => ?_⟩
      · rcases took_acting hj with ⟨-, hc, -⟩ | ⟨-, hj⟩
        · exact absurd hc hdel
        · exact hj
      · exact Call.value_run (fun v hv => hset ⟨v, hv⟩) hw

end Finish

theorem Once.step (h : Once k s₀ x source current) {a : Act ι} (hs : Step x a y) :
    ∃ source' current', Once k s₀ y source' current' := by
  have hnone : ∀ {i p}, x.phase i = p → p.acted = none → (x.phase i).acted = none :=
    fun hp hn => hp ▸ hn
  cases hs with
  | tick t ht => exact ⟨_, _, h.frame (fun _ => rfl) fun w hw => ⟨w, hw, rfl⟩⟩
  | sweep hs =>
    refine ⟨_, _, h.frame (fun i => by rw [hs.phase_eq.1]) fun w hw => ⟨w, ?_, rfl⟩⟩
    cases hs with
    | remove hs => exact (lookup_sweepRemove.mp hw).1
    | _ => exact hw
  | call hs =>
    cases hs with
    | invoke c hp =>
      exact ⟨_, _, (h.move (p := .invoked c) (hnone hp rfl) rfl).frame (fun _ => rfl)
        fun w hw => ⟨w, hw, rfl⟩⟩
    | delClock hp | delLock hp | expireHeap hp | expireLock hp | lock hp | clock hp =>
      exact ⟨_, _, h.move (hnone hp rfl) rfl⟩
    | set hp => exact h.finish (hnone hp rfl) rfl
    | finish hp hr => exact h.finish (hnone hp rfl) hr
    | @panic i c now hp hr =>
      refine ⟨_, _, (h.move (p := .failed) (hnone hp rfl) rfl).frame (fun _ => rfl) fun w hw => ?_⟩
      exact Call.value_run (fun v hv => by rw [hv] at hr; cases hr) hw
    | @respond i c now r hp =>
      refine ⟨_, _, h.frame (fun j => ?_) fun w hw => ⟨w, hw, rfl⟩⟩
      show ((x.move i (.responded c now r)).phase j).acted = _
      rw [acted_move]
      split
      · rename_i hj
        rw [hj, hp]
        rfl
      · rfl
    | @drop i hp =>
      refine ⟨_, _, h.move ?_ rfl⟩
      cases hph : x.phase i with
      | finished | responded => rw [hph] at hp; cases hp
      | _ => rfl

/-- In every state of every run, whatever the calls, dropped ones and panics included, and
whatever the sweeper does: each DEL that has answered a value of the key has it from a SET of this
value that has been carried out, or from the store to begin with, and no two of them from the
same. -/
theorem taken_once (t : Instant) (s₀ : Store) (x : State ι)
    (hr : Run (fun _ _ => True) (.start t s₀) x) (k : Key) :
    ∃ source : ι → Option ι,
      (∀ i v, Took k x i v → Put k s₀ x (source i) v) ∧
      ∀ i j v w, Took k x i v → Took k x j w → source i = source j → i = j := by
  suffices h : ∃ source current, Once k s₀ x source current by
    obtain ⟨source, current, h⟩ := h
    exact ⟨source, h.took, h.once⟩
  induction hr with
  | nil => exact ⟨_, _, once_start t⟩
  | snoc _ _ hs ih =>
    obtain ⟨source, current, h⟩ := ih
    exact h.step hs

end Once

/-- A SET and the DEL that takes its value. -/
theorem taken_once_del :
    ∃ x : State (Fin 2), Run (fun _ _ => True) (.start ⟨0, by decide⟩ .new) x ∧
      Took [1] x 1 [7] ∧ ∃ o, Put [1] .new x o [7] := by
  have h : Run (fun _ _ => True) (.start ⟨0, by decide⟩ .new) (.start ⟨0, by decide⟩ .new) :=
    .nil (ι := Fin 2) _
  have h := h.snoc trivial (.call (.invoke (i := 0) (.set [1] [7]) rfl))
  have h := h.snoc trivial (.call (.lock (i := 0) rfl (.inr ⟨_, _, rfl⟩) ⟨rfl, by decide⟩))
  have h := h.snoc trivial (.call (.set (i := 0) rfl))
  have h := h.snoc trivial (.call (.invoke (i := 1) (.del [1]) rfl))
  have h := h.snoc trivial (.call (.delClock (i := 1) rfl))
  have h := h.snoc trivial (.call (.delLock (i := 1) rfl ⟨rfl, by decide⟩))
  have h := h.snoc trivial (.call (.finish (i := 1) (r := .value (some [7])) rfl (by decide)))
  obtain ⟨source, hput, -⟩ := taken_once _ _ _ h [1]
  exact ⟨_, h, ⟨_, rfl⟩, _, hput 1 [7] ⟨_, rfl⟩⟩

end Redlike.Store
