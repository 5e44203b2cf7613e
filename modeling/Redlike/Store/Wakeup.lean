import Redlike.Store.Concurrent

/-!
# No lost wake-up

`sweep_loop` looks at the head of the heap and then sleeps until that deadline, or
without end if there is none. An EXPIRE with an earlier deadline may come before the
sweeper sleeps, while it sleeps, or several times over. Each one leaves a permit or
wakes the sweeper, and a permit outlives the rounds in which nobody takes it; so a
sweeper that sleeps undisturbed has no deadline before its target.
-/
namespace Redlike.Store

/-- Nothing in the heap comes before the target; without a target the heap is empty. -/
def NotBefore (target : Option Instant) (heap : ExpirationHeap) : Prop :=
  ∀ e ∈ heap.entries, ∃ w, target = some w ∧ w ≤ e.1

/-- What the sweeper can count on: nobody but a parked sweeper is a waiter, and where it
has chosen its target, a deadline before that comes with a permit or a wake-up. -/
def Alert (w : Sweeper) (s : Store) : Prop :=
  match w with
  | .peeked target =>
    s.wakeup.waiter = none ∧ (s.wakeup.permit = true ∨ NotBefore target s.expirationHeap)
  | .parked target =>
    s.wakeup.waiter = some true ∨
      (s.wakeup.waiter = some false ∧ NotBefore target s.expirationHeap)
  | _ => s.wakeup.waiter = none

/-- A call leaves heap and waiter alone, or it notifies. -/
theorem Call.wakeup_run (now : Instant) (c : Call) (s : Store) :
    ((c.run now s).2.expirationHeap = s.expirationHeap ∧ (c.run now s).2.wakeup = s.wakeup) ∨
      (c.run now s).2.wakeup = s.wakeup.notifyOne := by
  cases c with
  | expire key secs =>
    simp only [run, Store.expire]
    split
    · exact .inl ⟨rfl, rfl⟩
    · split
      · exact .inl ⟨rfl, rfl⟩
      · split
        · exact .inl ⟨rfl, rfl⟩
        · exact .inr rfl
  | _ => exact .inl ⟨rfl, rfl⟩

/-- A notification reaches the sweeper wherever it is. -/
theorem Alert.notify {w : Sweeper} {s s' : Store} (h : Alert w s)
    (hn : s'.wakeup = s.wakeup.notifyOne) : Alert w s' := by
  have idle (hw : s.wakeup.waiter = none) :
      s'.wakeup.waiter = none ∧ s'.wakeup.permit = true := by
    simp [hn, Notify.notifyOne, hw]
  cases w with
  | peeked target => exact ⟨(idle h.1).1, .inl (idle h.1).2⟩
  | parked target =>
    left
    rcases h with hw | ⟨hw, -⟩
    · simp [hn, Notify.notifyOne, hw]
    · simp [hn, Notify.notifyOne, hw]
  | _ => exact (idle h).1

theorem Alert.same {w : Sweeper} {s s' : Store} (h : Alert w s)
    (hh : s'.expirationHeap = s.expirationHeap) (hw : s'.wakeup = s.wakeup) : Alert w s' := by
  unfold Alert at h ⊢
  rw [hh, hw]
  exact h

theorem Alert.run {w : Sweeper} {s : Store} (h : Alert w s) (now : Instant) (c : Call) :
    Alert w (c.run now s).2 := by
  rcases c.wakeup_run now s with ⟨hh, hw⟩ | hn
  · exact h.same hh hw
  · exact h.notify hn

/-- The heap is in order, so its head is a target for all of it. -/
theorem notBefore_head (heap : ExpirationHeap) :
    NotBefore (heap.entries.head?.map (·.1)) heap := by
  obtain ⟨entries, sorted⟩ := heap
  cases entries with
  | nil => intro e he; cases he
  | cons a rest =>
    intro e he
    refine ⟨a.1, rfl, ?_⟩
    rcases List.mem_cons.mp he with rfl | he
    · exact le_rfl
    · exact (List.pairwise_cons.mp sorted).1 e he

section Steps

variable {ι : Type} {x y : State ι}

theorem Alert.sweepStep (hx : Alert x.sweeper x.store) {a : Act ι} (hs : SweepStep x a y) :
    Alert y.sweeper y.store := by
  cases hs with
  | lockHeap hs hf => rw [hs] at hx; exact hx
  | clock hs => rw [hs] at hx; exact hx
  | pop hs => rw [hs] at hx; exact hx
  | lockMap hs hf => rw [hs] at hx; exact hx
  | remove hs => rw [hs] at hx; exact hx
  | peek hs hf =>
    rw [hs] at hx
    exact ⟨hx, .inr (notBefore_head _)⟩
  | permit hs hn =>
    rw [hs] at hx
    exact hx.1
  | park hs hn ht =>
    rw [hs] at hx
    -- no permit was left, so nothing came before the target since the peek
    rcases hx with ⟨-, hpermit | hnb⟩
    · rw [hn] at hpermit
      cases hpermit
    · exact .inr ⟨rfl, hnb⟩
  | panic hs ht =>
    rw [hs] at hx
    exact hx.1
  | wake hs hn => exact rfl
  | timeout hs ht => exact rfl
  | alarm hs ht => exact rfl

variable [DecidableEq ι]

theorem Alert.callStep (hx : Alert x.sweeper x.store) {a : Act ι} (hs : CallStep x a y) :
    Alert y.sweeper y.store := by
  cases hs with
  | set hp => exact hx.run x.clock (.set _ _)
  | finish hp hr => exact hx.run _ _
  | panic hp hr => exact hx.run _ _
  | _ => exact hx

theorem Alert.step (hx : Alert x.sweeper x.store) {a : Act ι} (hs : Step x a y) :
    Alert y.sweeper y.store := by
  cases hs with
  | tick t ht => exact hx
  | call hs => exact hx.callStep hs
  | sweep hs => exact hx.sweepStep hs

theorem alert_run {G : State ι → Act ι → Prop} {t : Instant} {map : HashMap}
    {heap : ExpirationHeap} (hr : Run G (.start t (fromParts map heap)) x) :
    Alert x.sweeper x.store := by
  induction hr with
  | nil => exact rfl
  | snoc _ _ hstep ih => exact ih.step hstep

/-- In every reachable state a sweeper that sleeps, not notified and without a permit, has
nothing in the heap before its target; and where something is before the target, the
sweeper has been woken and goes on to sweep. -/
theorem no_lost_wakeup {G : State ι → Act ι → Prop} {t : Instant} {map : HashMap}
    {heap : ExpirationHeap} {target : Option Instant}
    (hr : Run G (.start t (fromParts map heap)) x) (hp : x.sweeper = .parked target) :
    (x.store.wakeup.waiter = some false → x.store.wakeup.permit = false →
      NotBefore target x.store.expirationHeap) ∧
    (¬ NotBefore target x.store.expirationHeap →
      x.store.wakeup.waiter = some true ∧ ∃ y, SweepStep x .sweep y ∧ y.sweeper = .idle) := by
  have ha := alert_run hr
  rw [hp] at ha
  rcases ha with hw | ⟨hw, hnb⟩
  · refine ⟨fun hn => ?_, fun _ => ⟨hw, _, .wake hp hw, rfl⟩⟩
    rw [hw] at hn
    cases hn
  · exact ⟨fun _ _ => hnb, fun hn => absurd hnb hn⟩

/-- The sweeper sleeps without end on an empty heap; SET and EXPIRE wake it. -/
theorem no_lost_wakeup_expire :
    ∃ x : State (Fin 2), Run (fun _ _ => True) (.start ⟨0, by decide⟩ .new) x ∧
      x.sweeper = .parked none ∧ x.store.expirationHeap.entries = [(⟨1000000000, by decide⟩, [1])] ∧
      ∃ y, SweepStep x .sweep y ∧ y.sweeper = .idle := by
  have h : Run (fun _ _ => True) (.start ⟨0, by decide⟩ .new) (.start ⟨0, by decide⟩ .new) :=
    .nil (ι := Fin 2) _
  have h := h.snoc trivial (.sweep (.lockHeap rfl ⟨rfl, by decide⟩))
  have h := h.snoc trivial (.sweep (.clock rfl))
  have h := h.snoc trivial (.sweep (.pop rfl))
  have h := h.snoc trivial (.sweep (.lockMap rfl ⟨rfl, by decide⟩))
  have h := h.snoc trivial (.sweep (.remove rfl))
  have h := h.snoc trivial (.sweep (.peek rfl ⟨rfl, by decide⟩))
  have h := h.snoc trivial (.sweep (.park rfl rfl nofun))
  have h := h.snoc trivial (.call (.invoke (i := 0) (.set [1] [7]) rfl))
  have h := h.snoc trivial (.call (.lock (i := 0) rfl (.inr ⟨_, _, rfl⟩) ⟨rfl, by decide⟩))
  have h := h.snoc trivial (.call (.set (i := 0) rfl))
  have h := h.snoc trivial (.call (.invoke (i := 1) (.expire [1] 1) rfl))
  have h := h.snoc trivial (.call (.expireHeap (i := 1) rfl ⟨rfl, by decide⟩))
  have h := h.snoc trivial (.call (.expireLock (i := 1) rfl ⟨rfl, by decide⟩))
  have h := h.snoc trivial (.call (.clock (i := 1) rfl (.inr ⟨_, _, rfl⟩)))
  have h := h.snoc trivial (.call (.finish (i := 1) (r := .flag 1) rfl rfl))
  refine ⟨_, h, rfl, rfl, ((no_lost_wakeup h rfl).2 ?_).2⟩
  intro hnb
  obtain ⟨w, hw, -⟩ := hnb (⟨1000000000, by decide⟩, [1]) (List.mem_singleton.mpr rfl)
  cases hw

end Steps
end Redlike.Store
