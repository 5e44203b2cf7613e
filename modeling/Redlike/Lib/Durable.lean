import Redlike.Lib.Files

/-!
# What a name may stand for

A name in a directory stands for one node now, and after a power failure it may stand for what
the disk has, or for what any update that has not been forced to the disk put there. `May` is
the union of these. Every operation adds at most one node to it, a power failure adds none,
and forcing a directory to the disk leaves only what is seen now.
-/
namespace Redlike.Lib.Files

variable {ν β : Type}

/-- The update puts this node under the name. -/
def Update.Puts (place : Nat × ν) (node : Option Node) : Update ν → Prop
  | set p m => p = place ∧ m = node
  | move old new m => (old = place ∧ node = none) ∨ (new = place ∧ node = some m)

namespace FileSystem

/-- The node is under the name, or may be found there after a power failure. -/
def May (fs : FileSystem ν β) (place : Nat × ν) (node : Option Node) : Prop :=
  fs.entries place = node ∨ fs.disk place = node ∨ ∃ u ∈ fs.pending, u.Puts place node

variable {fs fs' : FileSystem ν β} {place : Nat × ν} {node : Option Node}

theorem May.of_entries (fs : FileSystem ν β) (place : Nat × ν) : fs.May place (fs.entries place) :=
  .inl rfl

theorem May.of_clean (hc : Clean fs) (hm : fs.May place node) : fs.entries place = node := by
  rcases hm with h | h | ⟨u, hu, -⟩
  · exact h
  · rw [← hc.disk]
    exact h
  · rw [hc.pending] at hu
    cases hu

/-- One more update, and the names it has changed. -/
theorem May.of_update {u : Update ν} (hdisk : fs'.disk = fs.disk)
    (hpending : fs'.pending = fs.pending ++ [u])
    (hentries : ∀ q, fs'.entries q = fs.entries q ∨ u.Puts q (fs'.entries q))
    (hm : fs'.May place node) : fs.May place node ∨ u.Puts place node := by
  rcases hm with h | h | ⟨v, hv, hp⟩
  · rcases hentries place with he | he
    · exact .inl (.inl (he.symm.trans h))
    · rw [h] at he
      exact .inr he
  · exact .inl (.inr (.inl (by rw [← hdisk]; exact h)))
  · rw [hpending, List.mem_append, List.mem_singleton] at hv
    rcases hv with hv | rfl
    · exact .inl (.inr (.inr ⟨v, hv, hp⟩))
    · exact .inr hp

variable [DecidableEq ν]

theorem apply_puts (u : Update ν) (e : Entries ν) (q : Nat × ν) :
    u.apply e q = e q ∨ u.Puts q (u.apply e q) := by
  cases u with
  | set p m =>
    by_cases hq : q = p
    · subst hq
      refine .inr ⟨rfl, ?_⟩
      rw [Update.apply, Function.update_self]
    · exact .inl (Function.update_of_ne hq ..)
  | move old new m =>
    by_cases ho : q = old
    · subst ho
      exact .inr (.inl ⟨rfl, Function.update_self ..⟩)
    · by_cases hn : q = new
      · subst hn
        refine .inr (.inr ⟨rfl, ?_⟩)
        rw [Update.apply, Function.update_of_ne ho, Function.update_self]
      · left
        rw [Update.apply, Function.update_of_ne ho, Function.update_of_ne hn]

theorem May.of_create {p : DirPath ν} {n : ν} {h : Handle ν} (hc : fs.createNew p n = .ok (h, fs'))
    (hm : fs'.May place node) :
    fs.May place node ∨ (place = h.place ∧ node = some (.file h.inode)) := by
  obtain ⟨d, -, -, -, -, -, hdisk, hentries, hpending, -⟩ := createNew_ok hc
  rcases hm.of_update hdisk hpending fun q => by rw [hentries]; exact apply_puts (.set _ _) _ q with
    h | ⟨hp, hn⟩
  · exact .inl h
  · exact .inr ⟨hp.symm, hn.symm⟩

theorem May.of_unlink {q : Nat × ν} (hm : (fs.unlink q).May place node) :
    fs.May place node ∨ (place = q ∧ node = none) := by
  cases hq : fs.entries q with
  | none =>
    rw [unlink_of_none hq] at hm
    exact .inl hm
  | some m =>
    cases m with
    | dir x =>
      have hsame : fs.unlink q = fs := by
        unfold unlink
        split
        · rename_i hf
          rw [hq] at hf
          cases hf
        · rfl
      rw [hsame] at hm
      exact .inl hm
    | file i =>
      obtain ⟨-, -, hdisk, -, hentries, hpending⟩ := unlink_of_file hq
      rcases hm.of_update hdisk hpending fun p => by
          rw [hentries]; exact apply_puts (.set _ _) _ p with h | ⟨hp, hn⟩
      · exact .inl h
      · exact .inr ⟨hp.symm, hn.symm⟩

theorem May.of_rename {old : Nat × ν} {p : DirPath ν} {n : ν} {d i : Nat}
    (hd : fs.dirOf p = .ok d) (hold : fs.entries old = some (.file i))
    (hr : fs.rename old (.file p n) = .ok fs') (hm : fs'.May place node) :
    fs.May place node ∨ (place = old ∧ node = none) ∨
      (place = (d, n) ∧ node = some (.file i)) := by
  obtain ⟨p', n', d', m, hpath, hd', hm', -, -, -, hdisk, -, hentries, hpending⟩ := rename_ok hr
  cases hpath
  obtain rfl : d = d' := Except.ok.inj (hd.symm.trans hd')
  obtain rfl : Node.file i = m := Option.some.inj (hold.symm.trans hm')
  rcases hm.of_update hdisk hpending fun q => by rw [hentries]; exact apply_puts _ _ q with
    h | ⟨hp, hn⟩ | ⟨hp, hn⟩
  · exact .inl h
  · exact .inr (.inl ⟨hp.symm, hn⟩)
  · exact .inr (.inr ⟨hp.symm, hn⟩)

theorem createNew_next {p : DirPath ν} {n : ν} {h : Handle ν} (hc : fs.createNew p n = .ok (h, fs')) :
    fs'.next = fs.next + 1 := by
  unfold createNew at hc
  split at hc
  · cases hc
  · split at hc
    · cases hc
    · cases hc
      rfl

theorem rename_next {old : Nat × ν} {path : Path ν} (hr : fs.rename old path = .ok fs') :
    fs'.next = fs.next := by
  cases path with
  | empty => cases hr
  | root => cases hr
  | file p n =>
    rw [rename] at hr
    split at hr
    · cases hr
    · split at hr
      · cases hr
      · split at hr
        · cases hr
        · cases hr
          rfl
  | slashed p n dot =>
    obtain ⟨p', n', d, node, hpath, -⟩ := rename_ok hr
    cases hpath

theorem unlink_next (fs : FileSystem ν β) (q : Nat × ν) : (fs.unlink q).next = fs.next := by
  unfold unlink
  split <;> rfl

omit [DecidableEq ν] in
theorem May.of_syncDir {d : Nat} (hm : (fs.syncDir d).May place node) : fs.May place node := by
  rcases hm with h | h | ⟨u, hu, hp⟩
  · exact .inl h
  · simp only [syncDir] at h
    split at h
    · exact .inl h
    · exact .inr (.inl h)
  · exact .inr (.inr ⟨u, List.mem_of_mem_filter hu, hp⟩)

omit [DecidableEq ν] in
/-- A name in a directory that was forced to the disk stands for what it does. -/
theorem May.of_synced {d : Nat} (hm : (fs.syncDir d).May place node) (hd : place.1 = d) :
    fs.entries place = node := by
  rcases hm with h | h | ⟨u, hu, hp⟩
  · exact h
  · simp only [syncDir, if_pos hd] at h
    exact h
  · have htouch : u.touches d = true := by
      cases u with
      | set q m =>
        obtain ⟨rfl, -⟩ := hp
        simp [Update.touches, hd]
      | move old new m =>
        rcases hp with ⟨rfl, -⟩ | ⟨rfl, -⟩
        · simp [Update.touches, hd]
        · simp [Update.touches, hd]
    rw [syncDir, List.mem_filter, htouch] at hu
    cases hu.2

end FileSystem

/-- After a power failure nothing is found that was not possible. -/
theorem Recovered.may [DecidableEq ν] {fs r : FileSystem ν β} (hr : Recovered fs r) (place : Nat × ν) :
    fs.May place (r.entries place) := by
  revert place
  refine hr.keeps (P := fun e => ∀ place, fs.May place (e place)) (fun _ => .inr (.inl rfl)) ?_
  intro u hu e he q
  rcases FileSystem.apply_puts u e q with h | h
  · rw [h]
    exact he q
  · exact .inr (.inr ⟨u, hu, h⟩)

end Redlike.Lib.Files
