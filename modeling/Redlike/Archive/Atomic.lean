import Redlike.Archive.Model

/-!
# A save happens as a whole or not at all

Whatever call of a save fails, and wherever the process stops or the machine loses power,
the path of the archive reads as before the save or as the complete new bytes. All that a
save ever does to a directory is to put its temporary file somewhere: under the temporary
name, and, once its bytes are on the disk, under the name of the archive. `Shows` says this
of the names a process sees and of those on the disk alike.
-/
namespace Redlike.Archive

open Lib.Files
open Resp (Bytes)
open Store

variable {path : Path String} {bytes : Bytes} {fs₀ fs : Files} {h : Handle String}
  {target : Option (Nat × String)}

/-- Names that differ from those of `fs₀` only in where the file of `h` is: possibly in its
own place, or in the target if there is one. -/
def Shows (fs₀ : Files) (h : Handle String) (target : Option (Nat × String))
    (e : Entries String) : Prop :=
  ∀ place, e place = fs₀.entries place ∨
    (place = h.place ∧ (e place = none ∨ e place = some (.file h.inode))) ∨
    (target = some place ∧ e place = some (.file h.inode))

theorem Shows.update_temp {e : Entries String} (hs : Shows fs₀ h target e) {node : Option Node}
    (hn : node = none ∨ node = some (.file h.inode)) :
    Shows fs₀ h target (Function.update e h.place node) := by
  intro place
  by_cases hp : place = h.place
  · rw [hp, Function.update_self]
    exact .inr (.inl ⟨rfl, hn⟩)
  · rw [Function.update_of_ne hp]
    exact hs place

theorem Shows.update_target {e : Entries String} {place : Nat × String}
    (hs : Shows fs₀ h (some place) e) :
    Shows fs₀ h (some place) (Function.update e place (some (.file h.inode))) := by
  intro q
  by_cases hq : q = place
  · rw [hq, Function.update_self]
    exact .inr (.inr ⟨rfl, rfl⟩)
  · rw [Function.update_of_ne hq]
    exact hs q

theorem Shows.move {e : Entries String} {place : Nat × String} (hs : Shows fs₀ h (some place) e) :
    Shows fs₀ h (some place) (Update.apply e (.move h.place place (.file h.inode))) :=
  hs.update_target.update_temp (.inl rfl)

/-- The updates a save makes. -/
def Moves (h : Handle String) (target : Option (Nat × String)) : Update String → Prop
  | .set place node => place = h.place ∧ (node = none ∨ node = some (.file h.inode))
  | .move old new node => old = h.place ∧ target = some new ∧ node = .file h.inode

theorem Moves.shows {u : Update String} (hu : Moves h target u) {e : Entries String}
    (hs : Shows fs₀ h target e) : Shows fs₀ h target (u.apply e) := by
  cases u with
  | set place node =>
    obtain ⟨rfl, hn⟩ := hu
    exact hs.update_temp hn
  | move old new node =>
    obtain ⟨rfl, rfl, rfl⟩ := hu
    exact hs.move

theorem Moves.touches {u : Update String} (hu : Moves h target u) :
    u.touches h.place.1 = true := by
  cases u with
  | set place node => simp [Update.touches, hu.1]
  | move old new node => simp [Update.touches, hu.1]

theorem Moves.with_target {u : Update String} (hu : Moves h none u) (target : Option (Nat × String)) :
    Moves h target u := by
  cases u with
  | set place node => exact hu
  | move old new node => exact absurd hu.2.1 (by simp)

theorem Shows.with_target {e : Entries String} (hs : Shows fs₀ h none e) (target : Option (Nat × String)) :
    Shows fs₀ h target e := by
  intro place
  rcases hs place with heq | htemp | ⟨ht, -⟩
  · exact .inl heq
  · exact .inr (.inl htemp)
  · cases ht

/-- What holds of the file system while the temporary file is about: the names processes
see, those on the disk and those any pending updates lead to are as `Shows` says; and no other
inode has changed. -/
structure Kept (fs₀ fs : Files) (h : Handle String) (target : Option (Nat × String)) : Prop where
  root : fs.root = fs₀.root
  cwd : fs.cwd = fs₀.cwd
  free : fs₀.entries h.place = none
  fresh : fs₀.next ≤ h.inode
  noDir : ∀ place, target = some place → ∀ x, fs₀.entries place ≠ some (.dir x)
  entries : Shows fs₀ h target fs.entries
  disk : Clean fs₀ → Shows fs₀ h target fs.disk
  pending : Clean fs₀ → ∀ u ∈ fs.pending, Moves h target u
  inodes : ∀ i, i ≠ h.inode → fs.inodes i = fs₀.inodes i

theorem Shows.dirs {e : Entries String} (hs : Shows fs₀ h target e) (hk : Kept fs₀ fs h target)
    (place : Nat × String) (x : Nat) (hd : fs₀.entries place = some (.dir x)) :
    e place = some (.dir x) := by
  rcases hs place with heq | ⟨rfl, -⟩ | ⟨ht, -⟩
  · rw [heq, hd]
  · rw [hk.free] at hd
    cases hd
  · exact absurd hd (hk.noDir place ht x)

/-- The directories that paths led to are where they were. -/
theorem Kept.resolve (hk : Kept fs₀ fs h target) {p : DirPath String} {d : Nat}
    (hd : fs₀.dirOf p = .ok d) : fs.resolve p = .ok (.dir d) :=
  FileSystem.resolve_mono hk.root hk.cwd (hk.entries.dirs hk) (FileSystem.dirOf_eq_ok.mp hd)

theorem Kept.dirOf (hk : Kept fs₀ fs h target) {p : DirPath String} {d : Nat}
    (hd : fs₀.dirOf p = .ok d) : fs.dirOf p = .ok d := FileSystem.dirOf_eq_ok.mpr (hk.resolve hd)

/-- Files of the old file system are read as before. -/
theorem Kept.old_inode (hk : Kept fs₀ fs h target) {place : Nat × String} {i : Nat}
    (hp : fs₀.entries place = some (.file i)) : fs.inodes i = fs₀.inodes i := by
  have hlt := fs₀.used place i hp
  have hfresh := hk.fresh
  exact hk.inodes i (by omega)

/-! ## What can be read at the path -/

section Reading

variable {r : Files}

/-- `r` reads at the path what `fs₀` does, or the bytes. -/
def OldOrNew (fs₀ : Files) (path : Path String) (bytes : Bytes) (r : Files) : Prop :=
  r.readFile path = fs₀.readFile path ∨ r.readFile path = .ok bytes

/-- A file system that shows what `Shows` says, and holds the bytes of the files in it. -/
theorem oldOrNew_of_shows {p : DirPath String} {n : String} (hk : Kept fs₀ fs h target)
    (hdir : fs₀.dirOf p = .ok h.place.1) (hne : h.place.2 ≠ n)
    (hroot : r.root = fs₀.root) (hcwd : r.cwd = fs₀.cwd) (hs : Shows fs₀ h target r.entries)
    (hold : ∀ i, fs₀.entries (h.place.1, n) = some (.file i) → (r.inodes i).data = (fs₀.inodes i).data)
    (hnew : target.isSome → (r.inodes h.inode).data = bytes) :
    OldOrNew fs₀ (.file p n) bytes r := by
  have hdir' : r.dirOf p = .ok h.place.1 :=
    FileSystem.dirOf_mono hroot hcwd (hs.dirs hk) hdir
  rw [OldOrNew, FileSystem.readFile_eq hdir, FileSystem.readFile_eq hdir']
  rcases hs (h.place.1, n) with heq | ⟨hp, -⟩ | ⟨ht, heq⟩
  · left
    rw [heq]
    cases he : fs₀.entries (h.place.1, n) with
    | none => rfl
    | some node =>
      cases node with
      | dir x => rfl
      | file i =>
        dsimp only
        rw [hold i he]
  · exact absurd (congrArg Prod.snd hp).symm hne
  · right
    rw [heq]
    dsimp only
    rw [hnew (by rw [ht]; rfl)]

/-- Before and after any stop of the process. -/
theorem Kept.oldOrNew {p : DirPath String} {n : String} (hk : Kept fs₀ fs h target)
    (hdir : fs₀.dirOf p = .ok h.place.1) (hne : h.place.2 ≠ n)
    (hnew : target.isSome → (fs.inodes h.inode).data = bytes) :
    OldOrNew fs₀ (.file p n) bytes fs := by
  refine oldOrNew_of_shows hk hdir hne hk.root hk.cwd hk.entries ?_ hnew
  intro i hi
  rw [hk.old_inode hi]

theorem Kept.shows_recovered (hk : Kept fs₀ fs h target) (hc : Clean fs₀) (hr : Recovered fs r) :
    Shows fs₀ h target r.entries :=
  hr.keeps (hk.disk hc) fun u hu _ he => (hk.pending hc u hu).shows he

/-- After a power failure. -/
theorem Kept.oldOrNew_recovered {p : DirPath String} {n : String} (hk : Kept fs₀ fs h target)
    (hdir : fs₀.dirOf p = .ok h.place.1) (hne : h.place.2 ≠ n)
    (hnew : target.isSome → fs.inodes h.inode = ⟨bytes, true⟩) (hc : Clean fs₀)
    (hr : Recovered fs r) : OldOrNew fs₀ (.file p n) bytes r := by
  refine oldOrNew_of_shows hk hdir hne (hr.root.trans hk.root) (hr.cwd.trans hk.cwd)
    (hk.shows_recovered hc hr) ?_ ?_
  · intro i hi
    have hsame := hk.old_inode hi
    rw [hr.data i (by rw [hsame]; exact hc.synced _ i hi), hsame]
  · intro ht
    have hinode := hnew ht
    rw [hr.data h.inode (by rw [hinode]), hinode]

/-- Behind a slash there is what was there, as nothing can be renamed to it. -/
theorem Kept.readFile_slashed {p : DirPath String} {n : String} {dot : Bool}
    (hk : Kept fs₀ fs h none) (hdir : fs₀.dirOf p = .ok h.place.1) (hne : h.place.2 ≠ n)
    (hroot : r.root = fs₀.root) (hcwd : r.cwd = fs₀.cwd) (hs : Shows fs₀ h none r.entries) :
    r.readFile (.slashed p n dot) = fs₀.readFile (.slashed p n dot) := by
  have hdir' : r.dirOf p = .ok h.place.1 :=
    FileSystem.dirOf_mono hroot hcwd (hs.dirs hk) hdir
  have hsame : r.entries (h.place.1, n) = fs₀.entries (h.place.1, n) := by
    rcases hs (h.place.1, n) with heq | ⟨hp, -⟩ | ⟨ht, -⟩
    · exact heq
    · exact absurd (congrArg Prod.snd hp).symm hne
    · cases ht
  rw [FileSystem.readFile_slashed hdir, FileSystem.readFile_slashed hdir', hsame]

end Reading

/-! ## What the calls keep -/

theorem kept_create {p : DirPath String} {temp : String}
    (hc : fs₀.createNew p temp = .ok (h, fs)) : Kept fs₀ fs h none := by
  obtain ⟨d, -, hfree, rfl, hroot, hcwd, hdisk, hentries, hpending, hinodes⟩ :=
    FileSystem.createNew_ok hc
  have hshows : Shows fs₀ ⟨(d, temp), fs₀.next⟩ none fs₀.entries := fun place => .inl rfl
  refine ⟨hroot, hcwd, hfree, Nat.le_refl _, by simp, ?_, ?_, ?_, ?_⟩
  · rw [hentries]
    exact hshows.update_temp (.inr rfl)
  · intro hclean
    rw [hdisk, hclean.disk]
    exact hshows
  · intro hclean u hu
    rw [hpending, hclean.pending, List.nil_append, List.mem_singleton] at hu
    subst hu
    exact ⟨rfl, .inr rfl⟩
  · intro i hi
    rw [hinodes, Function.update_of_ne hi]

/-- Only the bytes of the temporary file change. -/
theorem Kept.inode {fs' : Files} (hk : Kept fs₀ fs h target) {x : Inode UInt8}
    (hfs : fs' = { fs with inodes := Function.update fs.inodes h.inode x }) :
    Kept fs₀ fs' h target := by
  subst hfs
  refine ⟨hk.root, hk.cwd, hk.free, hk.fresh, hk.noDir, hk.entries, hk.disk, hk.pending, ?_⟩
  intro i hi
  show Function.update fs.inodes h.inode x i = _
  rw [Function.update_of_ne hi, hk.inodes i hi]

theorem Kept.rename {fs' : Files} {p : DirPath String} {n : String} (hk : Kept fs₀ fs h none)
    (hdir : fs₀.dirOf p = .ok h.place.1) (hpresent : fs.entries h.place = some (.file h.inode))
    (hne : h.place.2 ≠ n) (hr : fs.rename h.place (.file p n) = .ok fs') :
    Kept fs₀ fs' h (some (h.place.1, n)) ∧
      fs'.entries (h.place.1, n) = some (.file h.inode) ∧ fs'.entries h.place = none ∧
      fs'.inodes = fs.inodes := by
  obtain ⟨p', n', d, node, hpath, hd, hold, hnoDir, hroot, hcwd, hdisk, hinodes, hentries, hpending⟩ :=
    FileSystem.rename_ok hr
  cases hpath
  obtain rfl : Node.file h.inode = node := Option.some.inj (hpresent.symm.trans hold)
  obtain rfl : h.place.1 = d := Except.ok.inj ((hk.dirOf hdir).symm.trans hd)
  have hplace : (h.place.1, n) ≠ h.place := fun he => hne (congrArg Prod.snd he).symm
  refine ⟨⟨hroot.trans hk.root, hcwd.trans hk.cwd, hk.free, hk.fresh, ?_, ?_, ?_, ?_, ?_⟩, ?_, ?_,
    hinodes⟩
  · intro place ht x hx
    cases ht
    exact hnoDir x (hk.entries.dirs hk _ x hx)
  · rw [hentries]
    exact (hk.entries.with_target _).move
  · intro hclean
    rw [hdisk]
    exact (hk.disk hclean).with_target _
  · intro hclean u hu
    rw [hpending, List.mem_append, List.mem_singleton] at hu
    rcases hu with hu | rfl
    · exact (hk.pending hclean u hu).with_target _
    · exact ⟨rfl, rfl, rfl⟩
  · intro i hi
    rw [hinodes]
    exact hk.inodes i hi
  · rw [hentries, Update.apply, Function.update_of_ne hplace, Function.update_self]
  · rw [hentries, Update.apply, Function.update_self]

/-- The temporary file is removed by name. -/
theorem Kept.unlink (hk : Kept fs₀ fs h target)
    (hpresent : fs.entries h.place = some (.file h.inode)) :
    Kept fs₀ (fs.unlink h.place) h target ∧ (fs.unlink h.place).entries h.place = none := by
  obtain ⟨hroot, hcwd, hdisk, hinodes, hentries, hpending⟩ := FileSystem.unlink_of_file hpresent
  refine ⟨⟨hroot.trans hk.root, hcwd.trans hk.cwd, hk.free, hk.fresh, hk.noDir, ?_, ?_, ?_, ?_⟩, ?_⟩
  · rw [hentries]
    exact hk.entries.update_temp (.inl rfl)
  · rw [hdisk]
    exact hk.disk
  · intro hclean u hu
    rw [hpending, List.mem_append, List.mem_singleton] at hu
    rcases hu with hu | rfl
    · exact hk.pending hclean u hu
    · exact ⟨rfl, .inl rfl⟩
  · rw [hinodes]
    exact hk.inodes
  · rw [hentries, Function.update_self]

/-- A synced directory has its names on the disk and no pending updates. -/
theorem Kept.syncDir (hk : Kept fs₀ fs h target) : Kept fs₀ (fs.syncDir h.place.1) h target := by
  refine ⟨hk.root, hk.cwd, hk.free, hk.fresh, hk.noDir, hk.entries, ?_, ?_, hk.inodes⟩
  · intro hclean place
    dsimp only [FileSystem.syncDir]
    split
    · exact hk.entries place
    · exact hk.disk hclean place
  · intro hclean u hu
    exact hk.pending hclean u (List.mem_of_mem_filter hu)

theorem Kept.syncDir_pending (hk : Kept fs₀ fs h target) (hc : Clean fs₀) :
    (fs.syncDir h.place.1).pending = [] := by
  refine List.filter_eq_nil_iff.mpr ?_
  intro u hu
  simp [(hk.pending hc u hu).touches]

/-! ## The invariant -/

/-- The temporary file has not been renamed: under its own name there is itself, or, once it
was removed, nothing. -/
structure Owned (fs₀ : Files) (path : Path String) (fs : Files) (h : Handle String)
    (node : Option Node) : Prop where
  kept : Kept fs₀ fs h none
  dir : fs₀.dirOf (parentOrDot path) = .ok h.place.1
  name : path.fileName ≠ some h.place.2
  here : fs.entries h.place = node

/-- It was renamed, with all the bytes in it and on the disk. -/
structure Replaced (fs₀ : Files) (path : Path String) (bytes : Bytes) (fs : Files)
    (h : Handle String) (p : DirPath String) (n : String) : Prop where
  path_eq : path = .file p n
  kept : Kept fs₀ fs h (some (h.place.1, n))
  dir : fs₀.dirOf p = .ok h.place.1
  name : h.place.2 ≠ n
  contents : fs.inodes h.inode = ⟨bytes, true⟩
  present : fs.entries (h.place.1, n) = some (.file h.inode)
  absent : fs.entries h.place = none

/-- What is true in each phase of a save that began on `fs₀`. -/
def Inv (fs₀ : Files) (path : Path String) (bytes : Bytes) : Config → Prop
  | ⟨.creating, fs⟩ => fs = fs₀
  | ⟨.writing h rest, fs⟩ =>
    Owned fs₀ path fs h (some (.file h.inode)) ∧ (fs.inodes h.inode).data ++ rest = bytes
  | ⟨.syncing h, fs⟩ =>
    Owned fs₀ path fs h (some (.file h.inode)) ∧ (fs.inodes h.inode).data = bytes
  | ⟨.moving h, fs⟩ =>
    Owned fs₀ path fs h (some (.file h.inode)) ∧ fs.inodes h.inode = ⟨bytes, true⟩
  | ⟨.failing h _, fs⟩ => Owned fs₀ path fs h (some (.file h.inode))
  | ⟨.moved h, fs⟩ => ∃ p n, Replaced fs₀ path bytes fs h p n
  | ⟨.opening, fs⟩ => ∃ h p n, Replaced fs₀ path bytes fs h p n
  | ⟨.syncingDir dir, fs⟩ => ∃ h p n, Replaced fs₀ path bytes fs h p n ∧ dir = .dir h.place.1
  | ⟨.done (.error _), fs⟩ =>
    fs = fs₀ ∨ (∃ h, Owned fs₀ path fs h none) ∨ ∃ h p n, Replaced fs₀ path bytes fs h p n
  | ⟨.done (.ok ()), fs⟩ => ∃ h p n, Replaced fs₀ path bytes fs h p n ∧
    (Clean fs₀ → fs.pending = [] ∧ fs.disk (h.place.1, n) = some (.file h.inode))

theorem Replaced.opened {p : DirPath String} {n : String} {dir : Node}
    (hr : Replaced fs₀ path bytes fs h p n) (ho : fs.openPath (parentOrDot path) = .ok dir) :
    dir = .dir h.place.1 := by
  have hparent : parentOrDot path = p := by rw [hr.path_eq]; rfl
  rw [hparent, FileSystem.openPath] at ho
  split at ho
  · cases ho
  · exact Except.ok.inj (ho.symm.trans (hr.kept.resolve hr.dir))

theorem Owned.other {node : Option Node} {n : String} (ho : Owned fs₀ path fs h node)
    (hn : path.fileName = some n) : h.place.2 ≠ n := by
  intro he
  exact ho.name (by rw [hn, he])

theorem Owned.inode {fs' : Files} {node : Option Node} (ho : Owned fs₀ path fs h node)
    {x : Inode UInt8} (hfs : fs' = { fs with inodes := Function.update fs.inodes h.inode x }) :
    Owned fs₀ path fs' h node := by
  refine ⟨ho.kept.inode hfs, ho.dir, ho.name, ?_⟩
  rw [hfs]
  exact ho.here

theorem inv_step {c c' : Config} (hi : Inv fs₀ path bytes c) (hs : Step path bytes c c') :
    Inv fs₀ path bytes c' := by
  cases hs with
  | @create fs fs' temp h hc hname =>
    obtain rfl : fs = fs₀ := hi
    obtain ⟨d, hd, -, rfl, -, -, -, hentries, -, hinodes⟩ := FileSystem.createNew_ok hc
    refine ⟨⟨kept_create hc, hd, hname, ?_⟩, ?_⟩
    · rw [hentries, Function.update_self]
    · rw [hinodes, Function.update_self, List.nil_append]
  | createFails e => exact .inl hi
  | write k hk hle =>
    obtain ⟨ho, hdata⟩ := hi
    refine ⟨ho.inode rfl, ?_⟩
    rw [FileSystem.append_inode, List.append_assoc, List.take_append_drop, hdata]
  | written =>
    obtain ⟨ho, hdata⟩ := hi
    exact ⟨ho, by rwa [List.append_nil] at hdata⟩
  | writeFails e => exact hi.1
  | sync =>
    obtain ⟨ho, hdata⟩ := hi
    refine ⟨ho.inode rfl, ?_⟩
    rw [FileSystem.syncFile_inode, hdata]
  | syncFails e => exact hi.1
  | rename hr =>
    obtain ⟨ho, hinode⟩ := hi
    obtain ⟨p, n, -, -, rfl, -⟩ := FileSystem.rename_ok hr
    obtain ⟨hk, hpresent, habsent, hinodes⟩ :=
      ho.kept.rename ho.dir ho.here (ho.other rfl) hr
    exact ⟨p, n, rfl, hk, ho.dir, ho.other rfl, by rw [hinodes, hinode], hpresent, habsent⟩
  | renameFails e => exact hi.1
  | dropFile =>
    obtain ⟨hk, habsent⟩ := hi.kept.unlink hi.here
    exact .inr (.inl ⟨_, hk, hi.dir, hi.name, habsent⟩)
  | dropPath =>
    obtain ⟨p, n, hr⟩ := hi
    rw [FileSystem.unlink_of_none hr.absent]
    exact ⟨_, p, n, hr⟩
  | openDir ho =>
    obtain ⟨h, p, n, hr⟩ := hi
    exact ⟨h, p, n, hr, hr.opened ho⟩
  | openFails e => exact .inr (.inr hi)
  | syncDir =>
    obtain ⟨h, p, n, hr, rfl⟩ := hi
    refine ⟨h, p, n, ⟨hr.path_eq, hr.kept.syncDir, hr.dir, hr.name, hr.contents, hr.present,
      hr.absent⟩, fun hclean => ⟨hr.kept.syncDir_pending hclean, ?_⟩⟩
    exact (if_pos rfl).trans hr.present
  | syncDirFails e =>
    obtain ⟨h, p, n, hr, -⟩ := hi
    exact .inr (.inr ⟨h, p, n, hr⟩)

theorem inv_run {c : Config} (hr : Run path bytes fs₀ c) : Inv fs₀ path bytes c := by
  induction hr with
  | start => rfl
  | step _ hs ih => exact inv_step ih hs

/-! ## Results -/

theorem Owned.oldOrNew {node : Option Node} (ho : Owned fs₀ path fs h node) :
    OldOrNew fs₀ path bytes fs ∧
      (Clean fs₀ → ∀ r, Recovered fs r → OldOrNew fs₀ path bytes r) := by
  cases path with
  | empty => exact ⟨.inl rfl, fun _ _ _ => .inl rfl⟩
  | root => exact ⟨.inl rfl, fun _ _ _ => .inl rfl⟩
  | file p n =>
    have hne := ho.other rfl
    exact ⟨ho.kept.oldOrNew ho.dir hne (by simp),
      fun hclean r hr => ho.kept.oldOrNew_recovered ho.dir hne (by simp) hclean hr⟩
  | slashed p n dot =>
    have hne := ho.other rfl
    refine ⟨.inl (ho.kept.readFile_slashed ho.dir hne ho.kept.root ho.kept.cwd ho.kept.entries), ?_⟩
    intro hclean r hr
    exact .inl (ho.kept.readFile_slashed ho.dir hne (hr.root.trans ho.kept.root)
      (hr.cwd.trans ho.kept.cwd) (ho.kept.shows_recovered hclean hr))

theorem Replaced.oldOrNew {p : DirPath String} {n : String}
    (hr : Replaced fs₀ path bytes fs h p n) :
    OldOrNew fs₀ path bytes fs ∧
      (Clean fs₀ → ∀ r, Recovered fs r → OldOrNew fs₀ path bytes r) := by
  rw [hr.path_eq]
  exact ⟨hr.kept.oldOrNew hr.dir hr.name fun _ => by rw [hr.contents],
    fun hclean r hrec => hr.kept.oldOrNew_recovered hr.dir hr.name (fun _ => hr.contents) hclean hrec⟩

theorem inv_oldOrNew {c : Config} (hi : Inv fs₀ path bytes c) :
    OldOrNew fs₀ path bytes c.fs ∧
      (Clean fs₀ → ∀ r, Recovered c.fs r → OldOrNew fs₀ path bytes r) := by
  have hsame : c.fs = fs₀ → OldOrNew fs₀ path bytes c.fs ∧
      (Clean fs₀ → ∀ r, Recovered c.fs r → OldOrNew fs₀ path bytes r) := by
    intro he
    rw [he]
    exact ⟨.inl rfl, fun hc r hr => .inl (hc.readFile_recovered hr path)⟩
  obtain ⟨phase, fs⟩ := c
  cases phase with
  | creating => exact hsame hi
  | writing h rest => exact hi.1.oldOrNew
  | syncing h => exact hi.1.oldOrNew
  | moving h => exact hi.1.oldOrNew
  | failing h e => exact Owned.oldOrNew hi
  | moved h =>
    obtain ⟨p, n, hr⟩ := hi
    exact hr.oldOrNew
  | opening =>
    obtain ⟨h, p, n, hr⟩ := hi
    exact hr.oldOrNew
  | syncingDir dir =>
    obtain ⟨h, p, n, hr, -⟩ := hi
    exact hr.oldOrNew
  | done result =>
    cases result with
    | error e =>
      rcases hi with he | ⟨h, ho⟩ | ⟨h, p, n, hr⟩
      · exact hsame he
      · exact ho.oldOrNew
      · exact hr.oldOrNew
    | ok u =>
      obtain ⟨h, p, n, hr, -⟩ := hi
      exact hr.oldOrNew

theorem Replaced.readFile {p : DirPath String} {n : String}
    (hr : Replaced fs₀ path bytes fs h p n) : fs.readFile path = .ok bytes := by
  rw [hr.path_eq, FileSystem.readFile_eq (hr.kept.dirOf hr.dir), hr.present]
  dsimp only
  rw [hr.contents]

/-- With the new name on the disk and nothing pending, a power failure changes nothing. -/
theorem Replaced.readFile_recovered {p : DirPath String} {n : String} {r : Files}
    (hr : Replaced fs₀ path bytes fs h p n) (hc : Clean fs₀) (hpending : fs.pending = [])
    (hdisk : fs.disk (h.place.1, n) = some (.file h.inode)) (hrec : Recovered fs r) :
    r.readFile path = .ok bytes := by
  have hshows := hr.kept.shows_recovered hc hrec
  have hdir := FileSystem.dirOf_mono (hrec.root.trans hr.kept.root) (hrec.cwd.trans hr.kept.cwd)
    (hshows.dirs hr.kept) hr.dir
  rw [hr.path_eq, FileSystem.readFile_eq hdir, hrec.entries_eq_disk hpending, hdisk]
  dsimp only
  rw [hrec.data h.inode (by rw [hr.contents]), hr.contents]

/-- A save that has returned has changed no name but that of the archive. -/
theorem inv_done {result : Except IoError Unit} (hi : Inv fs₀ path bytes ⟨.done result, fs⟩)
    {place : Nat × String} (hne : fs.entries place ≠ fs₀.entries place) :
    ∃ p n d, path = .file p n ∧ fs₀.dirOf p = .ok d ∧ place = (d, n) := by
  have hreplaced : (∃ h p n, Replaced fs₀ path bytes fs h p n) →
      ∃ p n d, path = .file p n ∧ fs₀.dirOf p = .ok d ∧ place = (d, n) := by
    intro hreplaced
    obtain ⟨h, p, n, hr⟩ := hreplaced
    rcases hr.kept.entries place with he | ⟨rfl, -⟩ | ⟨ht, -⟩
    · exact absurd he hne
    · exact absurd (hr.absent.trans hr.kept.free.symm) hne
    · exact ⟨p, n, h.place.1, hr.path_eq, hr.dir, (Option.some.inj ht).symm⟩
  cases result with
  | error e =>
    rcases hi with rfl | ⟨h, ho⟩ | hr
    · exact absurd rfl hne
    · rcases ho.kept.entries place with he | ⟨rfl, -⟩ | ⟨ht, -⟩
      · exact absurd he hne
      · exact absurd (ho.here.trans ho.kept.free.symm) hne
      · cases ht
    · exact hreplaced hr
  | ok u =>
    obtain ⟨h, p, n, hr, -⟩ := hi
    exact hreplaced ⟨h, p, n, hr⟩

theorem load_ok {json : Json} {clocks : RestoreClocks} {contents : Bytes} {s : Store}
    (hread : fs.readFile path = .ok contents) (hs : restore json clocks contents = .ok s) :
    load json clocks fs path = .ok s := by
  rw [load, hread]
  dsimp only
  rw [hs]

/-- What is found after a save that came as far as `c`: what processes saw, or, if the machine
lost its power, something its disk may hold. The disk counts only if it was up to date before. -/
def Found (fs₀ : Files) (c : Config) (r : Files) : Prop :=
  r = c.fs ∨ (Clean fs₀ ∧ Recovered c.fs r)

/-- At every point of every save, whichever calls failed, and after a stop or a power failure
there: the path reads as before or as the new bytes, as the new bytes if the save returned `Ok`;
a save that returned has left no other name behind; and a load over a readable archive yields the
old store or the new one. -/
theorem save_atomic {c : Config} (hr : Run path bytes fs₀ c) :
    (∀ r, Found fs₀ c r → OldOrNew fs₀ path bytes r) ∧
    (c.phase = .done (.ok ()) → ∀ r, Found fs₀ c r → r.readFile path = .ok bytes) ∧
    (∀ result, c.phase = .done result → ∀ place, c.fs.entries place ≠ fs₀.entries place →
      ∃ p n d, path = .file p n ∧ fs₀.dirOf p = .ok d ∧ place = (d, n)) ∧
    (∀ r json clocks old s₀ s₁, Found fs₀ c r → fs₀.readFile path = .ok old →
      restore json clocks old = .ok s₀ → restore json clocks bytes = .ok s₁ →
      load json clocks r path = .ok s₀ ∨ load json clocks r path = .ok s₁) := by
  have hi := inv_run hr
  have hread : ∀ r, Found fs₀ c r → OldOrNew fs₀ path bytes r := by
    intro r hfound
    rcases hfound with rfl | ⟨hclean, hrec⟩
    · exact (inv_oldOrNew hi).1
    · exact (inv_oldOrNew hi).2 hclean r hrec
  obtain ⟨phase, fs⟩ := c
  refine ⟨hread, ?_, ?_, ?_⟩
  · intro hphase r hfound
    subst hphase
    obtain ⟨h, p, n, hrep, hdurable⟩ := hi
    rcases hfound with rfl | ⟨hclean, hrec⟩
    · exact hrep.readFile
    · obtain ⟨hpending, hdisk⟩ := hdurable hclean
      exact hrep.readFile_recovered hclean hpending hdisk hrec
  · intro result hphase place hne
    subst hphase
    exact inv_done hi hne
  · intro r json clocks old s₀ s₁ hfound hold hs₀ hs₁
    rcases hread r hfound with heq | heq
    · exact .inl (load_ok (heq.trans hold) hs₀)
    · exact .inr (load_ok heq hs₁)

/-- A file system with the one file `/archive`. -/
def sample : Files where
  root := 0
  cwd := 0
  entries := fun place => if place = (0, "archive") then some (.file 0) else none
  disk := fun place => if place = (0, "archive") then some (.file 0) else none
  pending := []
  inodes := fun _ => ⟨[1], true⟩
  next := 1
  used := by
    intro place i h
    split at h
    · cases h
      exact Nat.zero_lt_one
    · cases h

def samplePath : Path String := .file ⟨true, []⟩ "archive"

theorem sample_clean : Clean sample := ⟨rfl, rfl, fun _ _ _ => rfl⟩

/-- A save of one byte over it: to the end, and up to a power failure right after the temporary
file was created, before anything is written. -/
theorem save_atomic_sample :
    (saveBytes "archive.x.tmp" sample samplePath [7]).2.readFile samplePath = .ok [7] ∧
    ∃ c, Run samplePath [7] sample c ∧ Recovered c.fs sample ∧
      OldOrNew sample samplePath [7] sample := by
  have hname : samplePath.fileName ≠ some "archive.x.tmp" := by decide
  have hcreate : ∃ fs, sample.createNew (parentOrDot samplePath) "archive.x.tmp" =
      .ok (⟨(0, "archive.x.tmp"), 1⟩, fs) := ⟨_, rfl⟩
  obtain ⟨fs, hc⟩ := hcreate
  obtain ⟨-, -, -, -, hroot, hcwd, hdisk, -, -, hinodes⟩ := FileSystem.createNew_ok hc
  have hrun : Run samplePath [7] sample ⟨.writing ⟨(0, "archive.x.tmp"), 1⟩ [7], fs⟩ :=
    .step .start (.create hc hname)
  have hrec : Recovered fs sample := by
    refine ⟨hroot.symm, hcwd.symm, ⟨[], List.nil_sublist _, by rw [hdisk]; rfl⟩, ?_⟩
    intro i hs
    rw [hinodes] at hs ⊢
    by_cases hi : i = 1
    · rw [hi, Function.update_self] at hs
      cases hs
    · rw [Function.update_of_ne hi]
  exact ⟨(save_atomic (saveBytes_run hname sample [7])).2.1 rfl _ (.inl rfl), _, hrun, hrec,
    (save_atomic hrun).1 _ (.inr ⟨sample_clean, hrec⟩)⟩

end Redlike.Archive
