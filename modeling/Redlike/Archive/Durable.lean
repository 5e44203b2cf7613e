import Redlike.Lib.Durable
import Redlike.Archive.Model

/-!
# What a power failure can bring to light

A save may begin where an earlier one has failed or was cut short, with updates of that one
still on their way to the disk. So it is not enough that the path reads as before or as the
new bytes: nothing that may ever be found under the name of the archive is anything but a
whole file. `Sound` says so, and every call of a save keeps it.
-/
namespace Redlike.Archive

open Lib.Files
open Resp (Bytes)

variable {S S' : Bytes → Prop} {missing missing' : Prop} {fs fs' r : Files} {p : DirPath String}
  {n : String} {d : Nat} {place : Nat × String} {bytes : Bytes}

/-- Whatever may be found under the name is a file with some bytes of `S`, all on the disk, or,
if it may be missing, nothing. -/
structure Sound (S : Bytes → Prop) (missing : Prop) (fs : Files) (place : Nat × String) : Prop where
  whole : ∀ node, fs.May place node → (node = none ∧ missing) ∨
    ∃ i data, node = some (.file i) ∧ fs.inodes i = ⟨data, true⟩ ∧ S data
  used : ∀ q i, fs.May q (some (.file i)) → i < fs.next
  dirs : ∀ q x node, fs.entries q = some (.dir x) → fs.May q node → node = some (.dir x)

theorem Sound.mono (h : Sound S missing fs place) (hS : ∀ data, S data → S' data)
    (hm : missing → missing') : Sound S' missing' fs place where
  whole node hn := by
    rcases h.whole node hn with ⟨hnone, hmissing⟩ | ⟨i, data, hi, hdata, hs⟩
    · exact .inl ⟨hnone, hm hmissing⟩
    · exact .inr ⟨i, data, hi, hdata, hS data hs⟩
  used := h.used
  dirs := h.dirs

theorem Sound.read (h : Sound S missing fs (d, n)) (hd : fs.dirOf p = .ok d) :
    (fs.readFile (.file p n) = .error .notFound ∧ missing) ∨
      ∃ data, fs.readFile (.file p n) = .ok data ∧ S data := by
  rw [FileSystem.readFile_eq hd]
  rcases h.whole _ (.of_entries fs (d, n)) with ⟨hnone, hm⟩ | ⟨i, data, hi, hdata, hs⟩
  · rw [hnone]
    exact .inl ⟨rfl, hm⟩
  · rw [hi]
    refine .inr ⟨data, ?_, hs⟩
    dsimp only
    rw [hdata]

/-- On a clean file system it is enough to look. -/
theorem sound_of_clean (hc : Clean fs) (h : (fs.entries place = none ∧ missing) ∨
    ∃ i, fs.entries place = some (.file i) ∧ S (fs.inodes i).data) : Sound S missing fs place where
  whole node hn := by
    have hnode := hn.of_clean hc
    rcases h with ⟨hnone, hm⟩ | ⟨i, hi, hs⟩
    · exact .inl ⟨hnode.symm.trans hnone, hm⟩
    · refine .inr ⟨i, (fs.inodes i).data, hnode.symm.trans hi, ?_, hs⟩
      rw [← hc.synced place i hi]
  used q i hm := fs.used q i (hm.of_clean hc)
  dirs q x node hq hm := (hm.of_clean hc).symm.trans hq

/-- A power failure finds only what was possible. -/
theorem Sound.recovered (h : Sound S missing fs place) (hr : Recovered fs r) (hc : Clean r) :
    Sound S missing r place := by
  refine sound_of_clean hc ?_
  rcases h.whole _ (hr.may place) with hnone | ⟨i, data, hi, hdata, hs⟩
  · exact .inl hnone
  · refine .inr ⟨i, hi, ?_⟩
    rw [hr.data i (by rw [hdata]), hdata]
    exact hs

theorem Sound.dirOf_recovered (h : Sound S missing fs place) (hr : Recovered fs r)
    (hd : fs.dirOf p = .ok d) : r.dirOf p = .ok d :=
  FileSystem.dirOf_mono hr.root hr.cwd (fun q x hq => h.dirs q x _ hq (hr.may q)) hd

/-- A call adds nodes, under names of no directory, and leaves the archive's files alone. -/
theorem Sound.grow (h : Sound S missing fs place) {added : Nat × String → Option Node → Prop}
    (hmay : ∀ q node, fs'.May q node → fs.May q node ∨ added q node)
    (hdirs : ∀ q x, fs'.entries q = some (.dir x) → fs.entries q = some (.dir x) ∧
      ∀ node, ¬ added q node)
    (hplace : ∀ node, added place node →
      ∃ i data, node = some (.file i) ∧ fs'.inodes i = ⟨data, true⟩ ∧ S data)
    (hused : ∀ q i, added q (some (.file i)) → i < fs'.next) (hnext : fs.next ≤ fs'.next)
    (hinodes : ∀ i, fs.May place (some (.file i)) → fs'.inodes i = fs.inodes i) :
    Sound S missing fs' place where
  whole node hn := by
    rcases hmay place node hn with hold | hnew
    · rcases h.whole node hold with hnone | ⟨i, data, hi, hdata, hs⟩
      · exact .inl hnone
      · exact .inr ⟨i, data, hi, by rw [hinodes i (hi ▸ hold), hdata], hs⟩
    · exact .inr (hplace node hnew)
  used q i hm := by
    rcases hmay q _ hm with hold | hnew
    · exact lt_of_lt_of_le (h.used q i hold) hnext
    · exact hused q i hnew
  dirs q x node hq hm := by
    obtain ⟨hold, hnone⟩ := hdirs q x hq
    rcases hmay q node hm with hm | hnew
    · exact h.dirs q x node hold hm
    · exact absurd hnew (hnone node)

/-! ## The calls of a save -/

/-- The temporary file is under its own name, and cannot be found under that of the archive. -/
structure Temp (place : Nat × String) (fs : Files) (h : Handle String) : Prop where
  other : h.place ≠ place
  here : fs.entries h.place = some (.file h.inode)
  hidden : ¬ fs.May place (some (.file h.inode))

/-- The archive is there with these bytes, on the disk. -/
def Current (bytes : Bytes) (place : Nat × String) (fs : Files) : Prop :=
  ∃ i, fs.entries place = some (.file i) ∧ fs.inodes i = ⟨bytes, true⟩

/-- How far a save has come. -/
def Reached (bytes : Bytes) (place : Nat × String) (fs : Files) : Phase → Prop
  | .creating => True
  | .writing h rest => Temp place fs h ∧ (fs.inodes h.inode).data ++ rest = bytes
  | .syncing h => Temp place fs h ∧ (fs.inodes h.inode).data = bytes
  | .moving h => Temp place fs h ∧ fs.inodes h.inode = ⟨bytes, true⟩
  | .failing h _ => Temp place fs h
  | .moved h => fs.entries h.place = none ∧ Current bytes place fs
  | .opening => Current bytes place fs
  | .syncingDir dir => Current bytes place fs ∧ dir = .dir place.1
  | .done (.ok ()) => Sound (· = bytes) False fs place
  | .done (.error _) => True

/-- What the calls of a save keep. -/
structure Going (S : Bytes → Prop) (missing : Prop) (bytes : Bytes) (p : DirPath String) (n : String)
    (d : Nat) (c : Config) : Prop where
  dir : c.fs.dirOf p = .ok d
  sound : Sound S missing c.fs (d, n)
  reached : Reached bytes (d, n) c.fs c.phase

section Steps

variable {h : Handle String}

/-- Bytes of the temporary file change, and nothing else. -/
theorem Sound.inode (hs : Sound S missing fs place) (ht : Temp place fs h) {x : Inode UInt8}
    (hfs : fs' = { fs with inodes := Function.update fs.inodes h.inode x }) :
    Sound S missing fs' place ∧ Temp place fs' h := by
  subst hfs
  have hmay : ∀ q node, FileSystem.May { fs with inodes := Function.update fs.inodes h.inode x } q node →
      fs.May q node ∨ False := fun q node hm => .inl hm
  refine ⟨hs.grow hmay (fun q x hq => ⟨hq, fun _ => id⟩) (fun _ => False.elim)
    (fun _ _ => False.elim) le_rfl fun i hi => ?_, ht.other, ht.here, ht.hidden⟩
  refine Function.update_of_ne ?_ ..
  intro he
  subst he
  exact ht.hidden hi

theorem Sound.create {temp : String} (hs : Sound S missing fs (d, n)) (hd : fs.dirOf p = .ok d)
    (hc : fs.createNew p temp = .ok (h, fs')) (hne : temp ≠ n) :
    fs'.dirOf p = .ok d ∧ Sound S missing fs' (d, n) ∧ Temp (d, n) fs' h ∧
      (fs'.inodes h.inode).data = [] := by
  obtain ⟨d', hd', hfree, rfl, hroot, hcwd, -, hentries, -, hinodes⟩ := FileSystem.createNew_ok hc
  obtain rfl : d = d' := Except.ok.inj (hd.symm.trans hd')
  have hother : ((d, temp) : Nat × String) ≠ (d, n) := fun he => hne (congrArg Prod.snd he)
  have hnext := FileSystem.createNew_next hc
  have hfresh : ¬ fs.May (d, n) (some (.file fs.next)) := fun hm => Nat.lt_irrefl _ (hs.used _ _ hm)
  refine ⟨FileSystem.dirOf_mono hroot hcwd ?_ hd, ?_, ⟨hother, ?_, ?_⟩, ?_⟩
  · intro q x hq
    rw [hentries, Function.update_of_ne]
    · exact hq
    · intro he
      rw [he, hfree] at hq
      cases hq
  · refine hs.grow (fun q node hm => hm.of_create hc) ?_ ?_ ?_ (by omega) ?_
    · intro q x hq
      have hqne : q ≠ (d, temp) := by
        intro he
        rw [he, hentries, Function.update_self] at hq
        cases hq
      rw [hentries, Function.update_of_ne hqne] at hq
      exact ⟨hq, fun node hn => hqne hn.1⟩
    · intro node hn
      exact absurd hn.1.symm hother
    · intro q i hi
      obtain ⟨-, hi⟩ := hi
      cases hi
      show fs.next < fs'.next
      omega
    · intro i hi
      rw [hinodes, Function.update_of_ne]
      intro he
      rw [he] at hi
      exact hfresh hi
  · rw [hentries, Function.update_self]
  · intro hm
    rcases hm.of_create hc with hm | ⟨he, -⟩
    · exact hfresh hm
    · exact hother he.symm
  · rw [hinodes, Function.update_self]

theorem Sound.rename (hs : Sound S missing fs (d, n)) (hd : fs.dirOf p = .ok d)
    (ht : Temp (d, n) fs h) (hb : fs.inodes h.inode = ⟨bytes, true⟩) (hS : S bytes)
    (hr : fs.rename h.place (.file p n) = .ok fs') :
    fs'.dirOf p = .ok d ∧ Sound S missing fs' (d, n) ∧ fs'.entries h.place = none ∧
      Current bytes (d, n) fs' := by
  obtain ⟨p', n', d', node, hpath, hd', hold, hnoDir, hroot, hcwd, -, hinodes, hentries, -⟩ :=
    FileSystem.rename_ok hr
  cases hpath
  obtain rfl : d = d' := Except.ok.inj (hd.symm.trans hd')
  obtain rfl : Node.file h.inode = node := Option.some.inj (ht.here.symm.trans hold)
  have hnext := FileSystem.rename_next hr
  have htemp : fs'.entries h.place = none := by
    rw [hentries, Update.apply, Function.update_self]
  have harchive : fs'.entries (d, n) = some (.file h.inode) := by
    rw [hentries, Update.apply, Function.update_of_ne ht.other.symm, Function.update_self]
  have hrest (q : Nat × String) (ho : q ≠ h.place) (hn : q ≠ (d, n)) :
      fs'.entries q = fs.entries q := by
    rw [hentries, Update.apply, Function.update_of_ne ho, Function.update_of_ne hn]
  refine ⟨FileSystem.dirOf_mono hroot hcwd ?_ hd, ?_, htemp, h.inode, harchive, by rw [hinodes, hb]⟩
  · intro q x hq
    rw [hrest q]
    · exact hq
    · intro he
      rw [he, ht.here] at hq
      cases hq
    · intro he
      rw [he] at hq
      exact hnoDir x hq
  · refine hs.grow (fun q node hm => hm.of_rename hd ht.here hr) ?_ ?_ ?_ hnext.ge
      (fun i _ => by rw [hinodes])
    · intro q x hq
      have ho : q ≠ h.place := by
        intro he
        rw [he, htemp] at hq
        cases hq
      have hn : q ≠ (d, n) := by
        intro he
        rw [he, harchive] at hq
        cases hq
      rw [hrest q ho hn] at hq
      refine ⟨hq, fun node hadd => ?_⟩
      rcases hadd with ⟨he, -⟩ | ⟨he, -⟩
      · exact ho he
      · exact hn he
    · intro node hadd
      rcases hadd with ⟨he, -⟩ | ⟨-, hnode⟩
      · exact absurd he.symm ht.other
      · exact ⟨h.inode, bytes, hnode, by rw [hinodes, hb], hS⟩
    · intro q i hadd
      rcases hadd with ⟨-, hnone⟩ | ⟨-, hi⟩
      · cases hnone
      · cases hi
        rw [hnext]
        exact hs.used h.place h.inode (by rw [← ht.here]; exact .of_entries fs h.place)

/-- The temporary file is removed by name. -/
theorem Sound.unlink (hs : Sound S missing fs (d, n)) (hd : fs.dirOf p = .ok d)
    (ht : Temp (d, n) fs h) :
    (fs.unlink h.place).dirOf p = .ok d ∧ Sound S missing (fs.unlink h.place) (d, n) := by
  obtain ⟨hroot, hcwd, -, hinodes, hentries, -⟩ := FileSystem.unlink_of_file ht.here
  have hnext := FileSystem.unlink_next fs h.place
  refine ⟨FileSystem.dirOf_mono hroot hcwd ?_ hd, ?_⟩
  · intro q x hq
    rw [hentries, Function.update_of_ne]
    · exact hq
    · intro he
      rw [he, ht.here] at hq
      cases hq
  · refine hs.grow (fun q node hm => hm.of_unlink) ?_ ?_ ?_ hnext.ge (fun i _ => by rw [hinodes])
    · intro q x hq
      have hne : q ≠ h.place := by
        intro he
        rw [he, hentries, Function.update_self] at hq
        cases hq
      rw [hentries, Function.update_of_ne hne] at hq
      exact ⟨hq, fun node hadd => hne hadd.1⟩
    · intro node hadd
      exact absurd hadd.1.symm ht.other
    · intro q i hadd
      cases hadd.2

/-- The directory is forced to the disk: only what is there now may be found. -/
theorem Sound.syncDir (hs : Sound S missing fs (d, n)) (hc : Current bytes (d, n) fs) :
    Sound S missing (fs.syncDir d) (d, n) ∧ Sound (· = bytes) False (fs.syncDir d) (d, n) := by
  obtain ⟨i, hi, hb⟩ := hc
  refine ⟨⟨fun node hm => hs.whole node hm.of_syncDir, fun q j hm => hs.used q j hm.of_syncDir,
    fun q x node hq hm => hs.dirs q x node hq hm.of_syncDir⟩, fun node hm => ?_,
    fun q j hm => hs.used q j hm.of_syncDir, fun q x node hq hm => hs.dirs q x node hq hm.of_syncDir⟩
  have hnode := hm.of_synced rfl
  exact .inr ⟨i, bytes, hnode.symm.trans hi, hb, rfl⟩

/-- Every call of a save, whether it fails or not. Only a path that ends in its name comes to
hold the bytes. -/
theorem Going.step {path : Path String} {c c' : Config} (hg : Going S missing bytes p n d c)
    (hp : path.parent = some p) (hn : path.fileName = some n) (hS : path = .file p n → S bytes)
    (hs : Step path bytes c c') : Going S missing bytes p n d c' := by
  obtain ⟨hd, hsound, hr⟩ := hg
  have hparent : parentOrDot path = p := by rw [parentOrDot, hp]; rfl
  cases hs with
  | @create fs fs' temp h hc hname =>
    rw [hparent] at hc
    have hne : temp ≠ n := by
      rintro rfl
      exact hname hn
    obtain ⟨hd', hsound', ht, hdata⟩ := hsound.create hd hc hne
    exact ⟨hd', hsound', ht, by rw [hdata, List.nil_append]⟩
  | createFails e => exact ⟨hd, hsound, trivial⟩
  | @write fs h rest k hk hle =>
    obtain ⟨ht, hdata⟩ := hr
    obtain ⟨hsound', ht'⟩ := hsound.inode ht rfl
    refine ⟨hd, hsound', ht', ?_⟩
    rw [FileSystem.append_inode, List.append_assoc, List.take_append_drop, hdata]
  | written => exact ⟨hd, hsound, hr.1, by simpa using hr.2⟩
  | writeFails e => exact ⟨hd, hsound, hr.1⟩
  | @sync fs h =>
    obtain ⟨ht, hdata⟩ := hr
    obtain ⟨hsound', ht'⟩ := hsound.inode ht rfl
    refine ⟨hd, hsound', ht', ?_⟩
    rw [FileSystem.syncFile_inode, hdata]
  | syncFails e => exact ⟨hd, hsound, hr.1⟩
  | rename hren =>
    obtain ⟨p', n', -, -, rfl, -⟩ := FileSystem.rename_ok hren
    cases hp
    cases hn
    obtain ⟨hd', hsound', htemp, hcur⟩ := hsound.rename hd hr.1 hr.2 (hS rfl) hren
    exact ⟨hd', hsound', htemp, hcur⟩
  | renameFails e => exact ⟨hd, hsound, hr.1⟩
  | dropFile =>
    obtain ⟨hd', hsound'⟩ := hsound.unlink hd hr
    exact ⟨hd', hsound', trivial⟩
  | dropPath =>
    rw [FileSystem.unlink_of_none hr.1]
    exact ⟨hd, hsound, hr.2⟩
  | @openDir fs dir ho =>
    refine ⟨hd, hsound, hr, ?_⟩
    rw [hparent, FileSystem.openPath] at ho
    split at ho
    · cases ho
    · exact Except.ok.inj (ho.symm.trans (FileSystem.dirOf_eq_ok.mp hd))
  | openFails e => exact ⟨hd, hsound, trivial⟩
  | @syncDir fs dir =>
    obtain ⟨hcur, rfl⟩ := hr
    obtain ⟨hsound', hpinned⟩ := hsound.syncDir hcur
    exact ⟨hd, hsound', hpinned⟩
  | syncDirFails e => exact ⟨hd, hsound, trivial⟩

end Steps
end Redlike.Archive
