import Redlike.Archive.Atomic
import Redlike.Snapshot.Drift

/-!
# Which paths an archive can have

A path that `load` accepts, because there is no file yet, is one that `save` should be able
to write. Both look at the parent of the path. Of a bare file name it is the empty path,
which stands for the current directory in front of a name, and for nothing where `save`
opens it to sync the directory. And of a path with a slash after its last name it is the same as
of the path without, but no file can be renamed to one.
-/
namespace Redlike.Archive

open Lib.Files
open Resp (Bytes asBytes)
open Store

variable {json : Json} {fs : Files} {path : Path String} {p : DirPath String} {n temp : String}
  {d : Nat} {bytes : Bytes} {store : Store} {dc : DumpClocks} {c c₀ : RestoreClocks}

/-! ## Missing files -/

/-- What a load makes of a path without a file. -/
theorem load_missing (hp : path.parent = some p)
    (hmissing : fs.readFile path = .error .notFound) :
    load json c fs path =
      if !p.isEmpty && !pathExists fs p then .error (.readFile .notFound) else .ok .new := by
  rw [load, hmissing, hp]

/-- A load that found no file found its directory. -/
theorem dirOf_of_load (hp : path.parent = some p) (hn : path.fileName = some n)
    (hmissing : fs.readFile path = .error .notFound)
    (hload : ∃ s, load json c fs path = .ok s) :
    ∃ d, fs.dirOf p = .ok d ∧ fs.entries (d, n) = none := by
  cases hd : fs.dirOf p with
  | ok d =>
    refine ⟨d, rfl, ?_⟩
    rcases Path.eq_of_names hp hn with rfl | ⟨dot, rfl⟩
    · rw [FileSystem.readFile_eq hd] at hmissing
      cases he : fs.entries (d, n) with
      | none => rfl
      | some node =>
        rw [he] at hmissing
        cases node <;> cases hmissing
    · rw [FileSystem.readFile_slashed hd] at hmissing
      cases he : fs.entries (d, n) with
      | none => rfl
      | some node =>
        rw [he] at hmissing
        cases node <;> cases hmissing
  | error e =>
    exfalso
    obtain rfl : e = .notFound := by
      rcases Path.eq_of_names hp hn with rfl | ⟨dot, rfl⟩
      · rw [FileSystem.readFile, hd] at hmissing
        exact Except.error.inj hmissing
      · rw [FileSystem.readFile, hd] at hmissing
        exact Except.error.inj hmissing
    have hres := FileSystem.dirOf_eq_notFound.mp hd
    -- the empty path is the current directory, which is always there
    have hne : p.isEmpty = false := by
      by_contra hp
      rw [Bool.not_eq_false, DirPath.isEmpty, Bool.and_eq_true, List.isEmpty_iff] at hp
      rw [FileSystem.resolve, hp.2] at hres
      cases hres
    obtain ⟨s, hs⟩ := hload
    have hgone : pathExists fs p = false := by
      rw [pathExists, FileSystem.openPath, hne, if_neg (by simp), hres]
    rw [load_missing hp hmissing] at hs
    simp [hne, hgone] at hs

/-! ## Saves over a missing file -/

theorem writeAll_inodes (fs : Files) (i : Nat) (bytes : Bytes) :
    ∃ x, (writeAll fs i bytes).syncFile i = { fs with inodes := Function.update fs.inodes i x } := by
  unfold writeAll
  split
  · exact ⟨_, rfl⟩
  · exact ⟨⟨(fs.inodes i).data ++ bytes, true⟩, by simp [FileSystem.append, FileSystem.syncFile]⟩

/-- In a directory without the file and without the temporary one, all goes well until the
directory is opened. -/
theorem saveBytes_missing (hd : fs.dirOf p = .ok d) (hn : fs.entries (d, n) = none)
    (ht : fs.entries (d, temp) = none) (hne : temp ≠ n) (bytes : Bytes) :
    (saveBytes temp fs (.file p n) bytes).1 =
      if p.isEmpty then .error .notFound else .ok () := by
  obtain ⟨fs₁, hc⟩ := FileSystem.createNew_of_free hd ht
  obtain ⟨-, -, -, -, -, -, -, hentries, -, -⟩ := FileSystem.createNew_ok hc
  obtain ⟨x, hx⟩ := writeAll_inodes fs₁ fs.next bytes
  have hk := (kept_create hc).inode hx
  have hhere : ((writeAll fs₁ fs.next bytes).syncFile fs.next).entries (d, temp) =
      some (.file fs.next) := by
    rw [hx]
    exact (congrFun hentries _).trans (Function.update_self ..)
  have hfree : ((writeAll fs₁ fs.next bytes).syncFile fs.next).entries (d, n) = none := by
    have hplace : (d, n) ≠ (d, temp) := fun he => hne (congrArg Prod.snd he).symm
    rw [hx]
    exact (congrFun hentries _).trans ((Function.update_of_ne hplace ..).trans hn)
  obtain ⟨fs₂, hr⟩ := FileSystem.rename_of_file (n := n) (hk.dirOf hd) hhere (by simp [hfree])
  obtain ⟨hk₂, -, habsent, -⟩ := hk.rename hd hhere hne hr
  rw [saveBytes, show parentOrDot (.file p n) = p from rfl, hc]
  dsimp only
  rw [hr]
  dsimp only
  rw [FileSystem.unlink_of_none habsent, FileSystem.openPath, hk₂.resolve hd]
  cases p.isEmpty <;> rfl

/-- Nothing is saved under a path that does not end in a name. -/
theorem saveBytes_not_file (hpath : ∀ p n, path ≠ .file p n) (temp : String) (fs : Files)
    (bytes : Bytes) : (saveBytes temp fs path bytes).1 ≠ .ok () := by
  unfold saveBytes
  cases fs.createNew (parentOrDot path) temp with
  | error e => simp
  | ok pair =>
    obtain ⟨h, fs₁⟩ := pair
    dsimp only
    cases hr : ((writeAll fs₁ h.inode bytes).syncFile h.inode).rename h.place path with
    | error e => simp
    | ok fs₂ =>
      obtain ⟨p, n, -, -, hp, -⟩ := FileSystem.rename_ok hr
      exact absurd hp (hpath p n)

/-- After a save that returned `Ok` the archive is read back. -/
theorem readFile_saveBytes (hname : path.fileName ≠ some temp)
    (hok : (saveBytes temp fs path bytes).1 = .ok ()) :
    (saveBytes temp fs path bytes).2.readFile path = .ok bytes := by
  have hi := inv_run (saveBytes_run hname fs bytes)
  rw [hok] at hi
  obtain ⟨h, p, n, hr, -⟩ := hi
  exact hr.readFile

/-! ## Loads of a saved store -/

/-- Every deadline still to come at the dump is past at the load, or can be made an instant
there. -/
def Restorable (dc : DumpClocks) (c : RestoreClocks) (store : Store) : Prop :=
  ∀ k v d, store.hashmap.lookup k = some v → isExpired v dc.now = false →
    v.expirationTime = some d →
    persisted (dc.entry k) d ≤ asMillis c.wall.val ∨
      (persisted (dc.entry k) d - asMillis (c.entry k).unix.val < 2^64 ∧
        (c.entry k).instant.val +
          (persisted (dc.entry k) d - asMillis (c.entry k).unix.val) * nanosPerMilli < instantLimit)

/-- `s` has the live entries of `store` whose deadlines are not past at the load: the same keys
and values, and deadlines as far away as the archive says. -/
def Carries (dc : DumpClocks) (c : RestoreClocks) (store s : Store) : Prop :=
  ∀ k w, s.hashmap.lookup k = some w ↔
    ∃ v, store.hashmap.lookup k = some v ∧ isExpired v dc.now = false ∧ w.value = v.value ∧
      ((v.expirationTime = none ∧ w.expirationTime = none) ∨
        ∃ d e, v.expirationTime = some d ∧ w.expirationTime = some e ∧
          asMillis c.wall.val < persisted (dc.entry k) d ∧
          e.val = (c.entry k).instant.val +
            (persisted (dc.entry k) d - asMillis (c.entry k).unix.val) * nanosPerMilli)

theorem restorable_iff :
    (∃ s, fromSnapshot c.wall c.entry (store.toSnapshot dc.now dc.entry) = .ok s) ↔
      Restorable dc c store := by
  rw [fromSnapshot_toSnapshot_ok_iff_converts]
  constructor
  · intro h k v d hl hlive hd
    by_cases hp : isPending (asMillis c.wall.val) (.from (dc.entry k) v) = true
    · refine .inr (tryFrom_ok_iff.mp (h k v hl hlive hp) _ ?_)
      simp [SnapshotValue.from, hd, persisted]
    · rw [isPending_from] at hp
      push Not at hp
      obtain ⟨d', hd', hle⟩ := hp
      obtain rfl : d = d' := Option.some.inj (hd.symm.trans hd')
      exact .inl hle
  · intro h k v hl hlive hp
    refine tryFrom_ok_iff.mpr ?_
    intro t ht
    obtain ⟨d, hd, rfl⟩ := Option.map_eq_some_iff.mp ht
    rcases h k v d hl hlive hd with hle | hfits
    · exact absurd (isPending_from.mp hp d hd) (not_lt.mpr hle)
    · exact hfits

/-- An entry that is converted back from what a dump made of it. -/
theorem tryFrom_from {v w : StoreValue} {dump restore : Clocks}
    (h : StoreValue.tryFrom restore (.from dump v) = .ok w) :
    w.value = v.value ∧ ((v.expirationTime = none ∧ w.expirationTime = none) ∨
      ∃ d e, v.expirationTime = some d ∧ w.expirationTime = some e ∧
        e.val = restore.instant.val +
          (persisted dump d - asMillis restore.unix.val) * nanosPerMilli) := by
  rcases tryFrom_ok h with ⟨hvalue, ⟨hnone, hw⟩ | ⟨t, e, ht, hw, he⟩⟩
  · exact ⟨hvalue, .inl ⟨Option.map_eq_none_iff.mp hnone, hw⟩⟩
  · obtain ⟨d, hd, rfl⟩ := Option.map_eq_some_iff.mp ht
    exact ⟨hvalue, .inr ⟨d, e, hd, hw, he⟩⟩

theorem carries_of_fromSnapshot {s : Store}
    (hs : fromSnapshot c.wall c.entry (store.toSnapshot dc.now dc.entry) = .ok s) :
    Carries dc c store s := by
  intro k w
  rw [lookup_fromSnapshot hs (toSnapshot_nodup _ _ _)]
  constructor
  · intro hrestored
    obtain ⟨sv, hmem, hp, hw⟩ := hrestored
    obtain ⟨v, hl, hlive, rfl⟩ := mem_toSnapshot.mp hmem
    rcases tryFrom_from hw with ⟨hvalue, hnone | ⟨d, e, hd, he, hval⟩⟩
    · exact ⟨v, hl, hlive, hvalue, .inl hnone⟩
    · exact ⟨v, hl, hlive, hvalue, .inr ⟨d, e, hd, he, isPending_from.mp hp d hd, hval⟩⟩
  · intro hcarried
    obtain ⟨v, hl, hlive, hvalue, hdeadline⟩ := hcarried
    have hp : isPending (asMillis c.wall.val) (.from (dc.entry k) v) = true := by
      rw [isPending_from]
      intro d hd
      rcases hdeadline with ⟨hnone, -⟩ | ⟨d', e, hd', -, hlt, -⟩
      · rw [hnone] at hd
        cases hd
      · obtain rfl : d = d' := Option.some.inj (hd.symm.trans hd')
        exact hlt
    -- the restore succeeded, so this entry was converted; the entry is the only one it can be
    obtain ⟨w', hw'⟩ := fromSnapshot_toSnapshot_ok_iff_converts.mp ⟨s, hs⟩ k v hl hlive hp
    refine ⟨_, mem_toSnapshot.mpr ⟨v, hl, hlive, rfl⟩, hp, ?_⟩
    have hsame : w' = w := by
      obtain ⟨hvalue', hdeadline'⟩ := tryFrom_from hw'
      obtain ⟨value, expires⟩ := w
      obtain ⟨value', expires'⟩ := w'
      obtain rfl : value' = value := hvalue'.trans hvalue.symm
      rcases hdeadline with ⟨hnone, rfl⟩ | ⟨d, e, hd, rfl, -, hval⟩
      · rcases hdeadline' with ⟨-, rfl⟩ | ⟨d, e, hd, -, -⟩
        · rfl
        · rw [hnone] at hd
          cases hd
      · rcases hdeadline' with ⟨hnone, -⟩ | ⟨d', e', hd', rfl, hval'⟩
        · rw [hnone] at hd
          cases hd
        · obtain rfl : d = d' := Option.some.inj (hd.symm.trans hd')
          rw [Fin.ext (hval'.trans hval.symm)]
    rw [hw', hsame]

theorem load_of_bytes (hread : fs.readFile path = .ok bytes)
    (hjson : json.fromSlice bytes = some (store.toSnapshot dc.now dc.entry)) :
    (∃ s, load json c fs path = .ok s ∧ Carries dc c store s) ↔ Restorable dc c store := by
  rw [← restorable_iff, load, hread]
  dsimp only
  rw [restore, hjson]
  dsimp only
  cases hs : fromSnapshot c.wall c.entry (store.toSnapshot dc.now dc.entry) with
  | error e => simp
  | ok s => simp [carries_of_fromSnapshot hs]

/-! ## The condition -/

/-- With a readable dump, `save` is `save_bytes`. -/
theorem save_eq (temp : String) (fs : Files) (path : Path String)
    (hdump : dump json dc store = some bytes) :
    ((save json dc temp fs path store).1 = .ok () ↔ (saveBytes temp fs path bytes).1 = .ok ()) ∧
      (save json dc temp fs path store).2 = (saveBytes temp fs path bytes).2 := by
  rw [save, hdump]
  dsimp only
  rcases saveBytes temp fs path bytes with ⟨e | u, fs'⟩
  · simp
  · simp

theorem saveBytes_ok_iff (hmissing : fs.readFile path = .error .notFound)
    (hload : ∃ s, load json c₀ fs path = .ok s)
    (hfree : ∀ d, fs.dirOf (parentOrDot path) = .ok d → fs.entries (d, temp) = none)
    (hname : path.fileName ≠ some temp) (bytes : Bytes) :
    (saveBytes temp fs path bytes).1 = .ok () ↔
      ∃ p n, path = .file p n ∧ p.isEmpty = false := by
  cases path with
  | empty => simp [saveBytes_not_file]
  | root => cases hmissing
  | slashed p n dot => simp [saveBytes_not_file]
  | file p n =>
    obtain ⟨d, hd, hn⟩ := dirOf_of_load rfl rfl hmissing hload
    rw [saveBytes_missing hd hn (hfree d hd) (fun he => hname (congrArg some he.symm))]
    cases hp : p.isEmpty with
    | true => simp [hp]
    | false => simp [hp]

/-- On a file system without faults where a load finds no file: a save of a store succeeds, and
a load then returns its live entries, exactly if the path has a directory in it and ends in a
name, with no slash after it, and the deadlines of the store can be read back. -/
theorem load_and_save_agree_iff (json : Json) (fs : Files) (path : Path String) (temp : String)
    (store : Store) (dc : DumpClocks) (c₀ c : RestoreClocks)
    (hmissing : fs.readFile path = .error .notFound) (hload : ∃ s, load json c₀ fs path = .ok s)
    (hfree : ∀ d, fs.dirOf (parentOrDot path) = .ok d → fs.entries (d, temp) = none)
    (hname : path.fileName ≠ some temp)
    (hjson : (dump json dc store).bind json.fromSlice = some (store.toSnapshot dc.now dc.entry)) :
    ((save json dc temp fs path store).1 = .ok () ∧
      ∃ s, load json c (save json dc temp fs path store).2 path = .ok s ∧ Carries dc c store s) ↔
      (∃ p n, path = .file p n ∧ p.isEmpty = false) ∧ Restorable dc c store := by
  obtain ⟨bytes, hdump, hslice⟩ := Option.bind_eq_some_iff.mp hjson
  obtain ⟨hok, hfs⟩ := save_eq temp fs path hdump
  rw [hok, hfs, saveBytes_ok_iff hmissing hload hfree hname bytes]
  refine and_congr_right fun hparent => ?_
  have hsaved := (saveBytes_ok_iff hmissing hload hfree hname bytes).mpr hparent
  exact load_of_bytes (readFile_saveBytes hname hsaved) hslice

/-! ## Samples -/

/-- `serde_json` on one snapshot and its text. -/
def oneJson (snapshot : Snapshot) (text : Bytes) : Json where
  toVec s := if s = snapshot then some text else none
  fromSlice b := if b = text then some snapshot else none

def emptyJson : Json := oneJson ⟨[]⟩ (asBytes "\x7b\"entries\":[]\x7d")

/-- The snapshot of `a`, which is `x` for a minute. -/
def minuteText : Bytes := asBytes
  "\x7b\"entries\":[\x7b\"key\":[97],\"value\":\x7b\"value\":[120],\"expiration_time_unix\":60000\x7d\x7d]\x7d"

def minuteJson : Json := oneJson ⟨[⟨[97], ⟨[120], some 60000⟩⟩]⟩ minuteText

/-- A current directory `0` with the empty directory `data` in it. -/
def emptyDirs : Files where
  root := 0
  cwd := 0
  entries := fun place => if place = (0, "data") then some (.dir 1) else none
  disk := fun place => if place = (0, "data") then some (.dir 1) else none
  pending := []
  inodes := fun _ => ⟨[], true⟩
  next := 0
  used := by
    intro place i h
    split at h <;> cases h

def noClocks : Clocks := ⟨⟨0, instantLimit_pos⟩, ⟨0, instantLimit_pos⟩⟩

def dumpAtZero : DumpClocks := ⟨noClocks.instant, fun _ => noClocks⟩

def restoreAtZero : RestoreClocks := ⟨noClocks.unix, fun _ => noClocks⟩

/-- `SET a x` and `EXPIRE a 60`. -/
def minuteStore : Store := (expire noClocks.instant [97] 60 (set [97] [120] .new).2).2

def dataPath : Path String := .file ⟨false, ["data"]⟩ "archive"

def barePath : Path String := .file ⟨false, []⟩ "archive"

def slashedPath : Path String := .slashed ⟨false, ["data"]⟩ "archive" false

theorem minuteStore_keys : minuteStore.hashmap.keys = [[97]] := rfl

theorem load_and_save_agree_iff_data :
    (save minuteJson dumpAtZero "archive.x.tmp" emptyDirs dataPath minuteStore).1 = .ok () ∧
      ∃ s, load minuteJson restoreAtZero
          (save minuteJson dumpAtZero "archive.x.tmp" emptyDirs dataPath minuteStore).2 dataPath =
            .ok s ∧
        Carries dumpAtZero restoreAtZero minuteStore s := by
  refine (load_and_save_agree_iff minuteJson emptyDirs dataPath "archive.x.tmp" minuteStore
    dumpAtZero restoreAtZero restoreAtZero rfl ⟨_, rfl⟩ ?_ (by decide) rfl).mpr
      ⟨⟨_, _, rfl, rfl⟩, ?_⟩
  · intro d hd
    exact if_neg (by simp)
  · intro k v d hl hlive hd
    rcases eq_or_ne k [97] with rfl | hk
    · obtain rfl := Option.some.inj hl
      obtain rfl := Option.some.inj hd
      exact .inr ⟨by decide, by decide⟩
    · exfalso
      have hnone : minuteStore.hashmap.lookup k = none := by
        rw [AList.lookup_eq_none, AList.mem_keys]
        simpa [minuteStore_keys] using hk
      rw [hl] at hnone
      cases hnone

/-- A bare file name: the load accepts it, and the save writes the file but reports an error. -/
theorem bare_name_save_fails :
    emptyDirs.readFile barePath = .error .notFound ∧
      load emptyJson restoreAtZero emptyDirs barePath = .ok .new ∧
      (save emptyJson dumpAtZero "archive.x.tmp" emptyDirs barePath .new).1 =
        .error (.writeFile .notFound) := ⟨rfl, rfl, rfl⟩

/-- A slash at the end: the load accepts it, and the file cannot be given the name. -/
example : emptyDirs.readFile slashedPath = .error .notFound ∧
    load emptyJson restoreAtZero emptyDirs slashedPath = .ok .new ∧
    (save emptyJson dumpAtZero "archive.x.tmp" emptyDirs slashedPath .new).1 =
      .error (.writeFile .notADirectory) := ⟨rfl, rfl, rfl⟩

end Redlike.Archive
