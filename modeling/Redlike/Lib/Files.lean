import Mathlib.Logic.Function.Basic
import Mathlib.Data.List.Basic

/-!
# A file system with a disk under it

Directories map names to files and directories; the bytes of a file are in its inode.
Processes see `entries`. The disk may lag behind: it holds `disk`, and the updates in
`pending` have not been forced to it, nor have the bytes of an inode that is not marked
as synced. An update reaches the disk as a whole or not at all.
-/
namespace Redlike.Lib.Files

inductive IoError where
  | notFound
  | alreadyExists
  | notADirectory
  | isADirectory
  | other (code : Nat)
  deriving DecidableEq

/-- What a name in a directory stands for. -/
inductive Node where
  | file (inode : Nat)
  | dir (id : Nat)
  deriving DecidableEq

structure Inode (β : Type) where
  data : List β
  synced : Bool

/-- `EBUSY`. -/
def busy : IoError := .other 16

variable {ν β : Type}

/-- The names in all directories. A place is a directory and a name in it. -/
abbrev Entries (ν : Type) := Nat × ν → Option Node

inductive Update (ν : Type) where
  | set (place : Nat × ν) (node : Option Node)
  | move (old new : Nat × ν) (node : Node)

namespace Update

def apply [DecidableEq ν] (e : Entries ν) : Update ν → Entries ν
  | set place node => Function.update e place node
  | move old new node => Function.update (Function.update e new (some node)) old none

def touches (d : Nat) : Update ν → Bool
  | set place _ => place.1 == d
  | move old new _ => old.1 == d || new.1 == d

end Update

/-- Paths of directories; the empty relative path has no names. -/
structure DirPath (ν : Type) where
  absolute : Bool
  names : List ν
  deriving DecidableEq

def DirPath.isEmpty (p : DirPath ν) : Bool := !p.absolute && p.names.isEmpty

inductive Path (ν : Type) where
  | empty
  | root
  | file (dir : DirPath ν) (name : ν)
  /-- A last name with `/` after it, or with `/.`, which has to be that of a directory. -/
  | slashed (dir : DirPath ν) (name : ν) (dot : Bool)
  deriving DecidableEq

namespace Path

/-- `parent` and `file_name` do not see what follows the last name. -/
def parent : Path ν → Option (DirPath ν)
  | empty | root => none
  | file dir _ | slashed dir _ _ => some dir

def fileName : Path ν → Option ν
  | empty | root => none
  | file _ name | slashed _ name _ => some name

theorem eq_of_names {path : Path ν} {p : DirPath ν} {n : ν} (hp : path.parent = some p)
    (hn : path.fileName = some n) : path = .file p n ∨ ∃ dot, path = .slashed p n dot := by
  cases path with
  | empty => cases hp
  | root => cases hp
  | file p' n' =>
    cases hp
    cases hn
    exact .inl rfl
  | slashed p' n' dot =>
    cases hp
    cases hn
    exact .inr ⟨dot, rfl⟩

end Path

structure FileSystem (ν β : Type) where
  root : Nat
  cwd : Nat
  entries : Entries ν
  disk : Entries ν
  pending : List (Update ν)
  inodes : Nat → Inode β
  next : Nat
  used : ∀ place i, entries place = some (.file i) → i < next

/-- An open file that was created under a name. -/
structure Handle (ν : Type) where
  place : Nat × ν
  inode : Nat

/-- Follow names from a directory. -/
def follow (e : Entries ν) : Nat → List ν → Except IoError Node
  | d, [] => .ok (.dir d)
  | d, n :: ns =>
    match e (d, n) with
    | none => .error .notFound
    | some (.dir d) => follow e d ns
    | some (.file i) => if ns.isEmpty then .ok (.file i) else .error .notADirectory

namespace FileSystem

variable (fs : FileSystem ν β)

/-- What a directory path stands for in front of a name: the empty path is the current
directory there. -/
def resolve (p : DirPath ν) : Except IoError Node :=
  follow fs.entries (if p.absolute then fs.root else fs.cwd) p.names

def dirOf (p : DirPath ν) : Except IoError Nat :=
  match fs.resolve p with
  | .ok (.dir d) => .ok d
  | .ok (.file _) => .error .notADirectory
  | .error e => .error e

/-- `open` and `stat`: on its own the empty path stands for nothing. -/
def openPath (p : DirPath ν) : Except IoError Node :=
  if p.isEmpty then .error .notFound else fs.resolve p

def readFile : Path ν → Except IoError (List β)
  | .empty => .error .notFound
  | .root => .error .isADirectory
  | .file p n =>
    match fs.dirOf p with
    | .error e => .error e
    | .ok d =>
      match fs.entries (d, n) with
      | none => .error .notFound
      | some (.dir _) => .error .isADirectory
      | some (.file i) => .ok (fs.inodes i).data
  | .slashed p n _ =>
    match fs.dirOf p with
    | .error e => .error e
    | .ok d =>
      match fs.entries (d, n) with
      | none => .error .notFound
      | some (.dir _) => .error .isADirectory
      | some (.file _) => .error .notADirectory

variable [DecidableEq ν]

/-- Create a file that must not be there yet. -/
def createNew (p : DirPath ν) (n : ν) : Except IoError (Handle ν × FileSystem ν β) :=
  match fs.dirOf p with
  | .error e => .error e
  | .ok d =>
    if (fs.entries (d, n)).isSome then .error .alreadyExists
    else .ok (⟨(d, n), fs.next⟩, {
      fs with
      entries := Function.update fs.entries (d, n) (some (.file fs.next))
      pending := fs.pending ++ [.set (d, n) (some (.file fs.next))]
      inodes := Function.update fs.inodes fs.next ⟨[], false⟩
      next := fs.next + 1
      used := by
        intro place i h
        by_cases hp : place = (d, n)
        · rw [hp, Function.update_self] at h
          cases h
          exact Nat.lt_succ_self _
        · rw [Function.update_of_ne hp] at h
          exact Nat.lt_succ_of_lt (fs.used place i h) })

def append (i : Nat) (bytes : List β) : FileSystem ν β :=
  { fs with inodes := Function.update fs.inodes i ⟨(fs.inodes i).data ++ bytes, false⟩ }

def syncFile (i : Nat) : FileSystem ν β :=
  { fs with inodes := Function.update fs.inodes i ⟨(fs.inodes i).data, true⟩ }

def syncDir (d : Nat) : FileSystem ν β :=
  { fs with
    disk := fun place => if place.1 = d then fs.entries place else fs.disk place
    pending := fs.pending.filter fun u => !u.touches d }

def sync : Node → FileSystem ν β
  | .file i => fs.syncFile i
  | .dir d => fs.syncDir d

/-- Remove a file by name; without one, nothing happens. -/
def unlink (place : Nat × ν) : FileSystem ν β :=
  match fs.entries place with
  | some (.file _) => {
      fs with
      entries := Function.update fs.entries place none
      pending := fs.pending ++ [.set place none]
      used := by
        intro p i h
        by_cases hp : p = place
        · rw [hp, Function.update_self] at h
          cases h
        · rw [Function.update_of_ne hp] at h
          exact fs.used p i h }
  | _ => fs

theorem used_move {old new : Nat × ν} {node : Node} (h : fs.entries old = some node) (p : Nat × ν)
    (i : Nat) (hp : (Update.move old new node).apply fs.entries p = some (.file i)) : i < fs.next := by
  by_cases ho : p = old
  · rw [Update.apply, ho, Function.update_self] at hp
    cases hp
  · rw [Update.apply, Function.update_of_ne ho] at hp
    by_cases hn : p = new
    · rw [hn, Function.update_self] at hp
      exact fs.used old i (h.trans hp)
    · rw [Function.update_of_ne hn] at hp
      exact fs.used p i hp

/-- Rename a file, over another file if there is one. -/
def rename (old : Nat × ν) : Path ν → Except IoError (FileSystem ν β)
  | .empty => .error .notFound
  | .root => .error .isADirectory
  | .file p n =>
    match fs.dirOf p with
    | .error e => .error e
    | .ok d =>
      match h : fs.entries old with
      | none => .error .notFound
      | some node =>
        match fs.entries (d, n) with
        | some (.dir _) => .error .isADirectory
        | _ => .ok {
            fs with
            entries := (Update.move old (d, n) node).apply fs.entries
            pending := fs.pending ++ [.move old (d, n) node]
            used := fs.used_move h }
  | .slashed p n dot =>
    match fs.dirOf p with
    | .error e => .error e
    | .ok d =>
      -- `/.` is looked up as a name in the directory `n`, and cannot be replaced
      if dot then
        match fs.entries (d, n) with
        | none => .error .notFound
        | some (.file _) => .error .notADirectory
        | some (.dir _) => .error busy
      else if (fs.entries old).isSome then .error .notADirectory
      else .error .notFound

end FileSystem

/-! ## Resolution -/

/-- Directories that are found stay found while no directory is renamed or removed. -/
theorem follow_mono {e e' : Entries ν}
    (h : ∀ place x, e place = some (.dir x) → e' place = some (.dir x)) {d x : Nat} {ns : List ν}
    (hf : follow e d ns = .ok (.dir x)) : follow e' d ns = .ok (.dir x) := by
  induction ns generalizing d with
  | nil => exact hf
  | cons n ns ih =>
    rw [follow] at hf ⊢
    cases he : e (d, n) with
    | none => rw [he] at hf; cases hf
    | some node =>
      rw [he] at hf
      cases node with
      | dir d' =>
        rw [h _ _ he]
        exact ih hf
      | file i =>
        dsimp only at hf
        split at hf <;> cases hf

namespace FileSystem

variable {fs r : FileSystem ν β} {p : DirPath ν} {n : ν} {d : Nat}

theorem dirOf_eq_ok : fs.dirOf p = .ok d ↔ fs.resolve p = .ok (.dir d) := by
  unfold dirOf
  rcases fs.resolve p with e | (i | d')
  · simp
  · simp
  · simp

theorem dirOf_eq_notFound : fs.dirOf p = .error .notFound ↔ fs.resolve p = .error .notFound := by
  unfold dirOf
  rcases fs.resolve p with e | (i | d')
  · simp
  · simp
  · simp

theorem resolve_mono (hroot : r.root = fs.root) (hcwd : r.cwd = fs.cwd)
    (h : ∀ place x, fs.entries place = some (.dir x) → r.entries place = some (.dir x))
    (hd : fs.resolve p = .ok (.dir d)) : r.resolve p = .ok (.dir d) := by
  rw [resolve, hroot, hcwd]
  exact follow_mono h hd

theorem dirOf_mono (hroot : r.root = fs.root) (hcwd : r.cwd = fs.cwd)
    (h : ∀ place x, fs.entries place = some (.dir x) → r.entries place = some (.dir x))
    (hd : fs.dirOf p = .ok d) : r.dirOf p = .ok d :=
  dirOf_eq_ok.mpr (resolve_mono hroot hcwd h (dirOf_eq_ok.mp hd))

/-- What a file holds, by its place. -/
theorem readFile_eq (hd : fs.dirOf p = .ok d) :
    fs.readFile (.file p n) = match fs.entries (d, n) with
      | none => .error .notFound
      | some (.dir _) => .error .isADirectory
      | some (.file i) => .ok (fs.inodes i).data := by
  rw [readFile, hd]

/-- What there is to read under a name, by its place. -/
theorem readFile_slashed {dot : Bool} (hd : fs.dirOf p = .ok d) :
    fs.readFile (.slashed p n dot) = match fs.entries (d, n) with
      | none => .error .notFound
      | some (.dir _) => .error .isADirectory
      | some (.file _) => .error .notADirectory := by
  rw [readFile, hd]

theorem append_inode (fs : FileSystem ν β) (i : Nat) (bytes : List β) :
    (fs.append i bytes).inodes i = ⟨(fs.inodes i).data ++ bytes, false⟩ := Function.update_self ..

theorem syncFile_inode (fs : FileSystem ν β) (i : Nat) :
    (fs.syncFile i).inodes i = ⟨(fs.inodes i).data, true⟩ := Function.update_self ..

section Calls

variable [DecidableEq ν] {fs' : FileSystem ν β}

/-- What a created file changes. -/
theorem createNew_ok {h : Handle ν} (hc : fs.createNew p n = .ok (h, fs')) :
    ∃ d, fs.dirOf p = .ok d ∧ fs.entries (d, n) = none ∧ h = ⟨(d, n), fs.next⟩ ∧
      fs'.root = fs.root ∧ fs'.cwd = fs.cwd ∧ fs'.disk = fs.disk ∧
      fs'.entries = Function.update fs.entries h.place (some (.file h.inode)) ∧
      fs'.pending = fs.pending ++ [.set h.place (some (.file h.inode))] ∧
      fs'.inodes = Function.update fs.inodes h.inode ⟨[], false⟩ := by
  unfold createNew at hc
  split at hc
  · cases hc
  · rename_i d hd
    split at hc
    · cases hc
    · rename_i hfree
      cases hc
      exact ⟨d, hd, by simpa using hfree, rfl, rfl, rfl, rfl, rfl, rfl, rfl⟩

theorem createNew_of_free (hd : fs.dirOf p = .ok d) (hfree : fs.entries (d, n) = none) :
    ∃ fs', fs.createNew p n = .ok (⟨(d, n), fs.next⟩, fs') := by
  rw [createNew, hd]
  dsimp only
  rw [hfree]
  exact ⟨_, rfl⟩

theorem rename_of_file {old : Nat × ν} {node : Node} (hd : fs.dirOf p = .ok d)
    (hold : fs.entries old = some node) (hnew : ∀ x, fs.entries (d, n) ≠ some (.dir x)) :
    ∃ fs', fs.rename old (.file p n) = .ok fs' := by
  rw [rename, hd]
  dsimp only
  split
  · rename_i h
    rw [h] at hold
    cases hold
  · split
    · exact absurd ‹_› (hnew _)
    · exact ⟨_, rfl⟩

theorem rename_ok {old : Nat × ν} {path : Path ν} (hr : fs.rename old path = .ok fs') :
    ∃ p n d node, path = .file p n ∧ fs.dirOf p = .ok d ∧ fs.entries old = some node ∧
      (∀ x, fs.entries (d, n) ≠ some (.dir x)) ∧
      fs'.root = fs.root ∧ fs'.cwd = fs.cwd ∧ fs'.disk = fs.disk ∧ fs'.inodes = fs.inodes ∧
      fs'.entries = (Update.move old (d, n) node).apply fs.entries ∧
      fs'.pending = fs.pending ++ [.move old (d, n) node] := by
  cases path with
  | empty => cases hr
  | root => cases hr
  | file p n =>
    rw [rename] at hr
    split at hr
    · cases hr
    · rename_i d hd
      split at hr
      · cases hr
      · rename_i node hnode
        split at hr
        · cases hr
        · rename_i hdir
          cases hr
          exact ⟨p, n, d, node, rfl, hd, hnode, hdir, rfl, rfl, rfl, rfl, rfl, rfl⟩
  | slashed p n dot =>
    rw [rename] at hr
    split at hr
    · cases hr
    · split at hr
      · split at hr <;> cases hr
      · split at hr <;> cases hr

theorem unlink_of_none {place : Nat × ν} (h : fs.entries place = none) : fs.unlink place = fs := by
  unfold unlink
  split
  · rename_i hp
    rw [h] at hp
    cases hp
  · rfl

theorem unlink_of_file {place : Nat × ν} {i : Nat} (h : fs.entries place = some (.file i)) :
    (fs.unlink place).root = fs.root ∧ (fs.unlink place).cwd = fs.cwd ∧
      (fs.unlink place).disk = fs.disk ∧ (fs.unlink place).inodes = fs.inodes ∧
      (fs.unlink place).entries = Function.update fs.entries place none ∧
      (fs.unlink place).pending = fs.pending ++ [.set place none] := by
  unfold unlink
  split
  · exact ⟨rfl, rfl, rfl, rfl, rfl, rfl⟩
  · rename_i hp
    exact absurd h (hp i)

end Calls

end FileSystem

/-! ## Power failures -/

/-- Everything is on the disk. -/
structure Clean (fs : FileSystem ν β) : Prop where
  disk : fs.disk = fs.entries
  pending : fs.pending = []
  synced : ∀ place i, fs.entries place = some (.file i) → (fs.inodes i).synced = true

/-- `r` can be found on the disk of `fs` after a power failure: any of the pending updates
may have reached it, and so may any bytes of a file that was not synced. -/
structure Recovered [DecidableEq ν] (fs r : FileSystem ν β) : Prop where
  root : r.root = fs.root
  cwd : r.cwd = fs.cwd
  entries : ∃ done : List (Update ν), done.Sublist fs.pending ∧ r.entries = done.foldl Update.apply fs.disk
  data : ∀ i, (fs.inodes i).synced = true → (r.inodes i).data = (fs.inodes i).data

/-- What is true of the disk and kept by every pending update is true after a failure. -/
theorem Recovered.keeps [DecidableEq ν] {fs r : FileSystem ν β} (h : Recovered fs r) {P : Entries ν → Prop}
    (hdisk : P fs.disk) (hup : ∀ u ∈ fs.pending, ∀ e, P e → P (u.apply e)) : P r.entries := by
  obtain ⟨done, hsub, hr⟩ := h.entries
  rw [hr]
  exact List.foldlRecOn done Update.apply hdisk fun e he u hu => hup u (hsub.subset hu) e he

theorem Recovered.entries_eq_disk [DecidableEq ν] {fs r : FileSystem ν β} (h : Recovered fs r)
    (hpending : fs.pending = []) : r.entries = fs.disk := by
  obtain ⟨done, hsub, he⟩ := h.entries
  rw [hpending, List.sublist_nil] at hsub
  rw [he, hsub, List.foldl_nil]

/-- A clean file system survives as it is. -/
theorem Clean.readFile_recovered [DecidableEq ν] {fs r : FileSystem ν β} (hc : Clean fs)
    (hr : Recovered fs r) (path : Path ν) : r.readFile path = fs.readFile path := by
  have hentries : r.entries = fs.entries := (hr.entries_eq_disk hc.pending).trans hc.disk
  have hdir : ∀ p, r.dirOf p = fs.dirOf p := by
    intro p
    rw [FileSystem.dirOf, FileSystem.dirOf, FileSystem.resolve, FileSystem.resolve, hentries, hr.root,
      hr.cwd]
  cases path with
  | empty => rfl
  | root => rfl
  | file p n =>
    rw [FileSystem.readFile, FileSystem.readFile, hdir, hentries]
    cases fs.dirOf p with
    | error e => rfl
    | ok d =>
      dsimp only
      cases he : fs.entries (d, n) with
      | none => rfl
      | some node =>
        cases node with
        | dir x => rfl
        | file i =>
          dsimp only
          rw [hr.data i (hc.synced (d, n) i he)]
  | slashed p n dot => rw [FileSystem.readFile, FileSystem.readFile, hdir, hentries]

end Redlike.Lib.Files
