import Redlike.Lib.Files
import Redlike.Snapshot.Model

/-!
# The archive file

`load`, `save` and `save_bytes` over a file system. A save is given twice. `saveBytes` is
its code on a file system without faults. `Step` is the code call by call: a write may take
part of the bytes, any call may fail for reasons of its own, and a process may be gone
after any step. The name of the temporary file is random; it is one that is not in use and
not the name of the archive. The JSON text of a snapshot is a parameter.
-/
namespace Redlike.Archive

open Lib.Files
open Resp (Bytes)
open Store

abbrev Files := FileSystem String UInt8

inductive RestoreError where
  | invalidSnapshot
  | invalidData (e : SnapshotError)
  deriving DecidableEq

inductive ArchiveError where
  | readFile (e : IoError)
  | invalidArchive (e : RestoreError)
  | invalidStore
  | writeFile (e : IoError)
  deriving DecidableEq

/-- `serde_json::to_vec` and `serde_json::from_slice` of a snapshot. -/
structure Json where
  toVec : Snapshot → Option Bytes
  fromSlice : Bytes → Option Snapshot

/-- What the clocks show to a dump: once for the filter, and once for each entry. -/
structure DumpClocks where
  now : Instant
  entry : Key → Clocks

/-- What they show to a restore. -/
structure RestoreClocks where
  wall : SystemTime
  entry : Key → Clocks

def dump (json : Json) (c : DumpClocks) (store : Store) : Option Bytes :=
  json.toVec (store.toSnapshot c.now c.entry)

def restore (json : Json) (c : RestoreClocks) (bytes : Bytes) : Except RestoreError Store :=
  match json.fromSlice bytes with
  | none => .error .invalidSnapshot
  | some snapshot =>
    match fromSnapshot c.wall c.entry snapshot with
    | .ok store => .ok store
    | .error e => .error (.invalidData e)

/-- `Path::exists`. -/
def pathExists (fs : Files) (p : DirPath String) : Bool :=
  match fs.openPath p with
  | .ok _ => true
  | .error _ => false

def load (json : Json) (c : RestoreClocks) (fs : Files) (path : Path String) :
    Except ArchiveError Store :=
  match fs.readFile path with
  | .ok contents =>
    match restore json c contents with
    | .ok store => .ok store
    | .error e => .error (.invalidArchive e)
  | .error .notFound =>
    match path.parent with
    | some parent =>
      if !parent.isEmpty && !pathExists fs parent then .error (.readFile .notFound) else .ok .new
    | none => .ok .new
  | .error e => .error (.readFile e)

/-- `path.parent().unwrap_or(Path::new("."))`. -/
def parentOrDot (path : Path String) : DirPath String := path.parent.getD ⟨false, ["."]⟩

/-- `write_all`, which writes nothing if there is nothing to write. -/
def writeAll (fs : Files) (inode : Nat) (bytes : Bytes) : Files :=
  if bytes.isEmpty then fs else fs.append inode bytes

/-- `save_bytes` where nothing fails but what the file system refuses. `temp` is the name
that was drawn for the temporary file; a dropped one is removed by name, which does nothing
once it was renamed. -/
def saveBytes (temp : String) (fs : Files) (path : Path String) (bytes : Bytes) :
    Except IoError Unit × Files :=
  match fs.createNew (parentOrDot path) temp with
  | .error e => (.error e, fs)
  | .ok (h, fs) =>
    let fs := (writeAll fs h.inode bytes).syncFile h.inode
    match fs.rename h.place path with
    | .error e => (.error e, fs.unlink h.place)
    | .ok fs =>
      let fs := fs.unlink h.place
      match fs.openPath (parentOrDot path) with
      | .error e => (.error e, fs)
      | .ok dir => (.ok (), fs.sync dir)

def save (json : Json) (c : DumpClocks) (temp : String) (fs : Files) (path : Path String)
    (store : Store) : Except ArchiveError Unit × Files :=
  match dump json c store with
  | none => (.error .invalidStore, fs)
  | some bytes =>
    match saveBytes temp fs path bytes with
    | (.ok (), fs) => (.ok (), fs)
    | (.error e, fs) => (.error (.writeFile e), fs)

/-! ## Call by call -/

/-- Where `save_bytes` is. -/
inductive Phase where
  | creating
  | writing (h : Handle String) (rest : Bytes)
  | syncing (h : Handle String)
  | moving (h : Handle String)
  /-- A call failed; the temporary file is still to be dropped. -/
  | failing (h : Handle String) (e : IoError)
  /-- Renamed; the path of the temporary file is still to be dropped. -/
  | moved (h : Handle String)
  | opening
  | syncingDir (dir : Node)
  | done (result : Except IoError Unit)

structure Config where
  phase : Phase
  fs : Files

inductive Step (path : Path String) (bytes : Bytes) : Config → Config → Prop where
  | create {fs fs' : Files} {temp : String} {h : Handle String}
      (hc : fs.createNew (parentOrDot path) temp = .ok (h, fs'))
      (hname : path.fileName ≠ some temp) :
      Step path bytes ⟨.creating, fs⟩ ⟨.writing h bytes, fs'⟩
  | createFails {fs : Files} (e : IoError) : Step path bytes ⟨.creating, fs⟩ ⟨.done (.error e), fs⟩
  | write {fs : Files} {h : Handle String} {rest : Bytes} (k : Nat) (hk : 0 < k)
      (hle : k ≤ rest.length) :
      Step path bytes ⟨.writing h rest, fs⟩
        ⟨.writing h (rest.drop k), fs.append h.inode (rest.take k)⟩
  | written {fs : Files} {h : Handle String} : Step path bytes ⟨.writing h [], fs⟩ ⟨.syncing h, fs⟩
  | writeFails {fs : Files} {h : Handle String} {rest : Bytes} (e : IoError) :
      Step path bytes ⟨.writing h rest, fs⟩ ⟨.failing h e, fs⟩
  | sync {fs : Files} {h : Handle String} :
      Step path bytes ⟨.syncing h, fs⟩ ⟨.moving h, fs.syncFile h.inode⟩
  | syncFails {fs : Files} {h : Handle String} (e : IoError) :
      Step path bytes ⟨.syncing h, fs⟩ ⟨.failing h e, fs⟩
  | rename {fs fs' : Files} {h : Handle String} (hr : fs.rename h.place path = .ok fs') :
      Step path bytes ⟨.moving h, fs⟩ ⟨.moved h, fs'⟩
  | renameFails {fs : Files} {h : Handle String} (e : IoError) :
      Step path bytes ⟨.moving h, fs⟩ ⟨.failing h e, fs⟩
  | dropFile {fs : Files} {h : Handle String} {e : IoError} :
      Step path bytes ⟨.failing h e, fs⟩ ⟨.done (.error e), fs.unlink h.place⟩
  | dropPath {fs : Files} {h : Handle String} :
      Step path bytes ⟨.moved h, fs⟩ ⟨.opening, fs.unlink h.place⟩
  | openDir {fs : Files} {dir : Node} (ho : fs.openPath (parentOrDot path) = .ok dir) :
      Step path bytes ⟨.opening, fs⟩ ⟨.syncingDir dir, fs⟩
  | openFails {fs : Files} (e : IoError) : Step path bytes ⟨.opening, fs⟩ ⟨.done (.error e), fs⟩
  | syncDir {fs : Files} {dir : Node} :
      Step path bytes ⟨.syncingDir dir, fs⟩ ⟨.done (.ok ()), fs.sync dir⟩
  | syncDirFails {fs : Files} {dir : Node} (e : IoError) :
      Step path bytes ⟨.syncingDir dir, fs⟩ ⟨.done (.error e), fs⟩

/-- A save that was begun on `fs`, up to any point of it. -/
inductive Run (path : Path String) (bytes : Bytes) (fs : Files) : Config → Prop where
  | start : Run path bytes fs ⟨.creating, fs⟩
  | step {c c' : Config} (hr : Run path bytes fs c) (hs : Step path bytes c c') :
      Run path bytes fs c'

/-- Without faults the calls come one after another. -/
theorem saveBytes_run {temp : String} {path : Path String}
    (hname : path.fileName ≠ some temp) (fs : Files) (bytes : Bytes) :
    Run path bytes fs
      ⟨.done (saveBytes temp fs path bytes).1, (saveBytes temp fs path bytes).2⟩ := by
  unfold saveBytes
  cases hc : fs.createNew (parentOrDot path) temp with
  | error e => exact .step .start (.createFails e)
  | ok pair =>
    obtain ⟨h, fs₁⟩ := pair
    have hcreated : Run path bytes fs ⟨.writing h bytes, fs₁⟩ := .step .start (.create hc hname)
    have hwritten : Run path bytes fs ⟨.syncing h, writeAll fs₁ h.inode bytes⟩ := by
      cases bytes with
      | nil => exact .step hcreated .written
      | cons b bytes =>
        have hall := Run.step hcreated (.write (b :: bytes).length (by simp) (Nat.le_refl _))
        rw [List.drop_length, List.take_length] at hall
        exact .step hall .written
    have hsynced := Run.step hwritten .sync
    dsimp only
    cases hr : ((writeAll fs₁ h.inode bytes).syncFile h.inode).rename h.place path with
    | error e => exact .step (.step hsynced (.renameFails e)) .dropFile
    | ok fs₂ =>
      have hrenamed : Run path bytes fs ⟨.opening, fs₂.unlink h.place⟩ :=
        .step (.step hsynced (.rename hr)) .dropPath
      dsimp only
      cases ho : (fs₂.unlink h.place).openPath (parentOrDot path) with
      | error e => exact .step hrenamed (.openFails e)
      | ok dir => exact .step (.step hrenamed (.openDir ho)) .syncDir

end Redlike.Archive
