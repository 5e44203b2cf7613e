import Redlike.Archive.Atomic
import Redlike.Archive.Durable
import Redlike.Archive.Paths
import Redlike.Server.Shutdown
import Redlike.Store.Sweep

/-!
# One life after another

`run_server` over and over on one machine: it loads the archive and ends with the error if it
cannot, serves, and saves when it is shut down. A process may be gone at any point, and so may the
power; what is then on the disk is what the next one finds. Saves may fail at any call, leave
what they have written behind, and be followed by others.
-/
namespace Redlike

open Resp Store Lib Lib.Files
open Archive (ArchiveError Files Json RestoreClocks)

/-- What runs on the machine. -/
inductive Process (κ : Type) where
  | off
  /-- The start has failed, and `main` is about to return the error. -/
  | refused (e : ArchiveError)
  | serving (x : Server κ)
  /-- The server is in `save_bytes`. -/
  | saving (x : Server κ) (bytes : Bytes) (phase : Archive.Phase)

/-- No server runs. -/
def Process.IsDown {κ : Type} : Process κ → Prop
  | .off | .refused _ => True
  | .serving _ | .saving .. => False

/-- `begun` are the archives whose saving has begun, in order. -/
structure World (κ : Type) where
  fs : Files
  process : Process κ
  begun : List Bytes

namespace World

variable {κ : Type}

def start (fs : Files) : World κ := ⟨fs, .off, []⟩

variable [DecidableEq κ] (constantTimeEq : Bytes → Bytes → Bool) (alloc : Allocator)
  (authPassword : Option Bytes) (json : Json) (path : Path String)
  (G : Server κ → Server.Act κ → Prop)

inductive Step : World κ → World κ → Prop where
  /-- `run_server` has loaded the archive. -/
  | boot {fs : Files} {begun : List Bytes} {s : Store} (c : RestoreClocks) (t : Instant)
      (h : Archive.load json c fs path = .ok s) :
      Step ⟨fs, .off, begun⟩ ⟨fs, .serving (.start t s), begun⟩
  /-- It could not load it. -/
  | refuse {fs : Files} {begun : List Bytes} {e : ArchiveError} (c : RestoreClocks)
      (h : Archive.load json c fs path = .error e) :
      Step ⟨fs, .off, begun⟩ ⟨fs, .refused e, begun⟩
  /-- The outcome of `save` is not the server's to choose. -/
  | serve {fs : Files} {begun : List Bytes} {x x' : Server κ} {a : Server.Act κ}
      (hs : Server.Step constantTimeEq alloc authPassword true x a x') (hg : G x a)
      (ha : ∀ ok, a ≠ .write ok) : Step ⟨fs, .serving x, begun⟩ ⟨fs, .serving x', begun⟩
  | save {fs : Files} {begun : List Bytes} {x : Server κ} {d : Dump} {bytes : Bytes}
      (hs : x.stage = .saving d) (hb : json.toVec d.snapshot = some bytes) :
      Step ⟨fs, .serving x, begun⟩ ⟨fs, .saving x bytes .creating, begun ++ [bytes]⟩
  | write {fs fs' : Files} {begun : List Bytes} {x : Server κ} {bytes : Bytes}
      {phase phase' : Archive.Phase}
      (hs : Archive.Step path bytes ⟨phase, fs⟩ ⟨phase', fs'⟩) :
      Step ⟨fs, .saving x bytes phase, begun⟩ ⟨fs', .saving x bytes phase', begun⟩
  /-- The process has come to its end, or is killed. -/
  | stop {fs : Files} {begun : List Bytes} {process : Process κ} :
      Step ⟨fs, process, begun⟩ ⟨fs, .off, begun⟩
  | power {fs r : Files} {begun : List Bytes} {process : Process κ} (hr : Recovered fs r)
      (hc : Clean r) : Step ⟨fs, process, begun⟩ ⟨r, .off, begun⟩

inductive Run : World κ → World κ → Prop where
  | nil (w : World κ) : Run w w
  | snoc {w w' w'' : World κ} (hr : Run w w')
      (hs : Step constantTimeEq alloc authPassword json path G w' w'') : Run w w''

variable {constantTimeEq alloc authPassword json path G} {fs₀ : Files} {p : DirPath String}
  {n : String} {w w' : World κ}

/-! ## Processes -/

theorem load_started {c : RestoreClocks} {fs : Files} {s : Store}
    (h : Archive.load json c fs path = .ok s) : Started s := by
  rw [Archive.load] at h
  split at h
  · split at h
    · rename_i hs
      obtain rfl := Except.ok.inj h
      rw [Archive.restore] at hs
      split at hs
      · cases hs
      · split at hs
        · rename_i hok
          obtain rfl := Except.ok.inj hs
          exact .inr ⟨_, _, _, hok⟩
        · cases hs
    · cases h
  · split at h
    · split at h
      · cases h
      · exact .inl (Except.ok.inj h).symm
    · exact .inl (Except.ok.inj h).symm
  · cases h

/-- Every process has its server from a store that was loaded, and saves what that server has
dumped. -/
def Alive (constantTimeEq : Bytes → Bytes → Bool) (alloc : Allocator) (authPassword : Option Bytes)
    (json : Json) (path : Path String) (G : Server κ → Server.Act κ → Prop) (fs : Files) :
    Process κ → Prop
  | .off | .refused _ => True
  | .serving x => ∃ t s₀, Started s₀ ∧
      Server.Run constantTimeEq alloc authPassword true G (.start t s₀) x
  | .saving x bytes phase => (∃ t s₀, Started s₀ ∧
      Server.Run constantTimeEq alloc authPassword true G (.start t s₀) x) ∧
      (∃ d, x.stage = .saving d ∧ json.toVec d.snapshot = some bytes) ∧
      ∃ fs₁, Archive.Run path bytes fs₁ ⟨phase, fs⟩

theorem alive_run {fs₀ : Files}
    (hr : Run constantTimeEq alloc authPassword json path G (.start fs₀) w) :
    Alive constantTimeEq alloc authPassword json path G w.fs w.process := by
  induction hr with
  | nil => trivial
  | snoc _ hs ih =>
    cases hs with
    | boot c t h => exact ⟨t, _, load_started h, .nil _⟩
    | refuse => trivial
    | serve hs hg ha =>
      obtain ⟨t, s₀, hs₀, hrun⟩ := ih
      exact ⟨t, s₀, hs₀, hrun.snoc hg hs⟩
    | save hs hb => exact ⟨ih, ⟨_, hs, hb⟩, _, .start⟩
    | write hs =>
      obtain ⟨hrun, hd, fs₁, hw⟩ := ih
      exact ⟨hrun, hd, fs₁, .step hw hs⟩
    | stop => trivial
    | power => trivial

/-! ## The archive -/

/-- The archive was there at the beginning, or its saving has begun; under a path with a slash
after its name nothing can be. -/
def Known (fs₀ : Files) (path : Path String) (begun : List Bytes) (data : Bytes) : Prop :=
  (∃ p n, path = .file p n) ∧ (fs₀.readFile path = .ok data ∨ data ∈ begun)

/-- Before the first server nothing is touched. From then on, whatever may be found under the
name of the archive was there at the beginning, or is an archive whose saving has begun. -/
def Archived (fs₀ : Files) (path : Path String) (p : DirPath String) (n : String) (w : World κ) :
    Prop :=
  (w.process.IsDown ∧ Clean w.fs ∧ w.fs.readFile path = fs₀.readFile path) ∨
    ∃ d, w.fs.dirOf p = .ok d ∧
      Archive.Sound (Known fs₀ path w.begun) (fs₀.readFile path = .error .notFound) w.fs (d, n) ∧
      ∀ x bytes phase, w.process = .saving x bytes phase →
        bytes ∈ w.begun ∧ Archive.Reached bytes (d, n) w.fs phase

omit [DecidableEq κ] in
theorem Archived.read (hp : path.parent = some p) (hn : path.fileName = some n)
    (h : Archived fs₀ path p n w) :
    w.fs.readFile path = fs₀.readFile path ∨ ∃ bytes ∈ w.begun, w.fs.readFile path = .ok bytes := by
  rcases h with ⟨-, -, hread⟩ | ⟨d, hd, hsound, -⟩
  · exact .inl hread
  · rcases Path.eq_of_names hp hn with rfl | ⟨dot, rfl⟩
    · rcases hsound.read hd with ⟨hread, hmissing⟩ | ⟨data, hread, -, hdata | hdata⟩
      · exact .inl (hread.trans hmissing.symm)
      · exact .inl (hread.trans hdata.symm)
      · exact .inr ⟨data, hdata, hread⟩
    · left
      rcases hsound.whole _ (.of_entries w.fs (d, n)) with ⟨hnone, hmissing⟩ | ⟨_, _, -, -, ⟨_, _, h⟩, -⟩
      · rw [FileSystem.readFile_slashed hd, hnone, hmissing]
      · cases h

/-- A load that succeeds on a clean file system has found a file or a place for one. -/
theorem sound_of_load {fs : Files} (hc : Clean fs) (hp : path.parent = some p)
    (hn : path.fileName = some n) (hread : fs.readFile path = fs₀.readFile path)
    {c : RestoreClocks} {s : Store} (h : Archive.load json c fs path = .ok s) :
    ∃ d, fs.dirOf p = .ok d ∧
      Archive.Sound (Known fs₀ path []) (fs₀.readFile path = .error .notFound) fs (d, n) := by
  cases hr : fs.readFile path with
  | error e =>
    obtain rfl : e = .notFound := by
      rw [Archive.load, hr] at h
      cases e with
      | notFound => rfl
      | _ => cases h
    obtain ⟨d, hd, hnone⟩ := Archive.dirOf_of_load hp hn hr ⟨s, h⟩
    exact ⟨d, hd, Archive.sound_of_clean hc (.inl ⟨hnone, hread ▸ hr⟩)⟩
  | ok data =>
    rcases Path.eq_of_names hp hn with rfl | ⟨dot, rfl⟩
    · rw [FileSystem.readFile] at hr
      split at hr
      · cases hr
      · rename_i d hd
        split at hr
        · cases hr
        · cases hr
        · rename_i i hi
          refine ⟨d, hd, Archive.sound_of_clean hc (.inr ⟨i, hi, ⟨p, n, rfl⟩, .inl ?_⟩)⟩
          rw [← hread, FileSystem.readFile_eq hd, hi]
    · rw [FileSystem.readFile] at hr
      split at hr
      · cases hr
      · split at hr <;> cases hr

theorem Known.mono {begun begun' : List Bytes} (hb : begun ⊆ begun') {data : Bytes}
    (h : Known fs₀ path begun data) : Known fs₀ path begun' data :=
  ⟨h.1, h.2.imp_right fun hm => hb hm⟩

theorem Archived.step (hp : path.parent = some p) (hn : path.fileName = some n)
    (h : Archived fs₀ path p n w)
    (hs : Step constantTimeEq alloc authPassword json path G w w') : Archived fs₀ path p n w' := by
  cases hs with
  | @boot fs begun s c t hload =>
    right
    rcases h with ⟨-, hc, hread⟩ | ⟨d, hd, hsound, -⟩
    · obtain ⟨d, hd, hsound⟩ := sound_of_load hc hp hn hread hload
      exact ⟨d, hd, hsound.mono (fun _ => .mono (List.nil_subset _)) id, fun _ _ _ hp => by cases hp⟩
    · exact ⟨d, hd, hsound, fun _ _ _ hp => by cases hp⟩
  | refuse c hload =>
    rcases h with ⟨-, hc, hread⟩ | ⟨d, hd, hsound, -⟩
    · exact .inl ⟨trivial, hc, hread⟩
    · exact .inr ⟨d, hd, hsound, fun _ _ _ hp => by cases hp⟩
  | serve hs hg ha =>
    rcases h with ⟨hoff, -⟩ | ⟨d, hd, hsound, -⟩
    · cases hoff
    · exact .inr ⟨d, hd, hsound, fun _ _ _ hp => by cases hp⟩
  | @save fs begun x d bytes hs hb =>
    rcases h with ⟨hoff, -⟩ | ⟨d, hd, hsound, -⟩
    · cases hoff
    · refine .inr ⟨d, hd, hsound.mono (fun _ => .mono (List.subset_append_left _ _)) id,
        fun x' bytes' phase hp => ?_⟩
      cases hp
      exact ⟨List.mem_append_right _ (List.mem_singleton.mpr rfl), trivial⟩
  | @write fs fs' begun x bytes phase phase' hs =>
    rcases h with ⟨hoff, -⟩ | ⟨d, hd, hsound, hsaving⟩
    · cases hoff
    · obtain ⟨hmem, hreached⟩ := hsaving x bytes phase rfl
      have hgoing : Archive.Going _ _ bytes p n d ⟨phase, fs⟩ := ⟨hd, hsound, hreached⟩
      obtain ⟨hd', hsound', hreached'⟩ :=
        hgoing.step hp hn (fun he => ⟨⟨p, n, he⟩, .inr hmem⟩) hs
      refine .inr ⟨d, hd', hsound', fun x' bytes' phase'' hp => ?_⟩
      cases hp
      exact ⟨hmem, hreached'⟩
  | stop =>
    rcases h with ⟨-, hc, hread⟩ | ⟨d, hd, hsound, -⟩
    · exact .inl ⟨trivial, hc, hread⟩
    · exact .inr ⟨d, hd, hsound, fun _ _ _ hp => by cases hp⟩
  | power hr hc =>
    rcases h with ⟨-, hc', hread⟩ | ⟨d, hd, hsound, -⟩
    · exact .inl ⟨trivial, hc, (hc'.readFile_recovered hr _).trans hread⟩
    · exact .inr ⟨d, hsound.dirOf_recovered hr hd, hsound.recovered hr hc, fun _ _ _ hp => by cases hp⟩

theorem archived_run (hp : path.parent = some p) (hn : path.fileName = some n) (hc : Clean fs₀)
    (hr : Run constantTimeEq alloc authPassword json path G (.start fs₀) w) :
    Archived fs₀ path p n w := by
  induction hr with
  | nil => exact .inl ⟨trivial, hc, rfl⟩
  | snoc _ hs ih => exact ih.step hp hn hs

/-- The calls of a save follow one another. -/
theorem write_run {fs : Files} {x : Server κ} {bytes : Bytes} {begun : List Bytes}
    {c : Archive.Config} (hw : Archive.Run path bytes fs c)
    (hr : Run constantTimeEq alloc authPassword json path G w ⟨fs, .saving x bytes .creating, begun⟩) :
    Run constantTimeEq alloc authPassword json path G w ⟨c.fs, .saving x bytes c.phase, begun⟩ := by
  induction hw with
  | start => exact hr
  | step _ hs ih => exact ih.snoc (.write hs)

/-- A server goes on for a while, and does not yet know how its save ends. -/
theorem serve_run {fs : Files} {begun : List Bytes} {x x' : Server κ}
    (hx : Server.Run constantTimeEq alloc authPassword true
      (fun x a => G x a ∧ ∀ ok, a ≠ .write ok) x x')
    (hr : Run constantTimeEq alloc authPassword json path G w ⟨fs, .serving x, begun⟩) :
    Run constantTimeEq alloc authPassword json path G w ⟨fs, .serving x', begun⟩ := by
  induction hx with
  | nil => exact hr
  | snoc _ hg hs ih => exact ih.snoc (.serve hs hg.1 hg.2)

/-- A life on a machine with nothing but the directory of the archive: a client sets `a`, and gives
it a minute. -/
theorem minute_served : ∃ (x : Server Unit) (y : Session),
    Server.Run (fun a b => a == b) .exact none true
        (fun x a => Server.InRange x a ∧ ∀ ok, a ≠ .write ok) (.start ⟨0, by decide⟩ .new) x ∧
      x.session () = some y ∧ y.status = .running ∧ y.frames = [] ∧
      Connection.requests (fun a b => a == b) y.log (.new none) = [.set [97] [120], .expire [97] 60] ∧
      x.stage = .accepting ∧ x.Quiet ∧ x.calls.clock = ⟨0, by decide⟩ ∧
      x.calls.store = Archive.minuteStore := by
  have skip {x : Server Unit} {a : Server.Act Unit} (h : ∀ i, a ≠ .store (.finish i))
      (hw : ∀ ok, a ≠ .write ok) : Server.InRange x a ∧ ∀ ok, a ≠ .write ok :=
    ⟨Server.inRange_of_ne h, hw⟩
  have calls (x : Server Unit) (b : Store.Act (Unit × Nat)) (hb : ∀ i, b ≠ .finish i) :
      Server.InRange x (.store b) ∧ ∀ ok, Server.Act.store b ≠ .write ok :=
    skip (fun i h => hb i (Server.Act.store.inj h)) (by nofun)
  let f : Frame := .array (some [.bulk (some [83, 69, 84]), .bulk (some [97]), .bulk (some [120])])
  let g : Frame := .array (some [.bulk (some [69, 88, 80, 73, 82, 69]), .bulk (some [97]),
    .bulk (some [54, 48])])
  let y : Session := { Session.start none with frames := [f, g] }
  let y₁ : Session := { y with frames := [g], log := [f], written := [43, 79, 75, 13, 10] }
  let y₂ : Session := { y with
    frames := [], log := [f, g], written := [43, 79, 75, 13, 10, 58, 49, 13, 10] }
  have hread : (Session.start none).read .exact [83, 69, 84, 32, 97, 32, 120, 10,
      69, 88, 80, 73, 82, 69, 32, 97, 32, 54, 48, 10] = y := by
    decide +kernel
  have hset : y.conn.request f = some (.set [97] [120]) := by decide
  have hexpire : y₁.conn.request g = some (.expire [97] 60) := by decide
  have hrun : ((Call.expire [97] 60).run ⟨0, by decide⟩ (set [97] [120] .new).2).1 =
      some (.flag 1) := by
    decide +kernel
  have hfirst : y.answer (fun a b => a == b) (Reply.stored.frame (.set [97] [120])) f [g] = y₁ := by
    decide
  have hsecond : y₁.answer (fun a b => a == b) ((Reply.flag 1).frame (.expire [97] 60)) g [] = y₂ := by
    decide
  have hcalls : Connection.requests (fun a b => a == b) [f, g] (.new none) =
      [.set [97] [120], .expire [97] 60] := by decide
  have h : Server.Run (fun a b => a == b) .exact none true
    (fun x a => Server.InRange x a ∧ ∀ ok, a ≠ .write ok) (.start ⟨0, by decide⟩ .new)
    (.start ⟨0, by decide⟩ .new : Server Unit) := .nil _
  have h := h.snoc (a := .accept ()) (skip (by simp) (by nofun)) (.server (.accept rfl rfl))
  have h := h.snoc (a := .read () [83, 69, 84, 32, 97, 32, 120, 10,
      69, 88, 80, 73, 82, 69, 32, 97, 32, 54, 48, 10]) (skip (by simp) (by nofun))
    (.task (k := ()) (y := .start none) ⟨rfl, rfl⟩ (.read rfl))
  rw [hread] at h
  obtain ⟨x₁, h, hquiet, hsession, hphase, hstore, hclock, hstage⟩ :=
    Server.Quiet.answered (k := ()) (y := y) ⟨rfl, fun _ => by trivial⟩ ⟨rfl, rfl⟩ rfl rfl hset rfl
      calls (fun z hz hp => ⟨Server.inRange_finish hp (by rw [hz]; decide), by nofun⟩) h
  rw [hfirst] at hsession
  have hclock : x₁.calls.clock = ⟨0, by decide⟩ := hclock
  have hstore : x₁.calls.store = (set [97] [120] .new).2 := hstore
  have hhere : x₁.session () = some y₁ := by
    rw [hsession]
    exact Function.update_self ..
  obtain ⟨x₂, h, hquiet, hsession, -, hstore', hclock', hstage'⟩ :=
    Server.Quiet.answered (k := ()) (y := y₁) hquiet ⟨hhere, rfl⟩ (by rw [hphase]; rfl) rfl hexpire
      (by rw [hclock, hstore]; exact hrun) calls
      (fun z hz hp => ⟨Server.inRange_finish hp (by rw [hz, hclock, hstore]; decide), by nofun⟩) h
  rw [hsecond] at hsession
  refine ⟨x₂, y₂, h, ?_, rfl, rfl, hcalls, hstage'.trans hstage, hquiet, hclock'.trans hclock, ?_⟩
  · rw [hsession]
    exact Function.update_self ..
  · rw [hstore', hclock, hstore]
    rfl

/-- And of its end: the server is stopped, and has saved what the client has left. -/
theorem saved_once : ∃ (x : Server Unit) (y : Session) (fs : Files),
    x.session () = some y ∧ y.frames = [] ∧
    Connection.requests (fun a b => a == b) y.log (.new none) = [.set [97] [120], .expire [97] 60] ∧
    Run (fun a b => a == b) .exact none Archive.minuteJson Archive.dataPath Server.InRange
      (.start Archive.emptyDirs)
      ⟨fs, .saving x Archive.minuteText (.done (.ok ())), [Archive.minuteText]⟩ := by
  obtain ⟨x, y, hserved, hy, hrunning, hframes, hcalls, hstage, hquiet, hclock, hstore⟩ :=
    minute_served
  have h : Run (fun a b => a == b) .exact none Archive.minuteJson Archive.dataPath Server.InRange
    (.start Archive.emptyDirs) (.start Archive.emptyDirs : World Unit) := .nil _
  have h := serve_run hserved (h.snoc (.boot Archive.restoreAtZero ⟨0, by decide⟩ (s := .new) rfl))
  have h := h.snoc (.serve (.server .cancel) (Server.inRange_of_ne (by simp)) nofun)
  have h := h.snoc (.serve (.task (k := ()) ⟨hy, hrunning⟩ (.stop hframes rfl))
    (Server.inRange_of_ne (by simp)) nofun)
  have h := h.snoc (.serve (.server (.shutdown hstage rfl)) (Server.inRange_of_ne (by simp)) nofun)
  have h := h.snoc (.serve (.server (.join (.inl rfl) (by
    rintro ⟨⟩ z hz
    change Function.update x.session () (some { y with status := .closed }) () = some z at hz
    rw [Function.update_self] at hz
    obtain rfl := Option.some.inj hz
    nofun))) (Server.inRange_of_ne (by simp)) nofun)
  have h := h.snoc (.serve (.server (.dump rfl rfl)) (Server.inRange_of_ne (by simp)) nofun)
  have h := h.snoc (.serve (.server (.take (fun _ => Archive.noClocks) rfl
    ⟨congrArg Sweeper.holdsMap hquiet.sweeper, fun j => (hquiet.calls j).free.2.2⟩))
    (Server.inRange_of_ne (by simp)) nofun)
  have hbytes : Archive.minuteJson.toVec
      (x.calls.store.toSnapshot x.calls.clock fun _ => Archive.noClocks) = some Archive.minuteText := by
    rw [hclock, hstore]
    decide +kernel
  have h := h.snoc (.save rfl hbytes)
  have hname : Archive.dataPath.fileName ≠ some "archive.x.tmp" := by decide
  refine ⟨_, { y with status := .closed }, _, ?_, hframes, hcalls,
    write_run (Archive.saveBytes_run hname Archive.emptyDirs _) h⟩
  show Function.update x.session () (some { y with status := .closed }) () = _
  exact Function.update_self ..

theorem emptyDirs_clean : Clean Archive.emptyDirs := ⟨rfl, rfl, fun _ _ _ => rfl⟩

/-- With the disk up to date at the beginning, over any number of lives, however they end, and
whatever saves fail in between: the path of the archive reads as it did at the beginning, or as one
whole archive whose saving has begun. -/
theorem archive_is_whole (hc : Clean fs₀)
    (hr : Run constantTimeEq alloc authPassword json path G (.start fs₀) w) :
    w.fs.readFile path = fs₀.readFile path ∨ ∃ bytes ∈ w.begun, w.fs.readFile path = .ok bytes := by
  cases path with
  | empty => exact .inl rfl
  | root => exact .inl rfl
  | file p n => exact (archived_run rfl rfl hc hr).read rfl rfl
  | slashed p n dot => exact (archived_run rfl rfl hc hr).read rfl rfl

/-- The first save of a machine. -/
theorem archive_is_whole_first :
    ∃ w : World Unit, Run (fun a b => a == b) .exact none Archive.minuteJson Archive.dataPath
        Server.InRange (.start Archive.emptyDirs) w ∧ w.begun = [Archive.minuteText] ∧
      (w.fs.readFile Archive.dataPath = Archive.emptyDirs.readFile Archive.dataPath ∨
        ∃ bytes ∈ w.begun, w.fs.readFile Archive.dataPath = .ok bytes) := by
  obtain ⟨x, y, fs, -, -, -, h⟩ := saved_once
  exact ⟨_, h, rfl, archive_is_whole emptyDirs_clean h⟩

/-- Every start has failed, and nothing has changed. -/
structure Untouched (fs₀ : Files) (w : World κ) : Prop where
  down : w.process = .off ∨ ∃ e, w.process = .refused (.invalidArchive e)
  clean : Clean w.fs
  read : ∀ q, w.fs.readFile q = fs₀.readFile q
  begun : w.begun = []

/-- A load of bytes that cannot be restored fails. -/
theorem load_of_bad {fs : Files} {data : Bytes} (hread : fs.readFile path = .ok data)
    (hbad : ∀ c s, Archive.restore json c data ≠ .ok s) (c : RestoreClocks) :
    ∃ e, Archive.load json c fs path = .error (.invalidArchive e) := by
  rw [Archive.load, hread]
  dsimp only
  cases hr : Archive.restore json c data with
  | ok s => exact absurd hr (hbad c s)
  | error e => exact ⟨e, rfl⟩

theorem Untouched.step {data : Bytes} (h : Untouched fs₀ w) (hread : fs₀.readFile path = .ok data)
    (hbad : ∀ c s, Archive.restore json c data ≠ .ok s)
    (hs : Step constantTimeEq alloc authPassword json path G w w') : Untouched fs₀ w' := by
  obtain ⟨hdown, hclean, hsame, hbegun⟩ := h
  have hload (c : RestoreClocks) := load_of_bad ((hsame path).trans hread) hbad c
  cases hs with
  | boot c t hok =>
    obtain ⟨e, he⟩ := hload c
    rw [hok] at he
    cases he
  | refuse c herror =>
    obtain ⟨e, he⟩ := hload c
    rw [herror] at he
    exact ⟨.inr ⟨e, congrArg _ (Except.error.inj he)⟩, hclean, hsame, hbegun⟩
  | serve | save | write => rcases hdown with hoff | ⟨e, hoff⟩ <;> cases hoff
  | stop => exact ⟨.inl rfl, hclean, hsame, hbegun⟩
  | power hr hc =>
    exact ⟨.inl rfl, hc, fun q => (hclean.readFile_recovered hr q).trans (hsame q), hbegun⟩

/-- An archive that cannot be restored is not overwritten. However often the program is started on
it, every start ends with the error of the load, no server ever runs, no save begins, and every
file is as it was: all this with the disk up to date at the beginning. -/
theorem unreadable_archive_is_kept (hc : Clean fs₀) {data : Bytes}
    (hread : fs₀.readFile path = .ok data) (hbad : ∀ c s, Archive.restore json c data ≠ .ok s)
    (hr : Run constantTimeEq alloc authPassword json path G (.start fs₀) w) :
    (w.process = .off ∨ ∃ e, w.process = .refused (.invalidArchive e)) ∧ w.begun = [] ∧
      (∀ q, w.fs.readFile q = fs₀.readFile q) ∧
      ∀ c, ∃ e, Archive.load json c w.fs path = .error (.invalidArchive e) := by
  have h : Untouched fs₀ w := by
    induction hr with
    | nil => exact ⟨.inl rfl, hc, fun _ => rfl, rfl⟩
    | snoc _ hs ih => exact ih.step hread hbad hs
  exact ⟨h.down, h.begun, h.read, load_of_bad ((h.read path).trans hread) hbad⟩

/-- A directory with an archive of one byte. The program has been started on it, and the power has
failed; now it has been started again, and is about to end. -/
theorem unreadable_archive_is_kept_garbage :
    ∃ (fs : Files) (w : World Unit), fs.readFile Archive.dataPath = .ok [0] ∧
      Run (fun a b => a == b) .exact none Archive.minuteJson Archive.dataPath Server.InRange
        (.start fs) w ∧ w.process = .refused (.invalidArchive .invalidSnapshot) ∧
      w.fs.readFile Archive.dataPath = .ok [0] := by
  let fs : Files :=
    { Archive.emptyDirs with
      entries := fun place => if place = (0, "data") then some (.dir 1) else
        if place = (1, "archive") then some (.file 0) else none
      disk := fun place => if place = (0, "data") then some (.dir 1) else
        if place = (1, "archive") then some (.file 0) else none
      inodes := fun _ => ⟨[0], true⟩
      next := 1
      used := by
        intro place i h
        split at h
        · cases h
        · split at h
          · cases h
            exact Nat.one_pos
          · cases h }
  have hclean : Clean fs := ⟨rfl, rfl, fun _ _ _ => rfl⟩
  have hread : fs.readFile Archive.dataPath = .ok [0] := rfl
  have hbad : ∀ c s, Archive.restore Archive.minuteJson c [0] ≠ .ok s := by
    intro c s hs
    cases hs
  have h : Run (fun a b => a == b) .exact none Archive.minuteJson Archive.dataPath Server.InRange
    (.start fs) (.start fs : World Unit) := .nil _
  have h := h.snoc (.refuse Archive.restoreAtZero rfl)
  have h := h.snoc (.power ⟨rfl, rfl, ⟨[], List.nil_sublist _, rfl⟩, fun _ _ => rfl⟩ hclean)
  have h := h.snoc (.refuse Archive.restoreAtZero rfl)
  exact ⟨fs, _, hread, h, rfl,
    ((unreadable_archive_is_kept hclean hread hbad h).2.2.1 _).trans hread⟩

/-! ## A save that has returned -/

/-- Only these bytes may be found under the name, and nobody is about to put others there. -/
def Pinned (bytes : Bytes) (p : DirPath String) (n : String) (w : World κ) : Prop :=
  (∃ d, w.fs.dirOf p = .ok d ∧ Archive.Sound (· = bytes) False w.fs (d, n)) ∧
    ∀ x b phase, w.process = .saving x b phase → phase = .done (.ok ())

theorem begun_step (hs : Step constantTimeEq alloc authPassword json path G w w') :
    w.begun <+: w'.begun := by
  cases hs with
  | save hs hb => exact List.prefix_append _ _
  | _ => exact List.prefix_refl _

theorem begun_run (hr : Run constantTimeEq alloc authPassword json path G w w') :
    w.begun <+: w'.begun := by
  induction hr with
  | nil => exact List.prefix_refl _
  | snoc _ hs ih => exact ih.trans (begun_step hs)

theorem Pinned.step {bytes : Bytes} (h : Pinned bytes p n w) (hb : w'.begun = w.begun)
    (hs : Step constantTimeEq alloc authPassword json path G w w') : Pinned bytes p n w' := by
  obtain ⟨⟨d, hd, hsound⟩, hdone⟩ := h
  cases hs with
  | boot c t hload => exact ⟨⟨d, hd, hsound⟩, fun _ _ _ hp => by cases hp⟩
  | refuse c hload => exact ⟨⟨d, hd, hsound⟩, fun _ _ _ hp => by cases hp⟩
  | serve hs hg ha => exact ⟨⟨d, hd, hsound⟩, fun _ _ _ hp => by cases hp⟩
  | save hs hbytes =>
    have hlen := congrArg List.length hb
    rw [List.length_append] at hlen
    simp at hlen
  | write hs =>
    have hphase := hdone _ _ _ rfl
    subst hphase
    cases hs
  | stop => exact ⟨⟨d, hd, hsound⟩, fun _ _ _ hp => by cases hp⟩
  | power hr hc =>
    exact ⟨⟨d, hsound.dirOf_recovered hr hd, hsound.recovered hr hc⟩, fun _ _ _ hp => by cases hp⟩

theorem pinned_run {bytes : Bytes} (h : Pinned bytes p n w) (hb : w'.begun = w.begun)
    (hr : Run constantTimeEq alloc authPassword json path G w w') : Pinned bytes p n w' := by
  induction hr with
  | nil => exact h
  | @snoc w₁ w₂ hr hs ih =>
    -- the archives begun only grow, so none was begun in between
    have hback : w₁.begun <+: w.begun := by
      rw [← hb]
      exact begun_step hs
    have hmid : w₁.begun = w.begun :=
      hback.eq_of_length (Nat.le_antisymm hback.length_le (begun_run hr).length_le)
    exact (ih hmid).step (hb.trans hmid.symm) hs

/-- The path of a save that has returned `Ok` is that of a file. -/
theorem pinned_of_saved (hc : Clean fs₀)
    (hr : Run constantTimeEq alloc authPassword json path G (.start fs₀) w) {x : Server κ}
    {bytes : Bytes} (hp : w.process = .saving x bytes (.done (.ok ()))) :
    ∃ p n, path = .file p n ∧ Pinned bytes p n w := by
  have halive := alive_run hr
  rw [hp] at halive
  obtain ⟨-, -, fs₁, hw⟩ := halive
  obtain ⟨h, p, n, hreplaced, -⟩ := Archive.inv_run hw
  refine ⟨p, n, hreplaced.path_eq, ?_⟩
  rw [hreplaced.path_eq] at hr
  rcases archived_run rfl rfl hc hr with ⟨hdown, -⟩ | ⟨d, hd, -, hsaving⟩
  · rw [hp] at hdown
    cases hdown
  · refine ⟨⟨d, hd, (hsaving x bytes _ hp).2⟩, fun x' b phase hp' => ?_⟩
    rw [hp] at hp'
    cases hp'
    rfl

omit [DecidableEq κ] in
theorem Pinned.load {bytes : Bytes} (h : Pinned bytes p n w) :
    w.fs.readFile (.file p n) = .ok bytes ∧
      ∀ c s, Archive.load json c w.fs (.file p n) = .ok s ↔ Archive.restore json c bytes = .ok s := by
  obtain ⟨⟨d, hd, hsound⟩, -⟩ := h
  rcases hsound.read hd with ⟨-, hfalse⟩ | ⟨data, hread, rfl⟩
  · cases hfalse
  · refine ⟨hread, fun c s => ?_⟩
    rw [Archive.load, hread]
    dsimp only
    cases Archive.restore json c data <;> simp

/-- With the disk up to date at the beginning: once a save has returned `Ok`, the path reads as its
bytes until another save begins, through any number of lives, kills and power failures; and a load
then restores these bytes. -/
theorem saved_archive_stays (hc : Clean fs₀)
    (hr : Run constantTimeEq alloc authPassword json path G (.start fs₀) w) {x : Server κ}
    {bytes : Bytes} (hp : w.process = .saving x bytes (.done (.ok ())))
    (hr' : Run constantTimeEq alloc authPassword json path G w w') (hb : w'.begun = w.begun) :
    w'.fs.readFile path = .ok bytes ∧
      ∀ c s, Archive.load json c w'.fs path = .ok s ↔ Archive.restore json c bytes = .ok s := by
  obtain ⟨p, n, rfl, hpinned⟩ := pinned_of_saved hc hr hp
  exact (pinned_run hpinned hb hr').load

/-- The process is gone, and the next one finds the archive. -/
theorem saved_archive_stays_first :
    ∃ w : World Unit, Run (fun a b => a == b) .exact none Archive.minuteJson Archive.dataPath
        Server.InRange (.start Archive.emptyDirs) w ∧ w.process = .off ∧
      w.fs.readFile Archive.dataPath = .ok Archive.minuteText := by
  obtain ⟨x, y, fs, -, -, -, h⟩ := saved_once
  exact ⟨_, h.snoc .stop, rfl, (saved_archive_stays emptyDirs_clean h rfl (.snoc (.nil _) .stop) rfl).1⟩

/-! ## What the next life has -/

end World
end Redlike
