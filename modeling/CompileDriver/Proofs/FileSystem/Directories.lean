import CompileDriver.Proofs.FileSystem.Extension
import CompileDriver.Proofs.Host.Calls
import CompileDriver.FileSystem.Files

/-! # Making directories and writing files

Procedures that make directories ask for nothing else, so they only add to the file system and
tell the user nothing. What they were asked for exists when they have succeeded. A file that a
procedure has written is read as it was written, also after more directories have been made.
-/

namespace CompileDriver

namespace Call

def IsDirectory : Call → Prop
  | status _ | makeDirectory _ => True
  | _ => False

def IsFile : Call → Prop
  | status _ | makeDirectory _ | create _ | write .. | read _ | list _ => True
  | _ => False

theorem IsDirectory.isFile {c : Call} (hc : c.IsDirectory) : c.IsFile := by
  cases c <;> first | exact hc.elim | trivial

end Call

namespace FileSystem

/-- `p` is a directory, or the empty path, for which there is none to make. -/
def HasDirectory (fs : FileSystem) (cwd : Location) (p : Path) : Prop :=
  p.text = "" ∨ fs.status cwd p = .ok .directory

theorem HasDirectory.mono {fs gs : FileSystem} {cwd : Location} {p : Path}
    (hp : fs.HasDirectory cwd p) (hdir : fs.KeepsDirectories gs) : gs.HasDirectory cwd p :=
  hp.imp_right (status_of_keepsDirectories hdir)

end FileSystem

namespace World

variable {w w' : World}

@[simp] theorem update_notices (r : Except IoError FileSystem) :
    (w.update r).2.notices = w.notices := by
  cases r <;> rfl

@[simp] theorem update_log (r : Except IoError FileSystem) : (w.update r).2.log = w.log := by
  cases r <;> rfl

theorem update_eq_ok {r : Except IoError FileSystem} {w' : World}
    (h : w.update r = (.ok (), w')) : ∃ fs, r = .ok fs ∧ w' = { w with files := fs } := by
  cases r with
  | error e => cases h
  | ok fs => cases h; exact ⟨fs, rfl, rfl⟩

theorem rel_update {R : FileSystem → FileSystem → Prop} (hrefl : ∀ fs, R fs fs)
    {r : Except IoError FileSystem} (hr : ∀ fs, r = .ok fs → R w.files fs) :
    R w.files (w.update r).2.files := by
  cases r with
  | error e => exact hrefl w.files
  | ok fs => exact hr fs rfl

end World

namespace Procedure

variable {α : Type} {h : Host} {w w' : World} {p : Path} {data : ByteArray}

theorem notices_answer_of_isFile {c : Call} (hc : c.IsFile) (w : World) :
    (h.answer c w).2.notices = w.notices := by
  cases c <;> first | exact hc.elim | simp [Host.answer]

theorem le_answer_of_isDirectory {c : Call} (hc : c.IsDirectory) (w : World) :
    w.files ≤ (h.answer c w).2.files := by
  cases c with
  | status p => exact le_rfl
  | makeDirectory p => exact World.rel_update le_refl fun _ => FileSystem.le_of_makeDirectory
  | _ => exact hc.elim

theorem keepsDirectories_answer_of_isFile {c : Call} (hc : c.IsFile) (w : World) :
    w.files.KeepsDirectories (h.answer c w).2.files := by
  have hrefl (fs : FileSystem) : fs.KeepsDirectories fs := fun _ => id
  cases c with
  | status | read | list => exact hrefl w.files
  | makeDirectory p =>
    exact World.rel_update hrefl fun _ => FileSystem.keepsDirectories_of_makeDirectory
  | create p => exact World.rel_update hrefl fun _ => FileSystem.keepsDirectories_of_create
  | write p data => exact World.rel_update hrefl fun _ => FileSystem.keepsDirectories_of_write
  | _ => exact hc.elim

theorem CallsOnly.run_notices {q : Procedure α} (hq : q.CallsOnly Call.IsFile) (w : World) :
    (q.run h w).2.notices = w.notices :=
  hq.run_rel (R := fun w w' => w'.notices = w.notices) (fun _ => rfl)
    (fun _ _ _ huv hvw => hvw.trans huv) (fun _ hc w => notices_answer_of_isFile hc w) w

theorem CallsOnly.le_run {q : Procedure α} (hq : q.CallsOnly Call.IsDirectory) (w : World) :
    w.files ≤ (q.run h w).2.files :=
  hq.run_rel (R := fun w w' => w.files ≤ w'.files) (fun _ => le_rfl)
    (fun _ _ _ huv hvw => le_trans huv hvw) (fun _ hc w => le_answer_of_isDirectory hc w) w

theorem CallsOnly.keepsDirectories_run {q : Procedure α} (hq : q.CallsOnly Call.IsFile)
    (w : World) : w.files.KeepsDirectories (q.run h w).2.files :=
  hq.run_rel (R := fun w w' => w.files.KeepsDirectories w'.files) (fun _ _ => id)
    (fun _ _ _ huv hvw l hl => hvw l (huv l hl))
    (fun _ hc w => keepsDirectories_answer_of_isFile hc w) w

/-! ## What is asked for -/

section

variable {P : Call → Prop}

theorem callsOnly_isDirectory_of (hp : P (.status p)) : (isDirectory p).CallsOnly P :=
  ⟨hp, fun _ => trivial⟩

theorem callsOnly_acceptDirectory_of (hp : P (.status p)) (e : IoError) :
    (acceptDirectory p e).CallsOnly P :=
  (callsOnly_isDirectory_of hp).bind fun _ => trivial

theorem callsOnly_makeDirectoryOr_of {m : Procedure (Except IoError Unit)}
    (hp : P (.status p) ∧ P (.makeDirectory p)) (hm : m.CallsOnly P) :
    (makeDirectoryOr p m).CallsOnly P := by
  refine ⟨hp.2, fun r => ?_⟩
  rcases r with e | _
  · cases e <;> first | exact hm | exact callsOnly_acceptDirectory_of hp.1 _
  · trivial

theorem callsOnly_createDirectories_of {above : List Path}
    (hp : ∀ q ∈ p :: above, P (.status q) ∧ P (.makeDirectory q)) :
    (createDirectories p above).CallsOnly P := by
  obtain ⟨hself, habove⟩ := List.forall_mem_cons.1 hp
  induction above generalizing p with
  | nil =>
    unfold createDirectories
    split
    · trivial
    · exact callsOnly_makeDirectoryOr_of hself trivial
  | cons q above ih =>
    obtain ⟨hq, hrest⟩ := List.forall_mem_cons.1 habove
    unfold createDirectories
    split
    · trivial
    · refine callsOnly_makeDirectoryOr_of hself ((ih habove hq hrest).andThen fun _ => ?_)
      exact callsOnly_makeDirectoryOr_of hself (callsOnly_acceptDirectory_of hself.1 _)

theorem callsOnly_ensureDirectory_of
    (hp : ∀ q ∈ p :: p.parents, P (.status q) ∧ P (.makeDirectory q)) :
    (ensureDirectory p).CallsOnly P := by
  refine (callsOnly_isDirectory_of (hp p List.mem_cons_self).1).bind fun found => ?_
  split
  · trivial
  · exact callsOnly_createDirectories_of hp

theorem callsOnly_writeFile_of (hcreate : P (.create p)) (hwrite : P (.write p data)) :
    (writeFile p data).CallsOnly P := by
  refine ⟨hcreate, fun r => ?_⟩
  rcases r with e | _
  · trivial
  · exact ⟨hwrite, fun _ => trivial⟩

end

theorem callsOnly_isDirectory (p : Path) : (isDirectory p).CallsOnly Call.IsDirectory :=
  callsOnly_isDirectory_of trivial

theorem callsOnly_createDirectories (p : Path) (above : List Path) :
    (createDirectories p above).CallsOnly Call.IsDirectory :=
  callsOnly_createDirectories_of fun _ _ => ⟨trivial, trivial⟩

theorem callsOnly_ensureDirectory (p : Path) : (ensureDirectory p).CallsOnly Call.IsDirectory :=
  callsOnly_ensureDirectory_of fun _ _ => ⟨trivial, trivial⟩

/-! ## Single requests -/

theorem run_isDirectory_of_status (hp : w.files.status h.directory p = .ok .directory) :
    (isDirectory p).run h w = (true, w) := by
  simp [isDirectory, run, Host.answer, hp]

theorem run_isDirectory_of_ne (hp : w.files.status h.directory p ≠ .ok .directory) :
    (isDirectory p).run h w = (false, w) := by
  cases hs : w.files.status h.directory p with
  | error e => simp [isDirectory, run, Host.answer, hs]
  | ok st =>
    cases st with
    | directory => exact absurd hs hp
    | file x => simp [isDirectory, run, Host.answer, hs]

theorem run_acceptDirectory_of_status {e : IoError}
    (hp : w.files.status h.directory p = .ok .directory) :
    (acceptDirectory p e).run h w = (.ok (), w) := by
  rw [acceptDirectory, run_bind, run_isDirectory_of_status hp]
  rfl

theorem run_acceptDirectory_of_ne {e : IoError}
    (hp : w.files.status h.directory p ≠ .ok .directory) :
    (acceptDirectory p e).run h w = (.error e, w) := by
  rw [acceptDirectory, run_bind, run_isDirectory_of_ne hp]
  rfl

theorem run_makeDirectoryOr_of_notFound {m : Procedure (Except IoError Unit)}
    (hm : w.files.makeDirectory h.directory p = .error .notFound) :
    (makeDirectoryOr p m).run h w = m.run h w := by
  rw [makeDirectoryOr, run, Host.answer, hm]
  rfl

theorem run_makeDirectoryOr_of_error {m : Procedure (Except IoError Unit)} {e : IoError}
    (hm : w.files.makeDirectory h.directory p = .error e) (he : e ≠ .notFound) :
    (makeDirectoryOr p m).run h w = (acceptDirectory p e).run h w := by
  rw [makeDirectoryOr, run, Host.answer, hm]
  cases e <;> first | exact absurd rfl he | rfl

/-! ## Directories that exist afterwards -/

theorem status_of_run_isDirectory (hf : (isDirectory p).run h w = (true, w')) :
    w'.files.status h.directory p = .ok .directory := by
  cases hs : w.files.status h.directory p with
  | error e => simp [isDirectory, run, Host.answer, hs] at hf
  | ok st =>
    cases st with
    | file x => simp [isDirectory, run, Host.answer, hs] at hf
    | directory =>
      obtain rfl : w = w' := by simpa [isDirectory, run, Host.answer, hs] using hf
      exact hs

theorem status_of_run_acceptDirectory {e : IoError}
    (ha : (acceptDirectory p e).run h w = (.ok (), w')) :
    w'.files.status h.directory p = .ok .directory := by
  rw [acceptDirectory, run_bind] at ha
  rcases hf : (isDirectory p).run h w with ⟨found, v⟩
  rw [hf] at ha
  cases found with
  | false => cases ha
  | true =>
    cases ha
    exact status_of_run_isDirectory hf

theorem run_makeDirectoryOr_eq_ok {m : Procedure (Except IoError Unit)}
    (hcwd : w.files.node? h.directory = some .directory)
    (hm : (makeDirectoryOr p m).run h w = (.ok (), w')) :
    w'.files.status h.directory p = .ok .directory ∨ m.run h w = (.ok (), w') := by
  cases hd : w.files.makeDirectory h.directory p with
  | ok fs =>
    rw [makeDirectoryOr, run, Host.answer, hd] at hm
    cases hm
    exact Or.inl (FileSystem.status_of_makeDirectory hcwd hd)
  | error e =>
    by_cases he : e = .notFound
    · rw [he] at hd
      rw [run_makeDirectoryOr_of_notFound hd] at hm
      exact Or.inr hm
    · rw [run_makeDirectoryOr_of_error hd he] at hm
      exact Or.inl (status_of_run_acceptDirectory hm)

theorem status_of_run_createDirectories {above : List Path} (hp : p.text ≠ "")
    (hcwd : w.files.node? h.directory = some .directory)
    (hc : (createDirectories p above).run h w = (.ok (), w')) :
    w'.files.status h.directory p = .ok .directory := by
  cases above with
  | nil =>
    rw [createDirectories, if_neg hp] at hc
    rcases run_makeDirectoryOr_eq_ok hcwd hc with hs | hs
    · exact hs
    · cases hs
  | cons q above =>
    rw [createDirectories, if_neg hp] at hc
    rcases run_makeDirectoryOr_eq_ok hcwd hc with hs | hs
    · exact hs
    · -- the directories above are made before `p` is tried again
      obtain ⟨_, v, habove, hs⟩ := run_andThen_eq_ok.1 hs
      have hle := (callsOnly_createDirectories q above).le_run (h := h) w
      rw [habove] at hle
      rcases run_makeDirectoryOr_eq_ok (FileSystem.node?_of_le hle hcwd) hs with hs | hs
      · exact hs
      · exact status_of_run_acceptDirectory hs

theorem status_of_run_ensureDirectory (hp : p.text ≠ "")
    (hcwd : w.files.node? h.directory = some .directory)
    (he : (ensureDirectory p).run h w = (.ok (), w')) :
    w'.files.status h.directory p = .ok .directory := by
  rw [ensureDirectory, run_bind] at he
  rcases hf : (isDirectory p).run h w with ⟨found, v⟩
  have hle := (callsOnly_isDirectory p).le_run (h := h) w
  rw [hf] at he hle
  cases found with
  | true =>
    cases he
    exact status_of_run_isDirectory hf
  | false => exact status_of_run_createDirectories hp (FileSystem.node?_of_le hle hcwd) he

/-! ## Directories that need not be made -/

theorem run_createDirectories_of_hasDirectory {above : List Path}
    (hp : w.files.HasDirectory h.directory p) :
    (createDirectories p above).run h w = (.ok (), w) := by
  by_cases hempty : p.text = ""
  · cases above <;> rw [createDirectories, if_pos hempty, run_done]
  · have hs := hp.resolve_left hempty
    have hmake (m : Procedure (Except IoError Unit)) :
        (makeDirectoryOr p m).run h w = (.ok (), w) := by
      rw [run_makeDirectoryOr_of_error (FileSystem.makeDirectory_of_status hs) nofun,
        run_acceptDirectory_of_status hs]
    cases above <;> rw [createDirectories, if_neg hempty, hmake]

theorem run_ensureDirectory_of_hasDirectory (hp : w.files.HasDirectory h.directory p) :
    (ensureDirectory p).run h w = (.ok (), w) := by
  rw [ensureDirectory, run_bind]
  rcases hp with hempty | hs
  · have hs : w.files.status h.directory p = .error .notFound :=
      FileSystem.status_of_checkPath (FileSystem.checkPath_of_text_eq hempty)
    have hnone : (isDirectory p).run h w = (false, w) := by
      simp [isDirectory, run, Host.answer, hs]
    rw [hnone]
    exact run_createDirectories_of_hasDirectory (Or.inl hempty)
  · rw [run_isDirectory_of_status hs]
    rfl

theorem hasDirectory_of_run_createDirectories {above : List Path}
    (hcwd : w.files.node? h.directory = some .directory)
    (hc : (createDirectories p above).run h w = (.ok (), w')) :
    w'.files.HasDirectory h.directory p := by
  by_cases hempty : p.text = ""
  · exact Or.inl hempty
  · exact Or.inr (status_of_run_createDirectories hempty hcwd hc)

theorem hasDirectory_of_run_ensureDirectory (hcwd : w.files.node? h.directory = some .directory)
    (he : (ensureDirectory p).run h w = (.ok (), w')) : w'.files.HasDirectory h.directory p := by
  by_cases hempty : p.text = ""
  · exact Or.inl hempty
  · exact Or.inr (status_of_run_ensureDirectory hempty hcwd he)

/-! ## Files -/

theorem callsOnly_writeFile : (writeFile p data).CallsOnly Call.IsFile :=
  callsOnly_writeFile_of trivial trivial

theorem callsOnly_writeText (p : Path) (s : String) : (writeText p s).CallsOnly Call.IsFile := by
  have hwrite : ((writeFile p s.toUTF8).mapError (WriteFailure.file p)).CallsOnly Call.IsFile :=
    callsOnly_writeFile.mapError _
  unfold writeText
  dsimp only
  split
  · next d hd =>
    have hensure := (callsOnly_ensureDirectory d).mono fun _ => Call.IsDirectory.isFile
    exact (hensure.mapError _).andThen fun _ => hwrite
  · exact hwrite

theorem read_of_run_writeFile (hw : (writeFile p data).run h w = (.ok (), w')) :
    w'.files.read h.directory p = .ok data := by
  cases hc : w.files.create h.directory p with
  | error e => simp [writeFile, run, Host.answer, hc, World.update] at hw
  | ok fs =>
    have hcreate : h.answer (.create p) w = (.ok (), { w with files := fs }) := by
      rw [Host.answer, hc]
      rfl
    rw [writeFile, run, hcreate] at hw
    change World.update { w with files := fs } (fs.write h.directory p data) = (.ok (), w') at hw
    obtain ⟨gs, hgs, rfl⟩ := World.update_eq_ok hw
    exact FileSystem.read_of_write hgs

theorem read_of_run_writeText {s : String} (hw : (writeText p s).run h w = (.ok (), w')) :
    w'.files.read h.directory p = .ok s.toUTF8 := by
  unfold writeText at hw
  split at hw
  · obtain ⟨_, v, -, hw⟩ := run_andThen_eq_ok.1 hw
    exact read_of_run_writeFile (run_mapError_eq_ok.1 hw)
  · exact read_of_run_writeFile (run_mapError_eq_ok.1 hw)

theorem run_writeFile_again {v : World} (hw : (writeFile p data).run h w = (.ok (), w'))
    (hv : v.files.read h.directory p = .ok data) : (writeFile p data).run h v = (.ok (), v) := by
  have hslash : p.endsInSlash = false := by
    cases hc : w.files.create h.directory p with
    | error e => simp [writeFile, run, Host.answer, hc, World.update] at hw
    | ok fs => exact FileSystem.endsInSlash_of_create hc
  obtain ⟨gs, hcreate, hwrite⟩ := FileSystem.exists_create_write_of_read hslash hv
  have hopened : h.answer (.create p) v = (.ok (), { v with files := gs }) := by
    rw [Host.answer, hcreate]
    rfl
  rw [writeFile, run, hopened]
  change World.update { v with files := gs } (gs.write h.directory p data) = _
  rw [hwrite]
  rfl

end Procedure

end CompileDriver
