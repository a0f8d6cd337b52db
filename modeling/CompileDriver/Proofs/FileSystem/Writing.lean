import CompileDriver.Proofs.FileSystem.Interference

/-! # Writing a file among others

Where a path leads decides what opening it for writing and writing to it do. So a file is written
among others as it is written alone if nobody else makes or writes what the path ends in, and the
directories above it exist.
-/

namespace CompileDriver

open FileSystem

namespace Target

def opened : Target → Except IoError File
  | directory _ => .error .isADirectory
  | file _ f => .ok { f with contents := .empty }
  | free .. => .ok ⟨.empty, false⟩

def written (data : ByteArray) : Target → Except IoError File
  | directory _ => .error .isADirectory
  | file _ f => .ok { f with contents := data }
  | free .. => .error .notFound

end Target

namespace FileSystem

variable {fs gs : FileSystem} {cwd l : Location} {p : Path} {t : Target} {f : File}
  {data : ByteArray} {D F : Location → Prop}

theorem create_eq_map (hslash : p.endsInSlash = false)
    (ht : fs.follow (.directory (startOf cwd p)) (steps p) = .ok t) :
    fs.create cwd p = (checkPath p >>= fun _ => t.opened).map fun f =>
      fs.put (p.destination cwd) (.file f) := by
  have hplace := place_follow_steps ht
  rw [create, if_neg (by simp [hslash]), ht]
  cases checkPath p with
  | error e => rfl
  | ok _ => cases t <;> simp [← hplace, Target.opened, Target.place, bind, Except.bind, Except.map]

theorem write_eq_map (ht : fs.follow (.directory (startOf cwd p)) (steps p) = .ok t) :
    fs.write cwd p data = (checkPath p >>= fun _ => t.written data).map fun f =>
      fs.put (p.destination cwd) (.file f) := by
  have hplace := place_follow_steps ht
  rw [write, find, ht]
  cases checkPath p with
  | error e => rfl
  | ok _ => cases t <;> simp [← hplace, Target.written, Target.place, bind, Except.bind, Except.map]

theorem follow_of_unchanged (hdir : fs.KeepsDirectories gs)
    (hsame : gs.node? (p.destination cwd) = fs.node? (p.destination cwd))
    (ht : fs.follow (.directory (startOf cwd p)) (steps p) = .ok t) :
    gs.follow (.directory (startOf cwd p)) (steps p) = .ok t := by
  have hplace := place_follow_steps ht
  rcases follow_of_directories hdir ht with ⟨l, -, hgs⟩ | ⟨l, name, rfl, hgs⟩
  · exact hgs
  · rw [place_lookUp] at hplace
    rw [hgs, lookUp, lookUp, hplace, hsame]

theorem read_of_unchanged (hdir : fs.KeepsDirectories gs)
    (hsame : gs.node? (p.destination cwd) = fs.node? (p.destination cwd))
    (hread : fs.read cwd p = .ok data) : gs.read cwd p = .ok data := by
  obtain ⟨t, ht, hread⟩ := bind_eq_ok_iff.1 hread
  obtain ⟨hcheck, ht⟩ := find_eq_ok_iff.1 ht
  have ht := follow_of_unchanged hdir hsame ht
  exact bind_eq_ok_iff.2 ⟨t, find_eq_ok_iff.2 ⟨hcheck, ht⟩, hread⟩

theorem hasRoomAt_of_follow (hcwd : fs.node? cwd = some .directory)
    (ht : fs.follow (.directory (startOf cwd p)) (steps p) = .ok t)
    (hfile : ∀ l, t ≠ .directory l) : fs.hasRoomAt (p.destination cwd) = true := by
  have hholds := holds_of_follow ht
  have hstands := stands_follow (stands_startOf hcwd p) ht
  rw [← place_follow_steps ht]
  cases t with
  | directory l => exact absurd rfl (hfile l)
  | file l f => exact hasRoomAt_of_file hholds
  | free l name =>
    change fs.node? (l ++ [name]) = none at hholds
    change fs.node? l = some .directory at hstands
    simp [hasRoomAt, Target.place, hholds, hstands]

end FileSystem

namespace Procedure

variable {h : Host} {p : Path} {data : ByteArray} {D F : Location → Prop} {fs : FileSystem}

/-- Between the worlds only what others may change is changed, and the directories above `p`
exist. -/
structure DiffersAround (cwd : Location) (p : Path) (fs : FileSystem) (D F : Location → Prop)
    (u v : World) : Prop extends DiffersBy fs D F u v where
  leads : ∃ t, u.files.follow (.directory (startOf cwd p)) (steps p) = .ok t

/-- A call that puts a file where `p` leads, decided by what is there, does so among others. -/
theorem withstands_of_stores {m : Procedure (Except IoError Unit)}
    (act : FileSystem → Except IoError FileSystem) {file : Target → Except IoError File}
    (hcwd : fs.node? h.directory = some .directory)
    (hD : ¬ D (p.destination h.directory)) (hF : ¬ F (p.destination h.directory))
    (hrun : ∀ w, m.run h w = w.update (act w.files))
    (hamong : ∀ w r w', m.RunsAmong h (.changesOnly D F) w r w' →
      ∃ v : World, ChangesOnly D F w.files v.files ∧ r = (v.update (act v.files)).1 ∧
        ChangesOnly D F (v.update (act v.files)).2.files w'.files)
    (hact : ∀ fs t, fs.follow (.directory (startOf h.directory p)) (steps p) = .ok t →
      act fs = (file t).map fun f => fs.put (p.destination h.directory) (.file f))
    (hfile : ∀ l f, file (.directory l) ≠ .ok f) :
    m.Withstands h (.changesOnly D F) Eq (DiffersAround h.directory p fs D F)
      (DiffersAround h.directory p fs D F) := by
  rintro u w r w' ⟨⟨hkept, huw⟩, t, ht⟩ hm
  obtain ⟨v, hv, rfl, hw'⟩ := hamong w r w' hm
  have huv := huw.trans hv
  have ht' := follow_of_unchanged huv.keepsDirectories (huv.node?_eq hD hF) ht
  rw [hrun, hact _ t ht]
  rw [hact _ t ht'] at hw' ⊢
  cases hx : file t with
  | error e => exact ⟨.error rfl, nofun⟩
  | ok f =>
    have hnot : ∀ l, t ≠ .directory l := by
      rintro l rfl
      exact hfile l f hx
    have hroom := hasRoomAt_of_follow (hkept _ hcwd) ht hnot
    have hroom' := hasRoomAt_of_follow (huv.keepsDirectories _ (hkept _ hcwd)) ht' hnot
    have hkept' := keepsDirectories_put u.files (p.destination h.directory) (.file f)
    rw [hx] at hw'
    refine ⟨.ok (), fun _ _ => ⟨⟨fun l hl => hkept' l (hkept l hl), ?_⟩, ?_⟩⟩
    · exact (huv.put hroom hroom').trans hw'
    · rcases follow_of_directories hkept' ht with ⟨l, -, hl⟩ | ⟨l, name, -, hl⟩
      · exact ⟨_, hl⟩
      · exact ⟨_, hl⟩

theorem writeFile_eq (p : Path) (data : ByteArray) :
    writeFile p data = (ask (.create p)).andThen fun _ => ask (.write p data) :=
  congrArg (call (.create p)) (funext fun r => by rcases r with e | _ <;> rfl)

/-- A file whose directory exists is written among others as it is written alone. -/
theorem withstands_writeFile (hcwd : fs.node? h.directory = some .directory)
    (hslash : p.endsInSlash = false) (hD : ¬ D (p.destination h.directory))
    (hF : ¬ F (p.destination h.directory)) :
    (writeFile p data).Withstands h (.changesOnly D F) Eq (DiffersAround h.directory p fs D F)
      (DiffersAround h.directory p fs D F) := by
  have hcreate : (ask (.create p)).Withstands h (.changesOnly D F) Eq
      (DiffersAround h.directory p fs D F) (DiffersAround h.directory p fs D F) := by
    refine withstands_of_stores (fun fs => fs.create h.directory p) hcwd hD hF (fun _ => rfl)
      (fun _ _ _ => id) (fun fs t => create_eq_map hslash) fun l f => ?_
    cases checkPath p <;> nofun
  have hwrite : (ask (.write p data)).Withstands h (.changesOnly D F) Eq
      (DiffersAround h.directory p fs D F) (DiffersAround h.directory p fs D F) := by
    refine withstands_of_stores (fun fs => fs.write h.directory p data) hcwd hD hF (fun _ => rfl)
      (fun _ _ _ => id) (fun fs t => write_eq_map) fun l f => ?_
    cases checkPath p <;> nofun
  rw [writeFile_eq]
  exact hcreate.andThen fun _ => hwrite

end Procedure

end CompileDriver
