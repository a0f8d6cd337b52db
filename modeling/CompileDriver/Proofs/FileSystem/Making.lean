import CompileDriver.Proofs.FileSystem.Obstacle

/-! # Making directories

A directory is made with the directories above it exactly if nothing is in the way, else what is in
the way is reported. When it has been made, the places on the way to it are directories, and nothing
else has changed.
-/

namespace CompileDriver

open FileSystem

namespace FileSystem

variable {fs gs : FileSystem} {cwd l m : Location} {p q : Path} {c : Component}
  {D F : Location → Prop}

theorem makeDirectory_eq_follow (hp : p.EndsInStepOrSlash) (hcheck : checkPath p = .ok ()) :
    fs.makeDirectory cwd p =
      fs.follow (.directory (startOf cwd p)) (p.steps.map Component.text) >>= fun
        | .directory _ | .file .. => .error .alreadyExists
        | .free l name => .ok (fs.put (l ++ [name]) .directory) := by
  rw [makeDirectory, hcheck, follow_withoutLastSlashes_steps hp]
  rfl

theorem status_eq_directory_iff_follow (hcheck : checkPath p = .ok ()) :
    fs.status cwd p = .ok .directory ↔
      ∃ l, fs.follow (.directory (startOf cwd p)) (p.steps.map Component.text) =
        .ok (.directory l) := by
  rw [status_eq_directory_iff, and_iff_right hcheck]
  exact exists_congr fun l => follow_eq_directory_iff

/-- What a path ends in that is spelled with a last dot has to exist, or no request makes it. -/
theorem makeDirectory_of_endsInDot (hp : ¬ p.EndsInStepOrSlash) (hcheck : checkPath p = .ok ()) :
    fs.makeDirectory cwd p = .error (
      match fs.follow (.directory (startOf cwd p)) (p.steps.map Component.text) with
      | .ok (.directory _) => .alreadyExists
      | .ok (.file ..) => .notADirectory
      | .ok (.free ..) => .notFound
      | .error e => e) := by
  obtain ⟨hsteps, hlast⟩ := not_or.1 hp
  have hfilter : (withoutLastSlashes (steps p)).filterMap Component.ofPiece? = p.steps :=
    filterMap_withoutLastSlashes _
  rcases List.eq_nil_or_concat (withoutLastSlashes (steps p)) with hempty | ⟨qs, x, hqs⟩
  · rw [hempty] at hfilter
    exact absurd hfilter.symm hsteps
  · rw [List.concat_eq_append] at hqs
    have hx : Path.isTrivial x = true := by
      by_contra hx
      exact hlast ⟨x, by simp [hqs], by simpa using hx⟩
    rw [hqs] at hfilter
    rw [makeDirectory, hcheck, hqs, follow_concat_of_trivial hx, hfilter]
    rcases fs.follow (.directory (startOf cwd p)) (p.steps.map Component.text) with e | t
    · rfl
    · cases t <;> rfl

theorem checkPath_ne_notFound (hp : p.text ≠ "") : checkPath p ≠ .error .notFound := by
  intro h
  rw [checkPath, if_neg hp] at h
  split at h
  · cases h
  · split at h <;> cases h

theorem text_ne_empty_of_checkPath (hcheck : checkPath p = .ok ()) : p.text ≠ "" := by
  intro hempty
  rw [checkPath_of_text_eq hempty] at hcheck
  cases hcheck

theorem checkDirectory_of_checkPath_error {e : IoError} (hp : p.text ≠ "")
    (hcheck : checkPath p = .error e) : fs.checkDirectory cwd p = .error e := by
  rw [checkDirectory, if_neg hp, hcheck]
  rfl

theorem checkDirectory_eq_checkWay (hcheck : p.text = "" ∨ checkPath p = .ok ()) :
    fs.checkDirectory cwd p = fs.checkWay false (startOf cwd p) p.steps := by
  by_cases hp : p.text = ""
  · rw [checkDirectory, if_pos hp, Path.steps, hp]
    rfl
  · rw [checkDirectory, if_neg hp, hcheck.resolve_left hp]
    rfl

/-- New directories on the way change at most how a file in the way is reported, and that only
behind a step back. -/
theorem checkDirectory_of_changesOnly (h : ChangesOnly D F fs gs)
    (hF : ∀ l, p.Passes cwd l → ¬ F l) :
    gs.checkDirectory cwd p = fs.checkDirectory cwd p ∨
      (gs.checkDirectory cwd p = .error .notADirectory ∧
        fs.checkDirectory cwd p = .error .alreadyExists ∧ Component.parent ∈ p.steps) := by
  by_cases hempty : p.text = ""
  · rw [checkDirectory, checkDirectory, if_pos hempty, if_pos hempty]
    exact Or.inl rfl
  cases hcheck : checkPath p with
  | error e =>
    rw [checkDirectory_of_checkPath_error hempty hcheck,
      checkDirectory_of_checkPath_error hempty hcheck]
    exact Or.inl rfl
  | ok _ =>
    rw [checkDirectory_eq_checkWay (Or.inr hcheck), checkDirectory_eq_checkWay (Or.inr hcheck)]
    have hway : ∀ ds, ds <+: p.steps → ¬ F (ds.foldl Component.next (startOf cwd p)) :=
      fun ds hds => hF _ ⟨ds, hds, rfl⟩
    by_cases hparent : Component.parent ∈ p.steps
    · rcases checkWay_of_changesOnly h hway id with heq | ⟨hgs, -, hfs⟩
      · exact Or.inl heq
      · exact Or.inr ⟨hgs, hfs, hparent⟩
    · exact Or.inl (checkWay_eq_of_changesOnly h hway hparent)

theorem checkPath_of_isParentOf (hq : q.IsParentOf p) (hcheck : checkPath p = .ok ()) :
    q.text = "" ∨ checkPath q = .ok () := by
  by_cases hempty : q.text = ""
  · exact Or.inl hempty
  right
  unfold checkPath at hcheck ⊢
  obtain ⟨rest, hrest⟩ := hq.text_prefix
  have hp : p.text = q.text ++ String.ofList rest := by
    rw [← String.toList_inj, ← hrest]
    simp
  split at hcheck
  · cases hcheck
  · next hnul =>
    split at hcheck
    · cases hcheck
    · split at hcheck
      · cases hcheck
      · next hlong =>
        rw [hp] at hnul hlong
        rw [if_neg (by simp_all), if_neg hempty, if_neg]
        rw [String.utf8ByteSize_append] at hlong
        omega

theorem startOf_of_isParentOf (hq : q.IsParentOf p) : startOf cwd q = startOf cwd p := by
  rw [startOf, startOf, hq.isAbsolute]

theorem exists_step_of_missing (hq : q.IsParentOf p)
    (hmissing : fs.follow (.directory l) (p.steps.map Component.text) = .error .notFound) :
    ∃ c, p.steps = q.steps ++ [c] := by
  rcases hq.steps with ⟨-, hnil⟩ | hc
  · rw [hnil] at hmissing
    cases hmissing
  · exact hc

theorem checkDirectory_of_missing (hq : q.IsParentOf p) (hsteps : p.steps = q.steps ++ [c])
    (hcheck : checkPath p = .ok ())
    (hmissing : fs.follow (.directory (startOf cwd p)) (p.steps.map Component.text) =
      .error .notFound) :
    fs.checkDirectory cwd p = fs.checkDirectory cwd q >>= fun _ =>
      fs.checkWay true (q.destination cwd) [c] := by
  have hisStep : ∀ d ∈ q.steps ++ [c], d.IsStep := fun d hd =>
    Path.isStep_of_mem_steps (hsteps ▸ hd)
  rw [checkDirectory_eq_checkWay (checkPath_of_isParentOf hq hcheck),
    checkDirectory_eq_checkWay (Or.inr hcheck), hsteps,
    checkWay_of_follow_notFound hisStep (hsteps ▸ hmissing), Path.destination,
    startOf_of_isParentOf hq]

theorem follow_of_hasDirectory (hdir : fs.HasDirectory cwd p) :
    fs.follow (.directory (startOf cwd p)) (p.steps.map Component.text) =
      .ok (.directory (p.destination cwd)) := by
  rcases hdir with hempty | hs
  · have hsteps : p.steps = [] := by
      rw [Path.steps, hempty]
      rfl
    rw [Path.destination, hsteps]
    rfl
  · obtain ⟨-, l, hl⟩ := status_eq_directory_iff.1 hs
    have hplace : l = p.destination cwd := place_follow_steps hl
    rw [← hplace]
    exact follow_eq_directory_iff.1 hl

theorem checkDirectory_of_hasDirectory (hdir : fs.HasDirectory cwd p) :
    fs.checkDirectory cwd p = .ok () := by
  have hfollow := follow_of_hasDirectory hdir
  have hcheck := hdir.imp_right fun hs => (status_eq_directory_iff.1 hs).1
  rw [checkDirectory_eq_checkWay hcheck, checkWay_eq_of_follow (fun _ => Path.isStep_of_mem_steps)
    (by rw [hfollow]; nofun), hfollow]

theorem node?_of_passes (hcwd : fs.node? cwd = some .directory) (hdir : fs.HasDirectory cwd p)
    (hl : p.Passes cwd l) : fs.node? l = some .directory := by
  obtain ⟨cs, ⟨ds, hsteps⟩, rfl⟩ := hl
  have hfollow := follow_of_hasDirectory hdir
  rw [← hsteps, List.map_append, follow_append] at hfollow
  obtain ⟨t, ht, hrest⟩ := bind_eq_ok_iff.1 hfollow
  have hstands := stands_follow (stands_startOf hcwd p) ht
  have hcs : ∀ c ∈ cs, c.IsStep := fun c hc =>
    Path.isStep_of_mem_steps (hsteps ▸ List.mem_append_left ds hc)
  have hplace := place_follow ht
  rw [filterMap_map_text hcs] at hplace
  cases t with
  | directory m =>
    change m = cs.foldl Component.next (startOf cwd p) at hplace
    rw [← hplace]
    exact hstands
  | file m f => cases ds <;> cases hrest
  | free m name => cases ds <;> cases hrest

end FileSystem

namespace Procedure

variable {h : Host} {w w' : World} {p q : Path} {above : List Path}
  {m : Procedure (Except IoError Unit)} {e : IoError}

/-! ## What is reported -/

theorem run_makeDirectoryOr_of_checkPath_error (hp : p.text ≠ "")
    (hcheck : checkPath p = .error e) :
    (makeDirectoryOr p m).run h w = (.error e, w) := by
  have hm : w.files.makeDirectory h.directory p = .error e := by
    rw [makeDirectory, hcheck]
    rfl
  have he : e ≠ .notFound := by
    rintro rfl
    exact checkPath_ne_notFound hp hcheck
  rw [run_makeDirectoryOr_of_error hm he, run_acceptDirectory_of_ne]
  intro hs
  rw [status_of_checkPath hcheck] at hs
  cases hs

/-- Unless something on the way is missing, one request finds out what is in the way. -/
theorem run_makeDirectoryOr_fst (hp : p.EndsInStepOrSlash) (hcheck : checkPath p = .ok ())
    (hfound : w.files.follow (.directory (startOf h.directory p)) (p.steps.map Component.text) ≠
      .error .notFound) :
    ((makeDirectoryOr p m).run h w).1 =
      w.files.checkWay false (startOf h.directory p) p.steps := by
  rw [checkWay_eq_of_follow (fun _ => Path.isStep_of_mem_steps) hfound]
  have hm : w.files.makeDirectory h.directory p = _ := makeDirectory_eq_follow hp hcheck
  have hs : w.files.status h.directory p = .ok .directory ↔ _ :=
    status_eq_directory_iff_follow hcheck
  cases ht : w.files.follow (.directory (startOf h.directory p)) (p.steps.map Component.text) with
  | error e =>
    rw [ht] at hm hs hfound
    rw [run_makeDirectoryOr_of_error hm fun he => hfound (congrArg _ he)]
    rw [run_acceptDirectory_of_ne fun hdir => nomatch hs.1 hdir]
  | ok t =>
    rw [ht] at hm hs
    cases t with
    | directory l =>
      have hdir := hs.2 ⟨l, rfl⟩
      rw [run_makeDirectoryOr_of_error hm nofun, run_acceptDirectory_of_status hdir]
    | file l f =>
      rw [run_makeDirectoryOr_of_error hm nofun,
        run_acceptDirectory_of_ne fun hdir => nomatch hs.1 hdir]
    | free l name =>
      rw [makeDirectoryOr, run, Host.answer, hm]
      rfl

theorem CallsOnly.addsDirectories_run {α : Type} {m : Procedure α}
    (hm : m.CallsOnly Call.IsDirectory) (w : World) :
    w.files.AddsDirectories (m.run h w).2.files :=
  (hm.mono fun _ => Call.IsDirectory.touches).changesOnly_run w

theorem run_createDirectories_of_found (hp : p.EndsInStepOrSlash)
    (hfound : checkPath p = .ok () →
      w.files.follow (.directory (startOf h.directory p)) (p.steps.map Component.text) ≠
        .error .notFound) :
    ((createDirectories p above).run h w).1 = w.files.checkDirectory h.directory p := by
  by_cases hempty : p.text = ""
  · cases above <;> rw [createDirectories, if_pos hempty, checkDirectory, if_pos hempty, run_done]
  · have hmake (m : Procedure (Except IoError Unit)) :
        ((makeDirectoryOr p m).run h w).1 = w.files.checkDirectory h.directory p := by
      cases hcheck : checkPath p with
      | error e =>
        rw [run_makeDirectoryOr_of_checkPath_error hempty hcheck,
          checkDirectory_of_checkPath_error hempty hcheck]
      | ok _ =>
        rw [run_makeDirectoryOr_fst hp hcheck (hfound hcheck),
          checkDirectory_eq_checkWay (Or.inr hcheck)]
    cases above <;> rw [createDirectories, if_neg hempty, hmake]

theorem run_createDirectories_of_missing (hcwd : w.files.node? h.directory = some .directory)
    (hp : p.EndsInStepOrSlash) (hq : q.IsParentOf p) (hcheck : checkPath p = .ok ())
    (hmissing : w.files.follow (.directory (startOf h.directory p)) (p.steps.map Component.text) =
      .error .notFound)
    (habove : ((createDirectories q above).run h w).1 = w.files.checkDirectory h.directory q) :
    ((createDirectories p (q :: above)).run h w).1 = w.files.checkDirectory h.directory p := by
  have hm : w.files.makeDirectory h.directory p = .error .notFound := by
    rw [makeDirectory_eq_follow hp hcheck, hmissing]
    rfl
  have hempty := text_ne_empty_of_checkPath hcheck
  rw [createDirectories, if_neg hempty, run_makeDirectoryOr_of_notFound hm]
  obtain ⟨c, hsteps⟩ := exists_step_of_missing hq hmissing
  have hisStep : ∀ d ∈ q.steps ++ [c], d.IsStep := fun d hd =>
    Path.isStep_of_mem_steps (hsteps ▸ hd)
  rw [checkDirectory_of_missing hq hsteps hcheck hmissing, ← habove]
  have hadds := (callsOnly_createDirectories q above).addsDirectories_run (h := h) w
  rw [andThen, run_bind]
  rcases hrun : (createDirectories q above).run h w with ⟨e | _, v⟩
  · rfl
  · -- now the directory above exists
    rw [hrun] at hadds
    have hfollow := follow_of_hasDirectory (hasDirectory_of_run_createDirectories hcwd hrun)
    obtain ⟨hfound, hway⟩ := checkWay_of_follow_directory hisStep hfollow
    rw [startOf_of_isParentOf hq, ← hsteps] at hfound hway
    change ((makeDirectoryOr p (acceptDirectory p .notFound)).run h v).1 =
      w.files.checkWay true (q.destination h.directory) [c]
    rw [run_makeDirectoryOr_fst hp hcheck hfound, hway]
    rcases checkWay_of_changesOnly hadds (fun _ _ => id) id with heq | ⟨-, hfalse, -⟩
    · exact heq
    · cases hfalse

/-- Making a directory with those above it reports what is in the way, if anything is. -/
theorem run_createDirectories_fst (hcwd : w.files.node? h.directory = some .directory)
    (hp : p.EndsInStepOrSlash) (habove : p.parents = above) :
    ((createDirectories p above).run h w).1 = w.files.checkDirectory h.directory p := by
  induction above generalizing p with
  | nil =>
    refine run_createDirectories_of_found hp fun _ => ?_
    rw [Path.steps_eq_nil_of_parents_eq_nil habove]
    nofun
  | cons q above ih =>
    have hq := Path.isParentOf_of_parents_eq habove
    by_cases hmissing : checkPath p = .ok () ∧
        w.files.follow (.directory (startOf h.directory p)) (p.steps.map Component.text) =
          .error .notFound
    · exact run_createDirectories_of_missing hcwd hp hq hmissing.1 hmissing.2
        (ih hq.endsInStep.orSlash (Path.parents_of_parents_eq habove))
    · exact run_createDirectories_of_found hp fun hcheck hnot => hmissing ⟨hcheck, hnot⟩

theorem run_ensureDirectory_fst (hcwd : w.files.node? h.directory = some .directory)
    (hp : p.EndsInStepOrSlash) :
    ((ensureDirectory p).run h w).1 = w.files.checkDirectory h.directory p := by
  rw [ensureDirectory, run_bind]
  by_cases hs : w.files.status h.directory p = .ok .directory
  · rw [run_isDirectory_of_status hs, checkDirectory_of_hasDirectory (Or.inr hs)]
    rfl
  · rw [run_isDirectory_of_ne hs]
    exact run_createDirectories_fst hcwd hp rfl

/-! ## What has been made -/

/-- Making a directory makes the places on the way to it directories, and changes nothing else. -/
theorem gains_of_run_ensureDirectory (hcwd : w.files.node? h.directory = some .directory)
    (he : (ensureDirectory p).run h w = (.ok (), w')) :
    Gains (p.Passes h.directory) w.files w'.files := by
  have hchanges := (callsOnly_touches_ensureDirectory p).changesOnly_run (h := h) w
  have hadds := (callsOnly_ensureDirectory p).addsDirectories_run (h := h) w
  rw [he] at hchanges hadds
  refine Gains.of_changesOnly hchanges fun l hl => ?_
  exact node?_of_passes (node?_of_le hadds.le hcwd)
    (hasDirectory_of_run_ensureDirectory hcwd he) hl

end Procedure

end CompileDriver
