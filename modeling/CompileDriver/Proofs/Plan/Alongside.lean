import CompileDriver.Proofs.FileSystem.LastDot
import CompileDriver.Proofs.FileSystem.Writing
import CompileDriver.Proofs.OptionsFile.Location
import CompileDriver.Proofs.Plan.Independence

/-! # A request that is planned among others

While a request is planned, others may make directories, though not in the place of its options
file, and write files away from its ways and from that file. The request is planned as it would be
planned alone, except that a file in the way may be reported with another cause behind a step back.
A directory for the options file that is spelled with a last dot has to be one that can be made
alone.
-/

namespace CompileDriver

open Procedure FileSystem

namespace OptionsFile

variable {h : Host} {fs : FileSystem} {cwd tempDir : Path} {q : Quoting} {args : List String}
  {D F : Location → Prop}

/-- An options file is written among others as it is written alone, unless nothing but the end of
its directory is missing. -/
theorem withstands_write (hcwd : fs.LeadsTo cwd h.directory)
    (hway : ∀ l, tempDir.Passes h.directory l → ¬ F l)
    (hD : ¬ D ((location cwd tempDir).destination h.directory))
    (hF : ¬ F ((location cwd tempDir).destination h.directory)) :
    (write cwd q args tempDir).Withstands h (.changesOnly D F) (MetEarlier tempDir)
      (fun u v => DiffersBy fs D F u v ∧
        ((createDirectories tempDir tempDir.parents).run h u).1 ≠ .error .notFound)
      (DiffersBy fs D F) := by
  have hwrite : (writeFile (location cwd tempDir) (contents q args).toUTF8).Withstands h
      (.changesOnly D F) (MetEarlier tempDir)
      (fun u v => DiffersBy fs D F u v ∧ u.files.HasDirectory h.directory tempDir)
      (DiffersBy fs D F) := by
    refine (withstands_writeFile hcwd.node? (endsInSlash_location cwd tempDir) hD hF).mono
      (fun u v ⟨huv, hdir⟩ => ⟨huv, _, follow_location (hcwd.mono huv.kept) hdir⟩)
      (fun _ _ he => Or.inl he.symm) fun _ _ huv => huv.toDiffersBy
  exact (withstands_createDirectories hcwd.node? hway).andThen fun _ =>
    hwrite.andThen fun _ => .done _ fun _ _ _ => DiffersBy.after

end OptionsFile

namespace Plan

variable {h : Host} {w : World} {fs : FileSystem} {cwd : Path} {family : Family}
  {options : Options} {s : Spec} {shared : List String} {source : Path} {sources : List Path}
  {D F : Location → Prop}

/-- There is to be an options file, but its directory cannot be made for want of what its path ends
in. -/
def LacksTempDirectory (h : Host) (options : Options) (s : Spec) (w : World) : Prop :=
  options.commandFile = true ∧
    ((createDirectories s.tempDirectory s.tempDirectory.parents).run h w).1 = .error .notFound

/-- The failure `e` of a request alone may be reported as `e'` among others: as itself, or, if the
directory that cannot be made leads back, as a file that is met earlier on the way. -/
def MayTurnAmong (s : Spec) (e e' : PlanFailure) : Prop :=
  MayTurnInto s e e' ∨ ∃ p, e = .optionsFile p .alreadyExists ∧
    e' = .optionsFile p .notADirectory ∧ Component.parent ∈ s.tempDirectory.components

theorem withstands_assemble (hcwd : fs.LeadsTo cwd h.directory)
    (hways : ∀ l, OnWays h.directory family options s l → ¬ F l)
    (hfile : ∀ l, IsOptionsFile cwd h.directory options s l → ¬ D l ∧ ¬ F l) :
    (assemble cwd family options s).Withstands h (.changesOnly D F) (MayTurnAmong s)
      (fun u v => DiffersBy fs D F u v ∧ ¬ LacksTempDirectory h options s u)
      (DiffersBy fs D F) := by
  unfold assemble
  dsimp only
  split
  · next hcommand =>
    obtain ⟨hD, hF⟩ := hfile _ ⟨hcommand, rfl⟩
    have hwrite : (OptionsFile.write cwd family.quoting (sharedArguments family options s)
        s.tempDirectory).Withstands h (.changesOnly D F) (MetEarlier s.tempDirectory)
          (fun u v => DiffersBy fs D F u v ∧ ¬ LacksTempDirectory h options s u)
          (DiffersBy fs D F) :=
      (OptionsFile.withstands_write hcwd (fun l hl => hways l (Or.inl ⟨hcommand, hl⟩)) hD hF).mono
        (fun _ _ huv => ⟨huv.1, fun he => huv.2 ⟨hcommand, he⟩⟩) (fun _ _ => id) fun _ _ => id
    refine (hwrite.mapError ?_).andThen fun _ => .done _ fun _ _ _ => DiffersBy.after
    rintro e e' (rfl | ⟨rfl, rfl, hparent⟩)
    · exact Or.inl (Or.inl rfl)
    · refine Or.inr ⟨_, rfl, rfl, ?_⟩
      rw [Path.components_eq]
      exact List.mem_append_right _ hparent
  · exact .done _ fun _ _ _ huv => huv.1.after

theorem withstands_prepare (hcwd : fs.node? h.directory = some .directory)
    (hway : ∀ l, OnWay h.directory family s source l → ¬ F l) :
    (ObjectPath.prepare cwd options.pathLimit s.objectDirectory source family.objectSuffix
      s.sourceRoot).Withstands h (.changesOnly D F)
        (fun e e' => MayTurnInto s (.ofObject e) (.ofObject e')) (DiffersBy fs D F)
        (DiffersBy fs D F) := by
  unfold ObjectPath.prepare
  dsimp only
  split
  · exact .failed (Or.inl rfl)
  · split
    · exact .done _ fun _ _ _ => DiffersBy.after
    · next d hd =>
      have hensure : (ensureDirectory d).Withstands h (.changesOnly D F) (MetEarlier d)
          (DiffersBy fs D F)
          fun u v => DiffersBy fs D F u v ∧ u.files.HasDirectory h.directory d :=
        withstands_ensureDirectory hcwd (Path.isParentOf_of_parent? hd).endsInStep.orSlash
          fun l hl => hway l ⟨d, hd, hl⟩
      refine (hensure.mapError ?_).andThen fun _ => .done _ fun _ _ _ huv => huv.1.after
      rintro e e' (rfl | ⟨rfl, rfl, hparent⟩)
      · exact Or.inl rfl
      · exact Or.inr ⟨d, rfl, rfl, ObjectPath.parent_mem_components_of hd hparent⟩

theorem withstands_warnMaybe {ε α : Type} {T : ε → ε → Prop}
    {f : Unit → Procedure (Except ε α)} {post : World → World → Prop} (m : Option String)
    (hf : (f ()).Withstands h (.changesOnly D F) T (DiffersBy fs D F) post) :
    ((warnMaybe m).bind f).Withstands h (.changesOnly D F) T (DiffersBy fs D F) post := by
  intro u v r v' huv hrun
  obtain ⟨⟨⟩, v₁, hwarn, hrest⟩ := hrun.exists_of_bind
  have hsame : ChangesOnly D F v.files v₁.files := by
    cases m with
    | none => exact hwarn.2
    | some m =>
      obtain ⟨v₂, hv₂, -, hv₁⟩ := hwarn
      exact ChangesOnly.trans hv₂ hv₁
  rw [run_bind, run_warnMaybe]
  exact hf _ v₁ r v' ⟨huv.kept, huv.changes.trans hsame⟩ hrest

theorem withstands_invocation (hcwd : fs.node? h.directory = some .directory)
    (hway : ∀ l, OnWay h.directory family s source l → ¬ F l) :
    (invocation cwd family options s shared source).Withstands h (.changesOnly D F) (MayTurnInto s)
      (DiffersBy fs D F) (DiffersBy fs D F) :=
  withstands_warnMaybe _ <| ((withstands_prepare hcwd hway).mapError fun _ _ => id).andThen fun _ =>
    .done _ fun _ _ _ => DiffersBy.after

theorem withstands_invocations (hcwd : fs.node? h.directory = some .directory)
    (hways : ∀ source ∈ sources, ∀ l, OnWay h.directory family s source l → ¬ F l) :
    (invocations cwd family options s shared sources).Withstands h (.changesOnly D F)
      (MayTurnInto s) (DiffersBy fs D F) (DiffersBy fs D F) := by
  induction sources with
  | nil => exact .done _ fun _ _ _ => DiffersBy.after
  | cons source sources ih =>
    obtain ⟨hsource, hsources⟩ := List.forall_mem_cons.1 hways
    exact (withstands_invocation hcwd hsource).andThen fun _ =>
      (ih hsources).andThen fun _ => .done _ fun _ _ _ => DiffersBy.after

/-- A request is planned among others that spare its ways and its options file as it is planned
alone. -/
theorem withstands_make (hcwd : fs.LeadsTo cwd h.directory)
    (hways : ∀ l, OnWays h.directory family options s l → ¬ F l)
    (hfile : ∀ l, IsOptionsFile cwd h.directory options s l → ¬ D l ∧ ¬ F l) :
    (make cwd family options s).Withstands h (.changesOnly D F) (MayTurnAmong s)
      (fun u v => DiffersBy fs D F u v ∧ ¬ LacksTempDirectory h options s u)
      (DiffersBy fs D F) := by
  refine (withstands_assemble hcwd hways hfile).andThen fun shared => ?_
  refine (withstands_invocations hcwd.node? fun source hsource l hl => ?_).mono
    (fun _ _ => id) (fun _ _ => Or.inl) fun _ _ => id
  exact hways l (Or.inr ⟨source, hsource, hl⟩)

/-! ## A directory that is found -/

theorem exists_make_eq_bind (cwd : Path) (family : Family) (s : Spec)
    (hcommand : options.commandFile = true) :
    ∃ rest, make cwd family options s =
        (createDirectories s.tempDirectory s.tempDirectory.parents).bind rest ∧
      ∀ e, rest (.error e) =
        .done (.error (.optionsFile (OptionsFile.location cwd s.tempDirectory) e)) := by
  simp only [make, assemble, hcommand, if_true, OptionsFile.write, andThen, mapError, bind_assoc]
  exact ⟨_, rfl, fun _ => rfl⟩

theorem run_make_of_lacksTempDirectory (hlacks : LacksTempDirectory h options s w) :
    ((make cwd family options s).run h w).1 =
      .error (.optionsFile (OptionsFile.location cwd s.tempDirectory) .notFound) := by
  obtain ⟨hcommand, halone⟩ := hlacks
  obtain ⟨rest, hmake, herror⟩ := exists_make_eq_bind cwd family s hcommand
  rw [hmake, run_bind, halone, herror]
  rfl

theorem runsAmong_make_of_hasDirectory {E : Interference} {rest}
    {r : Except PlanFailure (List Invocation)} {v : World}
    (hmake : make cwd family options s =
      (createDirectories s.tempDirectory s.tempDirectory.parents).bind rest)
    (hdir : w.files.HasDirectory h.directory s.tempDirectory)
    (hrest : (rest (.ok ())).RunsAmong h E w r v) :
    (make cwd family options s).RunsAmong h E w r v := by
  have hrun := RunsAmong.run (h := h) (E := E)
    (createDirectories s.tempDirectory s.tempDirectory.parents) w
  rw [run_createDirectories_of_hasDirectory hdir] at hrun
  rw [hmake]
  exact hrun.bind hrest

/-- Among others a request finds the directory that it lacks, or it fails as it fails alone. -/
theorem LacksTempDirectory.of_runsAmong {r : Except PlanFailure (List Invocation)} {v : World}
    (hlacks : LacksTempDirectory h options s w)
    (hcwd : w.files.node? h.directory = some .directory)
    (hways : ∀ l, OnWays h.directory family options s l → ¬ F l)
    (hrun : (make cwd family options s).RunsAmong h (.changesOnly D F) w r v) :
    r = .error (.optionsFile (OptionsFile.location cwd s.tempDirectory) .notFound) ∨
      D (s.tempDirectory.destination h.directory) ∧ ∃ z : World,
        ChangesOnly (fun l => D l ∨ s.tempDirectory.Passes h.directory l) F w.files z.files ∧
        z.files.HasDirectory h.directory s.tempDirectory ∧
        (make cwd family options s).RunsAmong h (.changesOnly D F) z r v := by
  obtain ⟨hcommand, halone⟩ := hlacks
  obtain ⟨rest, hmake, herror⟩ := exists_make_eq_bind cwd family s hcommand
  obtain ⟨q, n, hlacks⟩ := exists_lacksEnd hcwd halone
  rw [hmake] at hrun
  obtain ⟨x, z, hx, hrest⟩ := hrun.exists_of_bind
  rcases hlacks.of_runsAmong hcwd (fun l hl => hways l (Or.inl ⟨hcommand, hl⟩)) hx with
    rfl | ⟨rfl, hD, hdir⟩
  · rw [herror] at hrest
    exact Or.inl hrest.1
  · refine Or.inr ⟨hD, z, ?_, hdir, runsAmong_make_of_hasDirectory hmake hdir hrest⟩
    exact hx.rel (R := .changesOnly (fun l => D l ∨ s.tempDirectory.Passes h.directory l) F)
      (callsOnly_touches_createDirectories s.tempDirectory)
      (fun _ hc w => (changesOnly_answer hc w).mono (fun _ => Or.inr) fun _ => False.elim)
      fun _ _ hw => ChangesOnly.mono hw (fun _ => Or.inl) fun _ => id

theorem LacksTempDirectory.exists_run_eq {u : World} (hlacks : LacksTempDirectory h options s w)
    (hcwd : w.files.node? h.directory = some .directory)
    (hways : ∀ l, OnWays h.directory family options s l → ¬ F l)
    (hu : ChangesOnly D F w.files u.files)
    (hdir : u.files.node? (s.tempDirectory.destination h.directory) = some .directory) :
    ∃ z : World,
      ChangesOnly (fun l => D l ∨ s.tempDirectory.Passes h.directory l) F w.files z.files ∧
      z.files.HasDirectory h.directory s.tempDirectory ∧
      (make cwd family options s).run h u = (make cwd family options s).run h z := by
  obtain ⟨hcommand, halone⟩ := hlacks
  obtain ⟨q, n, hlacks⟩ := exists_lacksEnd hcwd halone
  have hmade := run_eq_of_fst
    (hlacks.run_of_node? hcwd (fun l hl => hways l (Or.inl ⟨hcommand, hl⟩)) hu hdir)
  have hchanges := (callsOnly_touches_createDirectories s.tempDirectory).changesOnly_run (h := h) u
  have hfound := hasDirectory_of_run_createDirectories (hu.keepsDirectories _ hcwd) hmade
  refine ⟨_, (hu.mono (fun _ => Or.inl) fun _ => id).trans
    (hchanges.mono (fun _ => Or.inr) fun _ => False.elim), hfound, ?_⟩
  obtain ⟨rest, hmake, -⟩ := exists_make_eq_bind cwd family s hcommand
  rw [hmake, run_bind, run_bind, run_createDirectories_of_hasDirectory hfound, hmade]

/-- The worlds from which a request is planned in place of `w`: `w` itself, or, if the request lacks
the directory for its options file there, `w` with that directory and the way to it. -/
inductive Begins (h : Host) (options : Options) (s : Spec) (w : World) : World → Prop where
  | here : ¬ LacksTempDirectory h options s w → Begins h options s w w
  | found {fs : FileSystem} : LacksTempDirectory h options s w →
    Gains (s.tempDirectory.Passes h.directory) w.files fs →
    Begins h options s w { w with files := fs }

namespace Begins

variable {u u' : World}

theorem unique (hu : Begins h options s w u) (hu' : Begins h options s w u') : u = u' := by
  cases hu with
  | here hnot =>
    cases hu' with
    | here => rfl
    | found hlacks => exact absurd hlacks hnot
  | found hlacks hgains =>
    cases hu' with
    | here hnot => exact absurd hlacks hnot
    | found _ hgains' => rw [hgains.unique hgains']

theorem keepsDirectories (hu : Begins h options s w u) : w.files.KeepsDirectories u.files := by
  cases hu with
  | here => exact fun _ => id
  | found _ hgains => exact hgains.keepsDirectories

end Begins

theorem LacksTempDirectory.differsBy {fs : FileSystem} {z : World}
    (hcwd : w.files.node? h.directory = some .directory)
    (hgains : Gains (s.tempDirectory.Passes h.directory) w.files fs)
    (hz : ChangesOnly (fun l => D l ∨ s.tempDirectory.Passes h.directory l) F w.files z.files)
    (hdir : z.files.HasDirectory h.directory s.tempDirectory) :
    DiffersBy w.files D F { w with files := fs } z where
  kept := hgains.keepsDirectories
  changes := hgains.changesOnly hz fun _ => node?_of_passes (hz.keepsDirectories _ hcwd) hdir

theorem LacksTempDirectory.exists_begins {r : Except PlanFailure (List Invocation)} {v z : World}
    (hlacks : LacksTempDirectory h options s w) (hcwd : w.files.LeadsTo cwd h.directory)
    (hways : ∀ l, OnWays h.directory family options s l → ¬ F l)
    (hfile : ∀ l, IsOptionsFile cwd h.directory options s l → ¬ D l ∧ ¬ F l)
    (hz : ChangesOnly (fun l => D l ∨ s.tempDirectory.Passes h.directory l) F w.files z.files)
    (hdir : z.files.HasDirectory h.directory s.tempDirectory)
    (hrun : (make cwd family options s).RunsAmong h (.changesOnly D F) z r v) :
    ∃ u, Begins h options s w u ∧
      AgreesUpTo (MayTurnAmong s) ((make cwd family options s).run h u).1 r ∧
      ∀ is, r = .ok is → DiffersBy w.files D F ((make cwd family options s).run h u).2 v := by
  obtain ⟨q, n, hend⟩ := exists_lacksEnd hcwd.node? hlacks.2
  obtain ⟨fs, hgains, hfound⟩ := hend.exists_gains hcwd.node?
  refine ⟨{ w with files := fs }, .found hlacks hgains, withstands_make hcwd hways hfile _ z r v
    ⟨differsBy hcwd.node? hgains hz hdir, fun hnot => ?_⟩ hrun⟩
  have hmade : ((createDirectories s.tempDirectory s.tempDirectory.parents).run h
      { w with files := fs }).1 = .ok () :=
    congrArg Prod.fst (run_createDirectories_of_hasDirectory hfound)
  rw [hnot.2] at hmade
  cases hmade

/-- Among others a request is planned as alone, where it begins, or it fails for want of the
directory for its options file. -/
theorem make_cases {r : Except PlanFailure (List Invocation)} {v : World}
    (hcwd : w.files.LeadsTo cwd h.directory)
    (hways : ∀ l, OnWays h.directory family options s l → ¬ F l)
    (hfile : ∀ l, IsOptionsFile cwd h.directory options s l → ¬ D l ∧ ¬ F l)
    (hrun : (make cwd family options s).RunsAmong h (.changesOnly D F) w r v) :
    (LacksTempDirectory h options s w ∧
        r = .error (.optionsFile (OptionsFile.location cwd s.tempDirectory) .notFound)) ∨
      (LacksTempDirectory h options s w → D (s.tempDirectory.destination h.directory)) ∧
        ∃ u, Begins h options s w u ∧
          AgreesUpTo (MayTurnAmong s) ((make cwd family options s).run h u).1 r ∧
          ∀ is, r = .ok is → DiffersBy w.files D F ((make cwd family options s).run h u).2 v := by
  by_cases hlacks : LacksTempDirectory h options s w
  · rcases hlacks.of_runsAmong hcwd.node? hways hrun with hr | ⟨hD, z, hz, hdir, hrest⟩
    · exact Or.inl ⟨hlacks, hr⟩
    · exact Or.inr ⟨fun _ => hD, hlacks.exists_begins hcwd hways hfile hz hdir hrest⟩
  · exact Or.inr ⟨fun hnot => absurd hnot hlacks, w, .here hlacks,
      withstands_make hcwd hways hfile w w r v ⟨.refl w, hlacks⟩ hrun⟩

end Plan

end CompileDriver
