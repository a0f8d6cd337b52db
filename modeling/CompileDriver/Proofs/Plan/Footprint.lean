import CompileDriver.Proofs.FileSystem.Frame
import CompileDriver.Proofs.Plan.Success

/-! # What planning leaves behind

Planning makes the directories on the way to the object files and to the options file, writes the
options file if there is to be one, and touches nothing else, also when it fails. Where a plan has
been made everything is in place, so the same plan is made again without any change.
-/

namespace CompileDriver

open Procedure

namespace OptionsFile

variable {h : Host} {v w w' : World} {cwd p tempDir : Path} {q : Quoting} {args : List String}

theorem hasDirectory_of_run_write (hcwd : w.files.node? h.directory = some .directory)
    (hw : (write cwd q args tempDir).run h w = (.ok p, w')) :
    w'.files.HasDirectory h.directory tempDir := by
  obtain ⟨_, u, hmake, hw⟩ := run_andThen_eq_ok.1 hw
  obtain ⟨_, u', hwrite, hw⟩ := run_andThen_eq_ok.1 hw
  cases hw
  have hcalls : (writeFile (location cwd tempDir) (contents q args).toUTF8).CallsOnly
      Call.IsFile := callsOnly_writeFile
  have hkept := hcalls.keepsDirectories_run (h := h) u
  rw [hwrite] at hkept
  exact (hasDirectory_of_run_createDirectories hcwd hmake).mono hkept

theorem run_write_again (hcwd : w.files.node? h.directory = some .directory)
    (hw : (write cwd q args tempDir).run h w = (.ok p, w')) (hle : w'.files ≤ v.files) :
    (write cwd q args tempDir).run h v = (.ok p, v) := by
  have hread := FileSystem.read_of_le hle (run_write_eq_ok hw).2.2
  have hdir := (hasDirectory_of_run_write hcwd hw).mono (FileSystem.keepsDirectories_of_le hle)
  obtain ⟨_, u, -, hw⟩ := run_andThen_eq_ok.1 hw
  obtain ⟨_, u', hwrite, hw⟩ := run_andThen_eq_ok.1 hw
  cases hw
  refine run_andThen_eq_ok.2 ⟨(), v, run_createDirectories_of_hasDirectory hdir, ?_⟩
  exact run_andThen_eq_ok.2 ⟨(), v, run_writeFile_again hwrite hread, rfl⟩

end OptionsFile

namespace ObjectPath

variable {h : Host} {v w w' : World} {cwd objects source output : Path} {limit : Option Nat}
  {suffix : String} {root : Option Path}

theorem run_prepare_again (hcwd : w.files.node? h.directory = some .directory)
    (hp : (prepare cwd limit objects source suffix root).run h w = (.ok output, w'))
    (hle : w'.files ≤ v.files) :
    (prepare cwd limit objects source suffix root).run h v = (.ok output, v) := by
  unfold prepare at hp ⊢
  dsimp only at hp ⊢
  split at hp
  · cases hp
  · split at hp
    · cases hp
      rfl
    · obtain ⟨_, u, hensure, hp⟩ := run_andThen_eq_ok.1 hp
      cases hp
      rw [run_mapError_eq_ok] at hensure
      have hdir := (hasDirectory_of_run_ensureDirectory hcwd hensure).mono
        (FileSystem.keepsDirectories_of_le hle)
      refine run_andThen_eq_ok.2 ⟨(), v, ?_, rfl⟩
      rw [run_mapError_eq_ok]
      exact run_ensureDirectory_of_hasDirectory hdir

end ObjectPath

namespace Plan

variable {h : Host} {v w w' : World} {cwd : Path} {family : Family} {options : Options} {s : Spec}
  {shared : List String} {source : Path} {sources : List Path}

/-! ## What is touched -/

/-- The places on the way to the directory of the object file of a source. -/
def OnWay (directory : Location) (family : Family) (s : Spec) (source : Path) (l : Location) :
    Prop :=
  ∃ d, (objectOf family s source).parent? = some d ∧ d.Passes directory l

instance (directory : Location) (family : Family) (s : Spec) (source : Path) (l : Location) :
    Decidable (OnWay directory family s source l) :=
  inferInstanceAs (Decidable (∃ d ∈ (objectOf family s source).parent?, d.Passes directory l))

/-- The places on the ways of a request, to its object files and, if there is to be one, to its
options file. -/
def OnWays (directory : Location) (family : Family) (options : Options) (s : Spec)
    (l : Location) : Prop :=
  options.commandFile = true ∧ s.tempDirectory.Passes directory l ∨
    ∃ source ∈ s.sources, OnWay directory family s source l

instance (directory : Location) (family : Family) (options : Options) (s : Spec) (l : Location) :
    Decidable (OnWays directory family options s l) :=
  inferInstanceAs (Decidable (_ ∨ _))

/-- The place of the options file of a request, if there is to be one. -/
def IsOptionsFile (cwd : Path) (directory : Location) (options : Options) (s : Spec)
    (l : Location) : Prop :=
  options.commandFile = true ∧ l = (OptionsFile.location cwd s.tempDirectory).destination directory

theorem callsOnly_make_touches (directory : Location) :
    (make cwd family options s).CallsOnly <| Call.Touches directory
      (OnWays directory family options s) (IsOptionsFile cwd directory options s) := by
  refine CallsOnly.andThen ?_ fun shared => ?_
  · refine callsOnly_assemble_of (fun hfile q hq => ?_) (fun hfile => ?_) fun hfile data => ?_
    · exact ⟨trivial, Call.touches_makeDirectory (fun l hl => Or.inl ⟨hfile, hl⟩) hq⟩
    · exact ⟨hfile, rfl⟩
    · exact ⟨hfile, rfl⟩
  · refine callsOnly_invocations_of (fun _ => trivial) fun source hsource d hd q hq => ?_
    exact ⟨trivial,
      Call.touches_makeDirectory (fun l hl => Or.inr ⟨source, hsource, d, hd, hl⟩) hq⟩

/-! ## What is repeated -/

theorem run_assemble_again (hcwd : w.files.node? h.directory = some .directory)
    (hshared : (assemble cwd family options s).run h w = (.ok shared, w'))
    (hle : w'.files ≤ v.files) : (assemble cwd family options s).run h v = (.ok shared, v) := by
  unfold assemble at hshared ⊢
  dsimp only at hshared ⊢
  split at hshared
  · next hfile =>
    obtain ⟨p, u, hwrite, hshared⟩ := run_andThen_eq_ok.1 hshared
    cases hshared
    rw [run_mapError_eq_ok] at hwrite
    have hagain := OptionsFile.run_write_again hcwd hwrite hle
    rw [if_pos hfile]
    refine run_andThen_eq_ok.2 ⟨p, v, ?_, rfl⟩
    rwa [run_mapError_eq_ok]
  · next hfile =>
    cases hshared
    rw [if_neg hfile]
    rfl

theorem run_invocation_again {i : Invocation} (hcwd : w.files.node? h.directory = some .directory)
    (hi : (invocation cwd family options s shared source).run h w = (.ok i, w'))
    (hle : w'.files ≤ v.files) :
    ∃ v', (invocation cwd family options s shared source).run h v = (.ok i, v') ∧
      v'.files = v.files := by
  rw [invocation, run_bind, run_warnMaybe] at hi ⊢
  obtain ⟨output, u, hprepare, hi⟩ := run_andThen_eq_ok.1 hi
  cases hi
  rw [run_mapError_eq_ok] at hprepare
  -- the second time too there is a warning first
  have hagain := ObjectPath.run_prepare_again (by exact hcwd) hprepare (v := { v with
    notices := v.notices ++ (PrecompiledHeader.decide cwd family s source).warning.toList.map
      Notice.warning }) hle
  exact ⟨_, run_andThen_eq_ok.2 ⟨output, _, run_mapError_eq_ok.2 hagain, rfl⟩, rfl⟩

theorem run_invocations_again {is : List Invocation}
    (hcwd : w.files.node? h.directory = some .directory)
    (his : (invocations cwd family options s shared sources).run h w = (.ok is, w'))
    (hle : w'.files ≤ v.files) :
    ∃ v', (invocations cwd family options s shared sources).run h v = (.ok is, v') ∧
      v'.files = v.files := by
  induction sources generalizing v w is with
  | nil =>
    cases his
    exact ⟨v, rfl, rfl⟩
  | cons source sources ih =>
    obtain ⟨i, u, hi, his⟩ := run_andThen_eq_ok.1 his
    obtain ⟨js, u', hjs, hdone⟩ := run_andThen_eq_ok.1 his
    cases hdone
    obtain ⟨-, hgrown, -⟩ := run_invocation_eq_ok hi
    obtain ⟨-, hgrown', -⟩ := run_invocations_eq_ok hjs
    obtain ⟨v₁, hi, hv₁⟩ := run_invocation_again hcwd hi (le_trans hgrown' hle)
    obtain ⟨v₂, hjs, hv₂⟩ := ih (FileSystem.node?_of_le hgrown hcwd) hjs (hv₁ ▸ hle)
    refine ⟨v₂, ?_, hv₂.trans hv₁⟩
    exact run_andThen_eq_ok.2 ⟨i, v₁, hi, run_andThen_eq_ok.2 ⟨js, v₂, hjs, rfl⟩⟩

theorem run_make_again {is : List Invocation} (hcwd : w.files.node? h.directory = some .directory)
    (his : (make cwd family options s).run h w = (.ok is, w')) :
    ∃ v, (make cwd family options s).run h w' = (.ok is, v) ∧ v.files = w'.files := by
  obtain ⟨shared, u, hshared, his⟩ := run_andThen_eq_ok.1 his
  obtain ⟨-, hgrown, -⟩ := run_invocations_eq_ok his
  obtain ⟨v, hagain, hv⟩ := run_invocations_again (node?_of_run_assemble hcwd hshared) his le_rfl
  exact ⟨v, run_andThen_eq_ok.2 ⟨shared, w', run_assemble_again hcwd hshared hgrown, hagain⟩, hv⟩

/-- Planning, whether it succeeds or fails, leaves everything as it was except for the options file
and for directories on the way to it and to the object files. A plan that has been made is made
again without any change. -/
theorem make_leaves_the_rest (h : Host) (w : World) (cwd : Path) (family : Family)
    (options : Options) (s : Spec) :
    let ran := (make cwd family options s).run h w
    let optionsFile := (Path.absolute cwd (s.tempDirectory / "options.txt")).destination h.directory
    let object (source : Path) :=
      ObjectPath.of s.objectDirectory source family.objectSuffix s.sourceRoot
    (∀ l n, w.files.node? l = some n → ran.2.files.node? l = some n ∨
      (options.commandFile = true ∧ l = optionsFile ∧ (∃ f, n = .file f) ∧
        ∃ f, ran.2.files.node? l = some (.file f))) ∧
    (∀ l n, w.files.node? l = none → ran.2.files.node? l = some n →
      (options.commandFile = true ∧ l = optionsFile ∧ ∃ f, n = .file f) ∨
      (n = .directory ∧
        ((options.commandFile = true ∧ s.tempDirectory.Passes h.directory l) ∨
          ∃ source ∈ s.sources, ∃ d,
            (object source).parent? = some d ∧ d.Passes h.directory l))) ∧
    (w.files.node? h.directory = some .directory → ∀ is v, ran = (.ok is, v) →
      ∃ v', (make cwd family options s).run h v = (.ok is, v') ∧ v'.files = v.files) := by
  intro ran optionsFile object
  have htouches : (make cwd family options s).CallsOnly _ := callsOnly_make_touches h.directory
  have hchanges : FileSystem.ChangesOnly _ _ w.files ran.2.files := htouches.changesOnly_run w
  refine ⟨fun l n hn => ?_, fun l n hnone hn => ?_, fun hcwd is v his => run_make_again hcwd his⟩
  · rcases hchanges l with hsame | ⟨-, hnone, -⟩ | ⟨⟨hfile, hl⟩, hold, hnew⟩
    · exact Or.inl (hsame.trans hn)
    · rw [hnone] at hn
      cases hn
    · refine Or.inr ⟨hfile, hl, ?_, hnew⟩
      cases n with
      | directory => exact absurd hn hold
      | file f => exact ⟨f, rfl⟩
  · rcases hchanges l with hsame | ⟨hway, -, hnew⟩ | ⟨⟨hfile, hl⟩, -, f, hnew⟩
    · rw [hsame, hnone] at hn
      cases hn
    · rw [hnew] at hn
      cases hn
      exact Or.inr ⟨rfl, hway⟩
    · rw [hnew] at hn
      cases hn
      exact Or.inl ⟨hfile, hl, f, rfl⟩

/-- An old options file gives way to the new one. A plan that stops at a file in the place of a
directory leaves that file, and the directory that it has made before. -/
theorem make_leaves_the_rest_old_files :
    let h : Host := ⟨["r"], fun _ fs => (.error .notFound, fs)⟩
    let old : Node := .file ⟨"old".toUTF8, false⟩
    let w : World := {
      files := (((FileSystem.empty.putDirectories ["r", "out"]).putDirectories ["r", "tmp"]).put
        ["r", "tmp", "options.txt"] old).put ["r", "out", "b"] old }
    let options : Options := { commandFile := true }
    let s : Spec := {
      sources := [⟨"a/x.c"⟩]
      objectDirectory := ⟨"out"⟩
      tempDirectory := ⟨"tmp"⟩
      logLocation := ⟨"log"⟩ }
    w.files.node? h.directory = some .directory ∧
    (∃ is v v', (make ⟨"/r"⟩ .gcc options s).run h w = (.ok is, v) ∧
      v.files.node? ["r", "tmp", "options.txt"] =
        some (.file ⟨"-c\n-x\nc\n".toUTF8, false⟩) ∧
      (make ⟨"/r"⟩ .gcc options s).run h v = (.ok is, v') ∧ v'.files = v.files) ∧
    (∃ v, (make ⟨"/r"⟩ .gcc options { s with sources := [⟨"a/x.c"⟩, ⟨"b/y.c"⟩] }).run h w =
        (.error (.directory ⟨"out/b"⟩ .alreadyExists), v) ∧
      v.files.node? ["r", "out", "a"] = some .directory ∧
      v.files.node? ["r", "out", "b"] = some old) := by
  intro h old w options s
  have hcwd : w.files.node? h.directory = some .directory := by decide +kernel
  obtain ⟨v, his, hread⟩ : ∃ v, (make ⟨"/r"⟩ .gcc options s).run h w =
      (.ok (s.sources.map (planned ⟨"/r"⟩ .gcc s ["@/r/tmp/options.txt"])), v) ∧
      v.files.node? ["r", "tmp", "options.txt"] =
        some (.file ⟨"-c\n-x\nc\n".toUTF8, false⟩) :=
    ⟨_, run_eq_of_fst (h := h) (w := w) (p := make ⟨"/r"⟩ .gcc options s) (by decide +kernel),
      by decide +kernel⟩
  obtain ⟨u, he, hmade⟩ : ∃ v, (make ⟨"/r"⟩ .gcc options
      { s with sources := [⟨"a/x.c"⟩, ⟨"b/y.c"⟩] }).run h w =
        (.error (.directory ⟨"out/b"⟩ .alreadyExists), v) ∧
      v.files.node? ["r", "out", "a"] = some .directory :=
    ⟨_, run_eq_of_fst (h := h) (w := w)
      (p := make ⟨"/r"⟩ .gcc options { s with sources := [⟨"a/x.c"⟩, ⟨"b/y.c"⟩] })
      (by decide +kernel), by decide +kernel⟩
  obtain ⟨-, -, hagain⟩ := make_leaves_the_rest h w ⟨"/r"⟩ .gcc options s
  obtain ⟨hkept, -⟩ := make_leaves_the_rest h w ⟨"/r"⟩ .gcc options
    { s with sources := [⟨"a/x.c"⟩, ⟨"b/y.c"⟩] }
  rw [he] at hkept
  obtain ⟨v', his', hv'⟩ := hagain hcwd _ v his
  refine ⟨hcwd, ⟨_, v, v', his, hread, his', hv'⟩, u, he, hmade, ?_⟩
  -- the only file that may change is the options file
  rcases hkept ["r", "out", "b"] old (by decide +kernel) with hold | ⟨-, hl, -⟩
  · exact hold
  · exact absurd hl (by decide +kernel)

end Plan

end CompileDriver
