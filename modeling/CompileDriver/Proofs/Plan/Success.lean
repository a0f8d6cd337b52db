import CompileDriver.Plan
import CompileDriver.Proofs.OptionsFile.Reader

/-! # Successful plans

A plan that succeeds holds one invocation for each source, in the order of the sources, and what
it warns of are the warnings for the sources, in the same order. What is planned for one source
depends on nothing that was done before, except through the shared arguments.
-/

namespace CompileDriver

open Procedure

namespace ObjectPath

variable {h : Host} {w w' : World} {cwd objects source output : Path} {limit : Option Nat}
  {suffix : String} {root : Option Path}

theorem callsOnly_prepare_of {P : Call → Prop}
    (hdir : ∀ d, (of objects source suffix root).parent? = some d →
      ∀ p ∈ d :: d.parents, P (.status p) ∧ P (.makeDirectory p)) :
    (prepare cwd limit objects source suffix root).CallsOnly P := by
  unfold prepare
  dsimp only
  split
  · trivial
  · split
    · trivial
    · next d hd =>
      refine ((callsOnly_ensureDirectory_of (hdir d hd)).mapError _).andThen fun _ => ?_
      trivial

theorem callsOnly_prepare :
    (prepare cwd limit objects source suffix root).CallsOnly Call.IsDirectory :=
  callsOnly_prepare_of fun _ _ _ _ => ⟨trivial, trivial⟩

theorem run_prepare_eq_ok
    (hp : (prepare cwd limit objects source suffix root).run h w = (.ok output, w')) :
    output = of objects source suffix root ∧ w.files ≤ w'.files ∧ w'.notices = w.notices := by
  have hcalls : (prepare cwd limit objects source suffix root).CallsOnly Call.IsDirectory :=
    callsOnly_prepare
  have hle := hcalls.le_run (h := h) w
  have hnotices := (hcalls.mono fun _ => Call.IsDirectory.isFile).run_notices (h := h) w
  rw [hp] at hle hnotices
  refine ⟨?_, hle, hnotices⟩
  unfold prepare at hp
  dsimp only at hp
  split at hp
  · cases hp
  · split at hp
    · cases hp
      rfl
    · obtain ⟨_, _, -, hp⟩ := run_andThen_eq_ok.1 hp
      cases hp
      rfl

end ObjectPath

namespace Plan

variable {h : Host} {w w' : World} {cwd : Path} {family : Family} {options : Options} {s : Spec}
  {shared : List String}

/-- The invocation that a plan holds for a source. -/
def planned (cwd : Path) (family : Family) (s : Spec) (shared : List String) (source : Path) :
    Invocation :=
  Invocation.make cwd family s.objectDirectory shared
    (PrecompiledHeader.decide cwd family s source).arguments source (objectOf family s source)

/-- What planning for a source warns of. -/
def warning? (cwd : Path) (family : Family) (s : Spec) (source : Path) : Option String :=
  (PrecompiledHeader.decide cwd family s source).warning

theorem run_warnMaybe (m : Option String) (w : World) :
    ((warnMaybe m).run h w).2 =
      { w with notices := w.notices ++ m.toList.map Notice.warning } := by
  cases m with
  | none => simp [warnMaybe]
  | some m => rfl

theorem run_invocation_eq_ok {source : Path} {i : Invocation}
    (hi : (invocation cwd family options s shared source).run h w = (.ok i, w')) :
    i = planned cwd family s shared source ∧ w.files ≤ w'.files ∧
      w'.notices = w.notices ++ (warning? cwd family s source).toList.map Notice.warning := by
  rw [invocation, run_bind, run_warnMaybe] at hi
  obtain ⟨output, v, hprepare, hi⟩ := run_andThen_eq_ok.1 hi
  rw [run_mapError_eq_ok] at hprepare
  obtain ⟨rfl, hle, hnotices⟩ := ObjectPath.run_prepare_eq_ok hprepare
  cases hi
  exact ⟨rfl, hle, hnotices⟩

theorem run_invocations_eq_ok {sources : List Path} {is : List Invocation}
    (his : (invocations cwd family options s shared sources).run h w = (.ok is, w')) :
    is = sources.map (planned cwd family s shared) ∧ w.files ≤ w'.files ∧
      w'.notices = w.notices ++
        (sources.filterMap (warning? cwd family s)).map Notice.warning := by
  induction sources generalizing w is with
  | nil =>
    cases his
    exact ⟨rfl, le_rfl, by simp⟩
  | cons source sources ih =>
    obtain ⟨i, v, hi, his⟩ := run_andThen_eq_ok.1 his
    obtain ⟨is, v', hrest, hdone⟩ := run_andThen_eq_ok.1 his
    cases hdone
    obtain ⟨rfl, hle, hnotices⟩ := run_invocation_eq_ok hi
    obtain ⟨rfl, hle', hnotices'⟩ := ih hrest
    refine ⟨rfl, le_trans hle hle', ?_⟩
    rw [hnotices', hnotices, List.append_assoc, ← List.map_append]
    cases hw : warning? cwd family s source <;> simp [hw]

theorem run_make_eq_ok {is : List Invocation} (hfile : options.commandFile = false)
    (his : (make cwd family options s).run h w = (.ok is, w')) :
    is = s.sources.map (planned cwd family s (sharedArguments family options s)) ∧
      w'.notices = w.notices ++
        (s.sources.filterMap (warning? cwd family s)).map Notice.warning := by
  obtain ⟨shared, v, hshared, his⟩ := run_andThen_eq_ok.1 his
  rw [assemble, if_neg (by simp [hfile])] at hshared
  cases hshared
  obtain ⟨rfl, -, hnotices⟩ := run_invocations_eq_ok his
  exact ⟨rfl, hnotices⟩

/-- A plan with an options file, which holds the shared arguments when the plan is complete. -/
theorem run_make_commandFile_eq_ok {is : List Invocation} (hfile : options.commandFile = true)
    (his : (make cwd family options s).run h w = (.ok is, w')) :
    is = s.sources.map (planned cwd family s
        [OptionsFile.reference (OptionsFile.location cwd s.tempDirectory)]) ∧
      w'.notices = w.notices ++
        (s.sources.filterMap (warning? cwd family s)).map Notice.warning ∧
      w'.files.read h.directory (OptionsFile.location cwd s.tempDirectory) =
        .ok (OptionsFile.contents family.quoting (sharedArguments family options s)).toUTF8 := by
  obtain ⟨shared, v, hshared, his⟩ := run_andThen_eq_ok.1 his
  rw [assemble, if_pos hfile] at hshared
  obtain ⟨p, u, hwrite, hshared⟩ := run_andThen_eq_ok.1 hshared
  cases hshared
  rw [run_mapError_eq_ok] at hwrite
  obtain ⟨rfl, hnotices, hread⟩ := OptionsFile.run_write_eq_ok hwrite
  obtain ⟨rfl, hle, hnotices'⟩ := run_invocations_eq_ok his
  rw [hnotices] at hnotices'
  exact ⟨rfl, hnotices', FileSystem.read_of_le hle hread⟩

theorem exists_planned_of_run_make {is : List Invocation}
    (his : (make cwd family options s).run h w = (.ok is, w')) :
    ∃ shared, is = s.sources.map (planned cwd family s shared) := by
  cases hfile : options.commandFile with
  | false => exact ⟨_, (run_make_eq_ok hfile his).1⟩
  | true => exact ⟨_, (run_make_commandFile_eq_ok hfile his).1⟩

theorem callsOnly_assemble_of {P : Call → Prop}
    (hdir : options.commandFile = true →
      ∀ p ∈ s.tempDirectory :: s.tempDirectory.parents, P (.status p) ∧ P (.makeDirectory p))
    (hcreate : options.commandFile = true →
      P (.create (OptionsFile.location cwd s.tempDirectory)))
    (hwrite : options.commandFile = true → ∀ data,
      P (.write (OptionsFile.location cwd s.tempDirectory) data)) :
    (assemble cwd family options s).CallsOnly P := by
  unfold assemble
  dsimp only
  split
  · next hfile =>
    have hcalls : (OptionsFile.write cwd family.quoting (sharedArguments family options s)
        s.tempDirectory).CallsOnly P :=
      OptionsFile.callsOnly_write_of (hdir hfile) (hcreate hfile) (hwrite hfile)
    exact (hcalls.mapError _).andThen fun _ => trivial
  · trivial

theorem callsOnly_assemble : (assemble cwd family options s).CallsOnly Call.IsFile :=
  callsOnly_assemble_of (fun _ _ _ => ⟨trivial, trivial⟩) (fun _ => trivial) fun _ _ => trivial

theorem node?_of_run_assemble {l : Location} {r : Except PlanFailure (List String)}
    (hl : w.files.node? l = some .directory)
    (hshared : (assemble cwd family options s).run h w = (r, w')) :
    w'.files.node? l = some .directory := by
  have hkept : w.files.KeepsDirectories ((assemble cwd family options s).run h w).2.files :=
    callsOnly_assemble.keepsDirectories_run w
  rw [hshared] at hkept
  exact hkept l hl

theorem callsOnly_invocation_of {P : Call → Prop} {source : Path} (hwarn : ∀ m, P (.warn m))
    (hdir : ∀ d, (objectOf family s source).parent? = some d →
      ∀ p ∈ d :: d.parents, P (.status p) ∧ P (.makeDirectory p)) :
    (invocation cwd family options s shared source).CallsOnly P := by
  have hprepare : (ObjectPath.prepare cwd options.pathLimit s.objectDirectory source
      family.objectSuffix s.sourceRoot).CallsOnly P :=
    ObjectPath.callsOnly_prepare_of hdir
  refine CallsOnly.bind ?_ fun _ => (hprepare.mapError _).andThen fun _ => trivial
  cases (PrecompiledHeader.decide cwd family s source).warning with
  | none => trivial
  | some m => exact ⟨hwarn m, fun _ => trivial⟩

theorem callsOnly_invocations_of {P : Call → Prop} {sources : List Path}
    (hwarn : ∀ m, P (.warn m))
    (hdir : ∀ source ∈ sources, ∀ d, (objectOf family s source).parent? = some d →
      ∀ p ∈ d :: d.parents, P (.status p) ∧ P (.makeDirectory p)) :
    (invocations cwd family options s shared sources).CallsOnly P := by
  induction sources with
  | nil => trivial
  | cons source sources ih =>
    obtain ⟨hsource, hsources⟩ := List.forall_mem_cons.1 hdir
    exact (callsOnly_invocation_of hwarn hsource).andThen fun _ =>
      (ih hsources).andThen fun _ => trivial

end Plan

/-! ## Plans for some of the sources

What is planned for a source does not depend on which other sources a specification lists: the
shared arguments and the invocation of a source are the same under any list of sources. A plan is
that of its shared arguments, then of its sources.
-/

namespace Spec

abbrev withSources (s : Spec) (sources : List Path) : Spec := { s with sources }

end Spec

namespace Plan

variable {h : Host} {w w' : World} {cwd : Path} {family : Family} {options : Options} {s : Spec}
  {shared : List String} {source : Path} {sources others : List Path} {is : List Invocation}
  {e : PlanFailure}

theorem assemble_withSources :
    assemble cwd family options (s.withSources others) = assemble cwd family options s := by
  have hshared : family.sharedArguments (s.withSources others) = family.sharedArguments s := by
    cases family <;> rfl
  rw [assemble, assemble, sharedArguments, hshared]
  rfl

theorem invocation_withSources :
    invocation cwd family options (s.withSources others) shared source =
      invocation cwd family options s shared source := by
  cases family <;> rfl

theorem invocations_withSources :
    invocations cwd family options (s.withSources others) shared sources =
      invocations cwd family options s shared sources := by
  induction sources with
  | nil => rfl
  | cons source sources ih => rw [invocations, invocations, invocation_withSources, ih]

theorem make_withSources :
    make cwd family options (s.withSources sources) =
      (assemble cwd family options s).andThen fun shared =>
        invocations cwd family options s shared sources := by
  rw [make, assemble_withSources]
  exact congrArg _ (funext fun shared => invocations_withSources)

end Plan

end CompileDriver
