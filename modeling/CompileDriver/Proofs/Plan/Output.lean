import CompileDriver.Proofs.ObjectPath.Directory
import CompileDriver.Proofs.Path.Parents
import CompileDriver.Proofs.Plan.Success

/-! # Where compilers are told to write

A plan makes the directory of every object file. The compiler is told the object file as it is seen
from where the plan is made, but runs in the object directory. So it writes where the plan has
prepared it only if the object directory is absolute, or is the directory where the plan is made.
-/

namespace CompileDriver

open Procedure

namespace ObjectPath

variable {h : Host} {w w' : World} {cwd objects source output d : Path} {limit : Option Nat}
  {suffix : String} {root : Option Path}

theorem status_of_run_prepare (hcwd : w.files.node? h.directory = some .directory)
    (hp : (prepare cwd limit objects source suffix root).run h w = (.ok output, w'))
    (hd : output.parent? = some d) (hne : d.text ≠ "") :
    w'.files.status h.directory d = .ok .directory := by
  obtain ⟨rfl, -, -⟩ := run_prepare_eq_ok hp
  unfold prepare at hp
  dsimp only at hp
  split at hp
  · cases hp
  · rw [hd] at hp
    obtain ⟨_, v, hensure, hp⟩ := run_andThen_eq_ok.1 hp
    rw [run_mapError_eq_ok] at hensure
    cases hp
    exact status_of_run_ensureDirectory hne hcwd hensure

theorem isAbsolute_of (objects source : Path) (family : Family) (root : Option Path) :
    (of objects source family.objectSuffix root).isAbsolute = objects.isAbsolute := by
  have hhead (cs : List Component) (ns : List String) :
      (cs ++ ns.map Component.name).head? = some .root ↔ cs.head? = some .root := by
    cases cs <;> cases ns <;> simp
  rw [Bool.eq_iff_iff, Path.isAbsolute_iff, Path.isAbsolute_iff,
    components_of (isStep_fileName source family)]
  refine (hhead _ [fileName source family.objectSuffix]).trans ?_
  split
  · exact hhead _ _
  · cases hlast : objects.fileName? with
    | none => exact Iff.rfl
    | some n =>
      obtain ⟨cs, hcs⟩ := Path.fileName?_eq_some_iff.1 hlast
      rw [if_neg nofun, hcs, List.dropLast_concat]
      exact (hhead cs [n]).symm

theorem text_of_ne_empty (objects source : Path) (family : Family) (root : Option Path) :
    (of objects source family.objectSuffix root).text ≠ "" := by
  intro htext
  have hcomponents := Path.components_of_text_eq htext
  rw [components_of (isStep_fileName source family)] at hcomponents
  simp at hcomponents

end ObjectPath

namespace Plan

variable {h : Host} {w w' : World} {cwd : Path} {family : Family} {options : Options} {s : Spec}
  {shared : List String} {is : List Invocation}

theorem status_of_run_invocations {sources : List Path}
    (hcwd : w.files.node? h.directory = some .directory)
    (his : (invocations cwd family options s shared sources).run h w = (.ok is, w'))
    {i : Invocation} (hi : i ∈ is) {d : Path} (hd : i.output.parent? = some d) (hne : d.text ≠ "") :
    w'.files.status h.directory d = .ok .directory := by
  induction sources generalizing w is with
  | nil =>
    cases his
    cases hi
  | cons source sources ih =>
    obtain ⟨j, v, hj, his⟩ := run_andThen_eq_ok.1 his
    obtain ⟨js, v', hjs, hdone⟩ := run_andThen_eq_ok.1 his
    cases hdone
    obtain ⟨-, hle, -⟩ := run_invocation_eq_ok hj
    obtain ⟨-, hle', -⟩ := run_invocations_eq_ok hjs
    rcases List.mem_cons.1 hi with rfl | hi
    · rw [invocation, run_bind, run_warnMaybe] at hj
      obtain ⟨output, u, hprepare, hj⟩ := run_andThen_eq_ok.1 hj
      rw [run_mapError_eq_ok] at hprepare
      cases hj
      exact FileSystem.status_of_keepsDirectories (FileSystem.keepsDirectories_of_le hle')
        (ObjectPath.status_of_run_prepare (by exact hcwd) hprepare hd hne)
    · exact ih (FileSystem.node?_of_le hle hcwd) hjs hi

theorem status_of_run_make (hcwd : w.files.node? h.directory = some .directory)
    (his : (make cwd family options s).run h w = (.ok is, w'))
    {i : Invocation} (hi : i ∈ is) {d : Path} (hd : i.output.parent? = some d) (hne : d.text ≠ "") :
    w'.files.status h.directory d = .ok .directory := by
  obtain ⟨shared, v, hshared, his⟩ := run_andThen_eq_ok.1 his
  exact status_of_run_invocations (node?_of_run_assemble hcwd hshared) his hi hd hne

/-- Where a path leads in the process of an invocation, when the driver runs in `cwd`. -/
def seenFromProcess (cwd : Path) (i : Invocation) (p : Path) : Path :=
  (cwd.join i.workingDirectory).join p

/-- A path below a directory, seen from that directory, is the same path only if nothing leads to
the directory. -/
theorem seenFromProcess_same_iff {i : Invocation} {p : Path} (hcwd : cwd.isAbsolute = true)
    (hp : p.text ≠ "") (habs : p.isAbsolute = i.workingDirectory.isAbsolute) :
    (seenFromProcess cwd i p).same (Path.absolute cwd p) = true ↔
      i.workingDirectory.isAbsolute = true ∨ i.workingDirectory.steps = [] := by
  rw [Path.same_iff, Path.components_absolute hp, seenFromProcess, habs]
  cases hwd : i.workingDirectory.isAbsolute with
  | true =>
    rw [hwd] at habs
    rw [Path.join_of_isAbsolute habs, Path.components_eq, Path.start_eq_root_iff.2 habs]
    simp [Path.Start.components]
  | false =>
    rw [hwd] at habs
    have hcwd' := Path.text_ne_empty_of_isAbsolute hcwd
    have hjoin := Path.isAbsolute_join hcwd i.workingDirectory
    rw [Path.components_join (Path.text_ne_empty_of_isAbsolute hjoin) habs,
      Path.components_join hcwd' hwd]
    simp

/-- Every invocation of a plan names the object file of its source as its output, and the directory
of that file exists. The compiler writes there exactly if the object directory is absolute or has no
step. -/
theorem writes_where_prepared_iff (hcwd : cwd.isAbsolute = true)
    (hdirectory : w.files.node? h.directory = some .directory)
    (his : (make cwd family options s).run h w = (.ok is, w')) :
    ∀ i ∈ is,
      (∃ source ∈ s.sources, i.output =
        ObjectPath.of s.objectDirectory source family.objectSuffix s.sourceRoot) ∧
      (∃ front, i.arguments = front ++ family.outputArguments i.output) ∧
      (∀ d, i.output.parent? = some d →
        d.text = "" ∨ w'.files.status h.directory d = .ok .directory) ∧
      ((seenFromProcess cwd i i.output).same (Path.absolute cwd i.output) = true ↔
        s.objectDirectory.isAbsolute = true ∨ s.objectDirectory.steps = []) := by
  intro i hi
  have hmade (d : Path) (hd : i.output.parent? = some d) (hne : d.text ≠ "") :
      w'.files.status h.directory d = .ok .directory := status_of_run_make hdirectory his hi hd hne
  obtain ⟨shared, rfl⟩ := exists_planned_of_run_make his
  obtain ⟨source, hsource, rfl⟩ := List.mem_map.1 hi
  refine ⟨⟨source, hsource, rfl⟩, ⟨_, rfl⟩, fun d hd => ?_, ?_⟩
  · by_cases hne : d.text = ""
    · exact Or.inl hne
    · exact Or.inr (hmade d hd hne)
  · exact seenFromProcess_same_iff hcwd (ObjectPath.text_of_ne_empty _ _ _ _)
      (ObjectPath.isAbsolute_of _ _ _ _)

/-- An object directory that is spelled from the root. -/
theorem writes_where_prepared_absolute :
    let h : Host := ⟨["r"], fun _ fs => (.error .notFound, fs)⟩
    let w : World := { files := FileSystem.empty.putDirectories ["r"] }
    let s : Spec := {
      sources := [⟨"src/a.c"⟩]
      objectDirectory := ⟨"/r/out"⟩
      tempDirectory := ⟨"tmp"⟩
      logLocation := ⟨"log"⟩ }
    ∃ i w', (⟨"/r"⟩ : Path).isAbsolute = true ∧ w.files.node? ["r"] = some .directory ∧
      (make ⟨"/r"⟩ .clang {} s).run h w = (.ok [i], w') ∧
      (seenFromProcess ⟨"/r"⟩ i i.output).same (Path.absolute ⟨"/r"⟩ i.output) = true := by
  intro h w s
  have hdirectory : w.files.node? ["r"] = some .directory := by decide +kernel
  have his := run_eq_ok_of_toOption (h := h) (w := w) (p := make ⟨"/r"⟩ .clang {} s)
    (a := [planned ⟨"/r"⟩ .clang s ["-c", "-x", "c"] ⟨"src/a.c"⟩]) (by decide +kernel)
  have hi := writes_where_prepared_iff rfl hdirectory his _ List.mem_cons_self
  exact ⟨_, _, rfl, hdirectory, his, hi.2.2.2.2 (Or.inl (by decide))⟩

/-- With a relative object directory the compiler is told a path in a directory that nobody made. -/
theorem writes_elsewhere_relative :
    let h : Host := ⟨["r"], fun _ fs => (.error .notFound, fs)⟩
    let w : World := { files := FileSystem.empty.putDirectories ["r"] }
    let s : Spec := {
      sources := [⟨"src/a.c"⟩]
      objectDirectory := ⟨"out"⟩
      tempDirectory := ⟨"tmp"⟩
      logLocation := ⟨"log"⟩ }
    ∃ i w', (make ⟨"/r"⟩ .gcc {} s).run h w = (.ok [i], w') ∧
      i.arguments = ["-c", "-x", "c", "/r/src/a.c", "-o", "out/src/a.o"] ∧
      seenFromProcess ⟨"/r"⟩ i i.output = ⟨"/r/out/out/src/a.o"⟩ ∧
      Path.absolute ⟨"/r"⟩ i.output = ⟨"/r/out/src/a.o"⟩ ∧
      (seenFromProcess ⟨"/r"⟩ i i.output).same (Path.absolute ⟨"/r"⟩ i.output) = false ∧
      w'.files.node? ["r", "out", "out"] = none := by
  intro h w s
  have his := run_eq_ok_of_toOption (h := h) (w := w) (p := make ⟨"/r"⟩ .gcc {} s)
    (a := [planned ⟨"/r"⟩ .gcc s ["-c", "-x", "c"] ⟨"src/a.c"⟩]) (by decide +kernel)
  exact ⟨_, _, his, by decide +kernel, by decide +kernel, by decide +kernel, by decide +kernel,
    by decide +kernel⟩

end Plan

end CompileDriver
