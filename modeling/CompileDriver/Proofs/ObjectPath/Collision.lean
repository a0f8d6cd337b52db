import CompileDriver.Proofs.ObjectPath.Directory

/-! # Sources that share an object file

Two sources share an object file exactly if they have the same stem and their repeated steps become
the same directories. They need not lie in one directory then: their steps may lead from different
places, and a step upwards becomes the same directory as the name `__`.
-/

namespace CompileDriver.ObjectPath

variable {cwd objects source a b : Path} {root : Option Path} {c : Component}

/-- The steps of a source that its object file repeats. -/
def repeated (source : Path) (root : Option Path) : List Component :=
  (mirrored source root).filter fun c => (directoryName? c).isSome

/-- The steps of the root, if the source lies below it. -/
def rootSteps (source : Path) : Option Path → List Component
  | some r => if r.components <+: source.components then r.steps else []
  | none => []

/-- The components of the place from which the repeated steps lead to a source. -/
def origin (cwd source : Path) (root : Option Path) : List Component :=
  (if source.isAbsolute then [.root] else cwd.components) ++ rootSteps source root

theorem isSome_directoryName? (h : c.IsStep) : (directoryName? c).isSome = true := by
  cases c <;> first | exact h.elim | rfl

theorem filter_components (p : Path) :
    (p.components.filter fun c => (directoryName? c).isSome) = p.steps := by
  have hsteps : (p.steps.filter fun c => (directoryName? c).isSome) = p.steps :=
    List.filter_eq_self.2 fun c hc => isSome_directoryName? (Path.isStep_of_mem_steps hc)
  rw [Path.components_eq, List.filter_append, hsteps]
  cases p.start <;> rfl

theorem rootSteps_append_repeated (source : Path) (root : Option Path) :
    rootSteps source root ++ repeated source root = source.steps := by
  cases root with
  | none => exact filter_components source
  | some r =>
    by_cases hr : r.components <+: source.components
    · obtain ⟨rest, hrest⟩ := hr
      have hmirrored : mirrored source (some r) = rest := by
        simp [mirrored, Path.below?, ← hrest]
      rw [rootSteps, if_pos ⟨rest, hrest⟩, repeated, hmirrored, ← filter_components r,
        ← filter_components source, ← hrest, List.filter_append]
    · have hmirrored : mirrored source (some r) = source.components := by
        simp [mirrored, Path.below?, hr]
      rw [rootSteps, if_neg hr, repeated, hmirrored, filter_components, List.nil_append]

theorem components_absolute (h : source.text ≠ "") :
    (Path.absolute cwd source).components = origin cwd source root ++ repeated source root := by
  rw [Path.components_absolute h, origin, List.append_assoc, rootSteps_append_repeated]

theorem filterMap_repeated (source : Path) (root : Option Path) :
    (repeated source root).filterMap directoryName? = names source root := by
  rw [repeated, List.filterMap_filter, names]
  congr
  funext c
  cases h : directoryName? c <;> simp

theorem length_repeated (source : Path) (root : Option Path) :
    (repeated source root).length = (names source root).length := by
  rw [← filterMap_repeated, List.length_filterMap_eq_countP, eq_comm, List.countP_eq_length]
  exact fun c hc => (List.mem_filter.1 hc).2

theorem repeated_ne_nil_iff : repeated source root ≠ [] ↔ names source root ≠ [] := by
  rw [← List.length_pos_iff, length_repeated, List.length_pos_iff]

theorem text_ne_empty (h : repeated source root ≠ []) : source.text ≠ "" := by
  intro htext
  have hsteps : source.steps = [] := by rw [Path.steps, htext]; rfl
  rw [← rootSteps_append_repeated source root, List.append_eq_nil_iff] at hsteps
  exact h hsteps.2

theorem components_parent? (h : repeated source root ≠ []) :
    (Path.absolute cwd source).parent?.map Path.components =
      some (origin cwd source root ++ (repeated source root).dropLast) := by
  have hlast : (repeated source root).getLast h ≠ .root := by
    intro hroot
    have hmem := List.getLast_mem h
    rw [hroot] at hmem
    exact absurd (List.mem_filter.1 hmem).2 (by decide)
  refine Path.map_components_parent? ?_ hlast
  rw [components_absolute (text_ne_empty h), List.append_assoc, List.dropLast_concat_getLast]

theorem stem?_eq_iff : a.stem? = b.stem? ↔ a.stem?.getD "" = b.stem?.getD "" := by
  cases ha : a.stem? <;> cases hb : b.stem?
  · simp
  · simp [Ne.symm (Path.stem?_ne_empty hb)]
  · simp [Path.stem?_ne_empty ha]
  · simp

theorem fileName_eq_iff {suffix : String} :
    fileName a suffix = fileName b suffix ↔ a.stem? = b.stem? := by
  rw [fileName, fileName, String.append_left_inj, stem?_eq_iff]

/-- Sources that repeat something share an object file exactly if they have the same stem and become
files in the same directory. -/
theorem same_of_iff (ha : repeated a root ≠ []) (hb : repeated b root ≠ []) (family : Family) :
    (of objects a family.objectSuffix root).same (of objects b family.objectSuffix root) = true ↔
      a.stem? = b.stem? ∧ (names a root).dropLast = (names b root).dropLast := by
  rw [Path.same_iff, components_of (isStep_fileName a family),
    components_of (isStep_fileName b family), if_pos (repeated_ne_nil_iff.1 ha),
    if_pos (repeated_ne_nil_iff.1 hb), List.append_assoc, List.append_assoc, List.append_right_inj]
  constructor
  · intro h
    obtain ⟨hdirs, hname⟩ := List.append_inj' h rfl
    exact ⟨fileName_eq_iff.1 (by simpa using hname),
      (List.map_inj_right fun _ _ => Component.name.inj).1 hdirs⟩
  · rintro ⟨hstem, hdirs⟩
    rw [fileName_eq_iff.2 hstem, hdirs]

/-- Which sources share an object file, and that they lie in one directory exactly if the same steps
lead to their directories from the same place. -/
theorem shared_object_same_directory_iff (cwd objects : Path) (family : Family)
    (ha : repeated a root ≠ []) (hb : repeated b root ≠ []) :
    let shared :=
      (of objects a family.objectSuffix root).same (of objects b family.objectSuffix root) = true
    (shared ↔ a.stem? = b.stem? ∧ (names a root).dropLast = (names b root).dropLast) ∧
    (shared →
      ((Path.absolute cwd a).parent?.map Path.components =
          (Path.absolute cwd b).parent?.map Path.components ∧ a.stem? = b.stem? ↔
        origin cwd a root = origin cwd b root ∧
          (repeated a root).dropLast = (repeated b root).dropLast)) := by
  intro shared
  refine ⟨same_of_iff ha hb family, fun h => ?_⟩
  obtain ⟨hstem, hdirs⟩ := (same_of_iff ha hb family).1 h
  have hlength : (repeated a root).dropLast.length = (repeated b root).dropLast.length := by
    have hdirs := congrArg List.length hdirs
    simpa [length_repeated] using hdirs
  rw [components_parent? ha, components_parent? hb, Option.some_inj, and_iff_left hstem]
  exact ⟨fun h => List.append_inj' h hlength, fun ⟨ho, hr⟩ => by rw [ho, hr]⟩

/-- Two sources of one directory with one stem, spelled differently. -/
theorem shared_object_same_directory_two_spellings :
    let a : Path := ⟨"/p/src/../a.c"⟩
    let b : Path := ⟨"/p/./src//../a.cc"⟩
    let root : Option Path := some ⟨"/p/"⟩
    repeated a root ≠ [] ∧ repeated b root ≠ [] ∧
      (of ⟨"out"⟩ a Family.msvc.objectSuffix root).same
        (of ⟨"out"⟩ b Family.msvc.objectSuffix root) = true ∧
      (Path.absolute ⟨"/w"⟩ a).parent?.map Path.components =
        (Path.absolute ⟨"/w"⟩ b).parent?.map Path.components := by
  intro a b root
  have ha : repeated a root ≠ [] := by decide +kernel
  have hb : repeated b root ≠ [] := by decide +kernel
  obtain ⟨hshared, hdirectory⟩ :=
    shared_object_same_directory_iff ⟨"/w"⟩ ⟨"out"⟩ .msvc ha hb
  have hshared := hshared.2 (by decide +kernel)
  exact ⟨ha, hb, hshared, ((hdirectory hshared).2 (by decide +kernel)).1⟩

/-- A source below the root and one outside of it share an object file, though they lie in different
directories. -/
theorem shared_object_across_root :
    let a : Path := ⟨"/p/src/a.c"⟩
    let b : Path := ⟨"/src/a.c"⟩
    let root : Option Path := some ⟨"/p"⟩
    ¬ ((of ⟨"/p/out"⟩ a Family.gcc.objectSuffix root).same
          (of ⟨"/p/out"⟩ b Family.gcc.objectSuffix root) = true →
        (Path.absolute ⟨"/p"⟩ a).parent?.map Path.components =
          (Path.absolute ⟨"/p"⟩ b).parent?.map Path.components ∧ a.stem? = b.stem?) := by
  decide +kernel

example : (of ⟨"out"⟩ ⟨"../a.c"⟩ ".o" none).same (of ⟨"out"⟩ ⟨"__/a.c"⟩ ".o" none) = true := by
  decide +kernel

end CompileDriver.ObjectPath
