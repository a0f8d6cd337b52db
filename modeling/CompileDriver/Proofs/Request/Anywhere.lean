import CompileDriver.Proofs.Plan.Output
import CompileDriver.Proofs.Request.Spec
import CompileDriver.Proofs.Sources.Absolute
import CompileDriver.Proofs.Toolchain.Arguments

/-! # Requests planned from anywhere

The plan for a request in an absolute directory does not depend on where the driver runs: all paths
in its specification are absolute, so are those in its invocations, and only absolute paths are
asked for on the way.
-/

namespace CompileDriver

open Procedure

variable {h h' : Host} {w : World} {r : Request} {s : Spec} {base cwd cwd' : Path}
  {family : Family} {options : Options}

/-! ## Specifications -/

namespace Request

theorem isAbsolute_emptySpec (hbase : base.isAbsolute = true) : (r.emptySpec base).IsAbsolute := by
  have hjoin (p : Path) : (base.join p).isAbsolute = true := Path.isAbsolute_join hbase p
  constructor
  · exact nofun
  · exact hjoin _
  · exact hjoin _
  · change (r.logLocation base).isAbsolute = true
    unfold logLocation
    split
    · exact hjoin _
    · exact Path.isAbsolute_div (hjoin _) _
  · intro p hp
    obtain rfl := Option.some.inj hp
    cases r.sourceRoot with
    | none => exact hbase
    | some root => exact hjoin root
  · simp [emptySpec, hjoin]
  · simp [emptySpec, hjoin]
  · simp [emptySpec, hjoin]
  · simp [emptySpec, hjoin]

theorem isAbsolute_withSource (hs : s.IsAbsolute) {source : Path}
    (hsource : source.isAbsolute = true) (headers : List String) :
    (s.withSource source headers).IsAbsolute :=
  { hs with
    sources := List.forall_mem_append.2 ⟨hs.sources, List.forall_mem_singleton.2 hsource⟩ }

theorem confined_addSources {sources : List Path} (hsources : Sources.AreAbsolute sources)
    (hs : s.IsAbsolute) :
    (r.addSources base sources s).Confined Call.IsAbsolute (InSuccess Spec.IsAbsolute) := by
  induction sources generalizing s with
  | nil => exact hs
  | cons source sources ih =>
    obtain ⟨hsource, hsources⟩ := List.forall_mem_cons.1 hsources
    have hcalls : (r.directivesOf base source).CallsOnly Call.IsAbsolute := by
      refine (callsOnly_directivesOf r base source).mono ?_
      rintro _ ⟨-, rfl⟩
      exact hsource
    have hdirectives : (r.directivesOf base source).Confined Call.IsAbsolute
        (InSuccess fun _ => True) :=
      hcalls.confined fun a => by cases a <;> trivial
    exact hdirectives.andThen fun headers _ =>
      ih hsources (isAbsolute_withSource hs hsource headers)

theorem confined_toSpec (r : Request) (cwd : Path) (hbase : base.isAbsolute = true) :
    (r.toSpec cwd base).Confined Call.IsAbsolute (InSuccess Spec.IsAbsolute) := by
  have habs := Path.isAbsolute_absolute hbase cwd
  exact ((Sources.confined_expand habs r.sources).mapError _).andThen fun sources hsources =>
    confined_addSources hsources (isAbsolute_emptySpec habs)

theorem toSpec_eq_of_isAbsolute (r : Request) (hbase : base.isAbsolute = true) (cwd cwd' : Path) :
    r.toSpec cwd base = r.toSpec cwd' base := by
  rw [toSpec, toSpec, Path.absolute_eq_of_isAbsolute hbase cwd cwd']

end Request

/-! ## Plans -/

namespace Plan

variable {shared : List String} {source : Path} {sources : List Path}

theorem location_eq (hs : s.IsAbsolute) (cwd cwd' : Path) :
    OptionsFile.location cwd s.tempDirectory = OptionsFile.location cwd' s.tempDirectory :=
  Path.absolute_eq_of_isAbsolute (Path.isAbsolute_div hs.tempDirectory _) cwd cwd'

theorem isAbsolute_location (hs : s.IsAbsolute) (cwd : Path) :
    (OptionsFile.location cwd s.tempDirectory).isAbsolute = true :=
  Path.isAbsolute_absolute (Path.isAbsolute_div hs.tempDirectory _) cwd

theorem isAbsolute_objectOf (hs : s.IsAbsolute) (family : Family) (source : Path) :
    (objectOf family s source).isAbsolute = true :=
  (ObjectPath.isAbsolute_of ..).trans hs.objectDirectory

theorem headerArguments_eq (hs : s.IsAbsolute) (cwd cwd' : Path) :
    family.headerArguments cwd s = family.headerArguments cwd' s := by
  cases family
  case msvc => rfl
  all_goals
    cases hprefix : s.prefixHeader with
    | none =>
      cases hheader : s.precompiledHeader <;> simp [Family.headerArguments, hprefix, hheader]
    | some p =>
      have hp := Path.absolute_eq_of_isAbsolute (hs.prefixHeader p hprefix) cwd cwd'
      simp [Family.headerArguments, hprefix, hp]

theorem invocation_eq (hs : s.IsAbsolute) (hsource : source.isAbsolute = true) (cwd cwd' : Path) :
    invocation cwd family options s shared source =
      invocation cwd' family options s shared source := by
  have hdecide : PrecompiledHeader.decide cwd family s source =
      PrecompiledHeader.decide cwd' family s source := by
    unfold PrecompiledHeader.decide
    rw [headerArguments_eq hs cwd cwd']
  have hlength : ObjectPath.checkLength cwd options.pathLimit (objectOf family s source) =
      ObjectPath.checkLength cwd' options.pathLimit (objectOf family s source) := by
    unfold ObjectPath.checkLength
    rw [Path.absolute_eq_of_isAbsolute (isAbsolute_objectOf hs family source) cwd cwd']
  have hmake (header : List String) (output : Path) :
      Invocation.make cwd family s.objectDirectory shared header source output =
        Invocation.make cwd' family s.objectDirectory shared header source output := by
    unfold Invocation.make
    rw [Path.absolute_eq_of_isAbsolute hsource cwd cwd']
  unfold invocation ObjectPath.prepare
  unfold objectOf at hlength
  simp only [hdecide, hlength, hmake]

theorem invocations_eq (hs : s.IsAbsolute) (hsources : Sources.AreAbsolute sources)
    (cwd cwd' : Path) :
    invocations cwd family options s shared sources =
      invocations cwd' family options s shared sources := by
  induction sources with
  | nil => rfl
  | cons source sources ih =>
    obtain ⟨hsource, hsources⟩ := List.forall_mem_cons.1 hsources
    rw [invocations, invocations, invocation_eq hs hsource cwd cwd', ih hsources]

theorem make_eq_of_isAbsolute (hs : s.IsAbsolute) (cwd cwd' : Path) :
    make cwd family options s = make cwd' family options s := by
  have hassemble : assemble cwd family options s = assemble cwd' family options s := by
    unfold assemble OptionsFile.write
    rw [location_eq hs cwd cwd']
  rw [make, make, hassemble]
  congr
  funext shared
  exact invocations_eq hs hs.sources cwd cwd'

theorem callsOnly_make_isAbsolute (hs : s.IsAbsolute) :
    (make cwd family options s).CallsOnly Call.IsAbsolute := by
  have hlocation := isAbsolute_location hs cwd
  have hplaces {d : Path} (hd : d.isAbsolute = true) : ∀ p ∈ d :: d.parents,
      Call.IsAbsolute (.status p) ∧ Call.IsAbsolute (.makeDirectory p) := by
    intro p hp
    rcases List.mem_cons.1 hp with rfl | hp
    · exact ⟨hd, hd⟩
    · exact ⟨Path.isAbsolute_of_mem_parents hd hp, Path.isAbsolute_of_mem_parents hd hp⟩
  refine CallsOnly.andThen ?_ fun shared => ?_
  · exact callsOnly_assemble_of (fun _ => hplaces hs.tempDirectory) (fun _ => hlocation)
      fun _ _ => hlocation
  · refine callsOnly_invocations_of (fun _ => trivial) fun source _ d hd => hplaces ?_
    exact Path.isAbsolute_of_parent? (isAbsolute_objectOf hs family source) hd

open BuiltArgument (render)

/-- The invocation names absolute paths only, apart from what the caller's own arguments name. -/
structure NamesAbsolute (cwd : Path) (family : Family) (options : Options) (s : Spec)
    (i : Invocation) : Prop where
  workingDirectory : i.workingDirectory.isAbsolute = true
  source : i.source.isAbsolute = true
  output : i.output.isAbsolute = true
  /-- The shared arguments, or a reference to the options file, then the header, if it is used, the
  source and the output. -/
  arguments : ∃ reference header,
    i.arguments =
      (if options.commandFile then [(BuiltArgument.path "@" reference).render]
        else (options.transform.getD id) ((family.builtShared s).map render)) ++
      header.map render ++ [i.source.text] ++ (family.builtOutput i.output).map render ∧
    reference.isAbsolute = true ∧ (∀ a ∈ family.builtShared s, a.IsAbsolute) ∧
    (header = [] ∨ header = family.builtHeader cwd s) ∧ (∀ a ∈ header, a.IsAbsolute) ∧
    ∀ a ∈ family.builtOutput i.output, a.IsAbsolute

theorem IsInvocationOf.namesAbsolute {i : Invocation} (hs : s.IsAbsolute)
    (hsource : source.isAbsolute = true)
    (hi : IsInvocationOf cwd family s (assembled cwd family options s) source i) :
    NamesAbsolute cwd family options s i := by
  have houtput : i.output.isAbsolute = true := by
    rw [hi.output]
    exact isAbsolute_objectOf hs family source
  obtain ⟨header, harguments, huses, hnot⟩ := hi.arguments
  have hheader : ∃ built, header = built.map render ∧
      (built = [] ∨ built = family.builtHeader cwd s) := by
    by_cases hheader : s.UsesHeader source
    · exact ⟨_, (huses hheader).trans Family.render_builtHeader.symm, Or.inr rfl⟩
    · exact ⟨[], hnot hheader, Or.inl rfl⟩
  obtain ⟨built, rfl, hbuilt⟩ := hheader
  refine ⟨?_, ?_, houtput, OptionsFile.location cwd s.tempDirectory, built, ?_,
    isAbsolute_location hs cwd, Family.isAbsolute_builtShared family hs, hbuilt, ?_,
    Family.isAbsolute_builtOutput family houtput⟩
  · rw [hi.workingDirectory]
    exact hs.objectDirectory
  · rw [hi.source]
    exact Path.isAbsolute_absolute hsource cwd
  · rw [harguments, Family.render_builtOutput, Family.render_builtShared, hi.source]
    rfl
  · rcases hbuilt with rfl | rfl
    · exact nofun
    · exact Family.isAbsolute_builtHeader family hs cwd

end Plan

/-! ## Requests -/

def Request.plan (r : Request) (cwd base : Path) (family : Family) (options : Options) :
    Procedure (Except SpecFailure (Spec × Except PlanFailure (List Invocation))) :=
  (r.toSpec cwd base).andThen fun s =>
    (Plan.make cwd family options s).bind fun plan => done (.ok (s, plan))

namespace Request

open BuiltArgument (render)

theorem plan_eq_of_isAbsolute (r : Request) (hbase : base.isAbsolute = true) (cwd cwd' : Path) :
    r.plan cwd base family options = r.plan cwd' base family options := by
  rw [plan, plan, toSpec_eq_of_isAbsolute r hbase cwd cwd']
  refine (confined_toSpec r cwd' hbase).andThen_congr fun s hs => ?_
  rw [Plan.make_eq_of_isAbsolute hs cwd cwd']

theorem callsOnly_plan (r : Request) (cwd : Path) (hbase : base.isAbsolute = true) :
    (r.plan cwd base family options).CallsOnly Call.IsAbsolute := by
  have hplan : (r.plan cwd base family options).Confined Call.IsAbsolute
      (InSuccess fun _ => True) :=
    (confined_toSpec r cwd hbase).andThen fun s hs =>
      ((Plan.callsOnly_make_isAbsolute hs).confined fun _ => trivial).bind fun _ _ => trivial
  exact hplan.callsOnly

/-- A request in an absolute directory becomes the same specification and the same plan, or fails in
the same way, from wherever the driver runs, and the files are changed in the same way. All paths in
the specification and in the invocations are absolute. -/
theorem plan_same_from_everywhere (r : Request) (family : Family) (options : Options)
    (hbase : base.isAbsolute = true) (cwd cwd' : Path) (h h' : Host) (w : World) :
    (r.plan cwd base family options).run h w = (r.plan cwd' base family options).run h' w ∧
    ∀ s plan w', (r.plan cwd base family options).run h w = (.ok (s, plan), w') →
      s.IsAbsolute ∧
      ∀ is, plan = .ok is → ∀ i ∈ is, Plan.NamesAbsolute cwd family options s i := by
  constructor
  · rw [plan_eq_of_isAbsolute r hbase cwd cwd']
    exact (callsOnly_plan r cwd' hbase).run_eq h h' w
  · intro s plan w' hplan
    obtain ⟨s, v, hspec, hplan⟩ := run_andThen_eq_ok.1 hplan
    have hs : s.IsAbsolute := by
      have hfst := (confined_toSpec r cwd hbase).run_fst (h := h) w
      rwa [hspec] at hfst
    rw [run_bind, run_done] at hplan
    cases hplan
    refine ⟨hs, fun is his i hi => ?_⟩
    obtain ⟨shared, u, hshared, his⟩ := run_andThen_eq_ok.1 (run_eq_of_fst his)
    obtain ⟨rfl, -⟩ := Plan.run_assemble_eq_ok hshared
    rw [(Plan.run_invocations_eq_ok his).1] at hi
    obtain ⟨source, hsource, rfl⟩ := List.mem_map.1 hi
    exact (Plan.isInvocationOf_planned source).namesAbsolute hs (hs.sources source hsource)

/-- A source that is found by a pattern and uses the precompiled header, planned from two
directories. -/
theorem plan_same_from_everywhere_pattern :
    let h (l : Location) : Host := ⟨l, fun _ fs => (.error .notFound, fs)⟩
    let w : World := {
      files := ((FileSystem.empty.putDirectories ["r"]).put ["r", "a.c"]
        (.file ⟨"#include \"p.h\"\n".toUTF8, false⟩)).putDirectories ["x"] }
    let r : Request := {
      sources := ["*.c"]
      objectDirectory := ⟨"o"⟩
      includeDirectories := [⟨"../inc"⟩]
      precompiledHeader := some "p.h"
      prefixHeader := some ⟨"p.h"⟩ }
    let ran := (r.plan ⟨"/"⟩ ⟨"/r"⟩ .gcc {}).run (h []) w
    ran = (r.plan ⟨"/x"⟩ ⟨"/r"⟩ .gcc {}).run (h ["x"]) w ∧
    (ran.1.toOption.bind fun made => made.2.toOption).map (List.map (·.arguments)) =
      some [["-c", "-x", "c", "-I/r/../inc", "-include", "/r/p.h", "/r/a.c", "-o", "/r/o/a.o"]] ∧
    ∃ made, ran.1 = .ok made ∧ made.1.IsAbsolute := by
  intro h w r ran
  have hbase : (⟨"/r"⟩ : Path).isAbsolute = true := by decide
  obtain ⟨hsame, habsolute⟩ :=
    plan_same_from_everywhere r .gcc {} hbase ⟨"/"⟩ ⟨"/x"⟩ (h []) (h ["x"]) w
  have hplan : (ran.1.toOption.bind fun made => made.2.toOption).map (List.map (·.arguments)) =
      some [["-c", "-x", "c", "-I/r/../inc", "-include", "/r/p.h", "/r/a.c", "-o", "/r/o/a.o"]] := by
    decide +kernel
  refine ⟨hsame, hplan, ?_⟩
  cases hran : ran.1 with
  | error e =>
    rw [hran] at hplan
    cases hplan
  | ok made => exact ⟨made, rfl, (habsolute made.1 made.2 ran.2 (run_eq_of_fst hran)).1⟩

end Request

end CompileDriver
