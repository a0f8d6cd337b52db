import CompileDriver.Proofs.Plan.Alongside
import CompileDriver.Proofs.Plan.Output

/-! # Requests that are planned at the same time

Two requests that keep their options files apart do not disturb each other, even where they make the
same directories. Whatever the order of their single steps, each is planned as it would be planned
alone, and when both are planned the files are those that planning one after the other leaves
behind. Only the cause of a failure may differ, and a directory for the options file that is spelled
with a last dot may be found where nothing has been before.
-/

namespace CompileDriver

open Procedure FileSystem

namespace Plan

variable {h : Host} {w w' : World} {fs : FileSystem} {cwd : Path} {family : Family}
  {options : Options} {s s' : Spec} {directory l : Location} {u u' v v' : World}
  {q q' r r' : Except PlanFailure (List Invocation)} {is is' : List Invocation}

theorem node?_of_run_make (hcwd : w.files.node? h.directory = some .directory)
    (his : (make cwd family options s).run h w = (.ok is, w'))
    (hl : OnWays h.directory family options s l) : w'.files.node? l = some .directory := by
  have hmake := his
  obtain ⟨shared, v, hshared, his⟩ := run_andThen_eq_ok.1 his
  obtain ⟨-, hle, -⟩ := run_invocations_eq_ok his
  have hcwd' := FileSystem.node?_of_le hle (node?_of_run_assemble hcwd hshared)
  rcases hl with ⟨hcommand, hl⟩ | ⟨source, hsource, d, hd, hl⟩
  · rw [assemble, if_pos hcommand] at hshared
    obtain ⟨p, u, hwrite, hshared⟩ := run_andThen_eq_ok.1 hshared
    cases hshared
    have hdir := OptionsFile.hasDirectory_of_run_write hcwd (run_mapError_eq_ok.1 hwrite)
    exact node?_of_passes hcwd' (hdir.mono (keepsDirectories_of_le hle)) hl
  · obtain ⟨shared, rfl⟩ := exists_planned_of_run_make hmake
    refine node?_of_passes hcwd' ?_ hl
    by_cases hne : d.text = ""
    · exact Or.inl hne
    · exact Or.inr (status_of_run_make hcwd hmake (List.mem_map_of_mem hsource) hd hne)

/-- Two requests keep their options files apart: the files lie in different directories, and neither
is on a way of the other request. -/
structure KeepApart (cwd : Path) (directory : Location) (family : Family) (options : Options)
    (s s' : Spec) : Prop where
  directories : options.commandFile = true →
    s.tempDirectory.destination directory ≠ s'.tempDirectory.destination directory
  left : ∀ l, OnWays directory family options s l → ¬ IsOptionsFile cwd directory options s' l
  right : ∀ l, OnWays directory family options s' l → ¬ IsOptionsFile cwd directory options s l

theorem keepApart_iff : KeepApart cwd directory family options s s' ↔
    (options.commandFile = true →
      s.tempDirectory.destination directory ≠ s'.tempDirectory.destination directory ∧
      ¬ OnWays directory family options s
        ((OptionsFile.location cwd s'.tempDirectory).destination directory) ∧
      ¬ OnWays directory family options s'
        ((OptionsFile.location cwd s.tempDirectory).destination directory)) := by
  constructor
  · rintro ⟨hne, hleft, hright⟩ hcommand
    exact ⟨hne hcommand, fun hl => hleft _ hl ⟨hcommand, rfl⟩,
      fun hl => hright _ hl ⟨hcommand, rfl⟩⟩
  · intro h
    constructor
    case directories => exact fun hcommand => (h hcommand).1
    case left =>
      rintro l hl ⟨hcommand, rfl⟩
      exact (h hcommand).2.1 hl
    case right =>
      rintro l hl ⟨hcommand, rfl⟩
      exact (h hcommand).2.2 hl

instance : Decidable (KeepApart cwd directory family options s s') :=
  decidable_of_iff _ keepApart_iff.symm

namespace KeepApart

theorem symm (hapart : KeepApart cwd directory family options s s') :
    KeepApart cwd directory family options s' s where
  directories hcommand := (hapart.directories hcommand).symm
  left := hapart.right
  right := hapart.left

theorem file (hapart : KeepApart cwd directory family options s s')
    (hcwd : fs.LeadsTo cwd directory) :
    ∀ l, IsOptionsFile cwd directory options s l →
      ¬ OnWays directory family options s' l ∧ ¬ IsOptionsFile cwd directory options s' l := by
  rintro l hl
  refine ⟨fun hway => hapart.right l hway hl, ?_⟩
  rintro ⟨hcommand, hl'⟩
  obtain ⟨-, rfl⟩ := hl
  rw [OptionsFile.destination_location hcwd, OptionsFile.destination_location hcwd] at hl'
  exact hapart.directories hcommand (List.append_cancel_right hl')

end KeepApart

/-- What planning a request may do to the files. -/
abbrev effect (cwd : Path) (directory : Location) (family : Family) (options : Options)
    (s : Spec) : Interference :=
  .changesOnly (OnWays directory family options s) (IsOptionsFile cwd directory options s)

theorem effect_of_run_make (his : (make cwd family options s).run h w = (r, w')) :
    (effect cwd h.directory family options s).changes w w' := by
  have hcalls : (make cwd family options s).CallsOnly _ := callsOnly_make_touches h.directory
  have hchanges := hcalls.changesOnly_run (h := h) w
  rwa [his] at hchanges

/-- Two requests that are planned at the same time, begun in the world `w`, can come to `r` and `r'`
and leave the world `v`. -/
structure Interleaved (h : Host) (cwd : Path) (family : Family) (options : Options) (s s' : Spec)
    (w : World) (r r' : Except PlanFailure (List Invocation)) (v : World) : Prop where
  left : (make cwd family options s).RunsAmong h (effect cwd h.directory family options s') w r v
  right : (make cwd family options s').RunsAmong h (effect cwd h.directory family options s) w r' v

/-- What the request `s`, begun in the world `w`, may come to while `s'` is planned: what it comes
to alone, up to the cause of a failure. Only if its directory for the options file is spelled with a
last dot and is missing in `w`, so that the request fails alone, and if `s'` makes that directory,
may it come to what it comes to alone where the directory is there. -/
inductive ComesTo (h : Host) (cwd : Path) (family : Family) (options : Options) (s s' : Spec)
    (w : World) (r : Except PlanFailure (List Invocation)) : Prop where
  | alone (hagrees : AgreesUpTo (MayTurnAmong s) ((make cwd family options s).run h w).1 r) :
    ComesTo h cwd family options s s' w r
  | found (fs : FileSystem) (hcommand : options.commandFile = true)
    (hmissing : s.tempDirectory.EndsInMissingDot w.files h.directory)
    (halone : ((make cwd family options s).run h w).1 =
      .error (.optionsFile (OptionsFile.location cwd s.tempDirectory) .notFound))
    (hmade : OnWays h.directory family options s' (s.tempDirectory.destination h.directory))
    (hgains : Gains (s.tempDirectory.Passes h.directory) w.files fs)
    (hagrees : AgreesUpTo (MayTurnAmong s)
      ((make cwd family options s).run h { w with files := fs }).1 r) :
    ComesTo h cwd family options s s' w r

theorem interleaved_of_reaches {limit : ℕ} {pool : Pool (Except PlanFailure (List Invocation))}
    (hrun : Pool.Reaches h limit
      (.start w [make cwd family options s, make cwd family options s']) pool)
    (hfinal : pool.Finished [r, r']) :
    Interleaved h cwd family options s s' w r r' pool.world where
  left := hrun.runsAmong_start (fun _ hc v => changesOnly_answer hc v) hfinal (i := 0) rfl rfl
    (List.forall_mem_singleton.2 (callsOnly_make_touches h.directory))
  right := hrun.runsAmong_start (fun _ hc v => changesOnly_answer hc v) hfinal (i := 1) rfl rfl
    (List.forall_mem_singleton.2 (callsOnly_make_touches h.directory))

theorem interleaved_of_run (hs : (make cwd family options s).run h w = (r, u))
    (hs' : (make cwd family options s').run h u = (r', v)) :
    Interleaved h cwd family options s s' w r r' v where
  left := by
    have hrun := RunsAmong.run (h := h) (E := effect cwd h.directory family options s')
      (make cwd family options s) w
    rw [hs] at hrun
    exact hrun.after (effect_of_run_make hs')
  right := by
    have hrun := RunsAmong.run (h := h) (E := effect cwd h.directory family options s)
      (make cwd family options s') u
    rw [hs'] at hrun
    exact hrun.before (effect_of_run_make hs)

namespace Interleaved

theorem symm (hrun : Interleaved h cwd family options s s' w r r' v) :
    Interleaved h cwd family options s' s w r' r v :=
  ⟨hrun.right, hrun.left⟩

theorem comesTo (hrun : Interleaved h cwd family options s s' w r r' v)
    (hcwd : w.files.LeadsTo cwd h.directory)
    (hapart : KeepApart cwd h.directory family options s s') :
    ComesTo h cwd family options s s' w r := by
  rcases make_cases hcwd hapart.left (hapart.file hcwd) hrun.left with
    ⟨hlacks, rfl⟩ | ⟨hmade, u, hbegins, hagrees, -⟩
  · refine .alone ?_
    rw [run_make_of_lacksTempDirectory hlacks]
    exact .error (Or.inl (Or.inl rfl))
  · cases hbegins with
    | here => exact .alone hagrees
    | found hlacks hgains =>
      obtain ⟨q, n, hend⟩ := exists_lacksEnd hcwd.node? hlacks.2
      exact .found _ hlacks.1 hend.endsInMissingDot (run_make_of_lacksTempDirectory hlacks)
        (hmade hlacks) hgains hagrees

theorem of_ok (hrun : Interleaved h cwd family options s s' w (.ok is) r' v)
    (hcwd : w.files.LeadsTo cwd h.directory)
    (hapart : KeepApart cwd h.directory family options s s') :
    (LacksTempDirectory h options s w →
      OnWays h.directory family options s' (s.tempDirectory.destination h.directory)) ∧
    ∃ u u₁, Begins h options s w u ∧ (make cwd family options s).run h u = (.ok is, u₁) ∧
      (effect cwd h.directory family options s').changes u₁ v := by
  rcases make_cases hcwd hapart.left (hapart.file hcwd) hrun.left with
    ⟨-, ⟨⟩⟩ | ⟨hmade, u, hbegins, hagrees, hdiffers⟩
  exact ⟨hmade, u, _, hbegins, run_eq_of_fst (hagrees.eq_ok_iff.2 rfl),
    (hdiffers is rfl).changes⟩

/-- Where both requests have been planned, their order does not count. -/
theorem files_eq (hrun : Interleaved h cwd family options s s' w (.ok is) (.ok is') v)
    (hrun' : Interleaved h cwd family options s s' w (.ok is) (.ok is') v')
    (hcwd : w.files.LeadsTo cwd h.directory)
    (hapart : KeepApart cwd h.directory family options s s') : v.files = v'.files := by
  obtain ⟨-, u, u₁, hu, his, hv⟩ := hrun.of_ok hcwd hapart
  obtain ⟨-, u', u₁', hu', his', hv'⟩ := hrun.symm.of_ok hcwd hapart.symm
  obtain ⟨-, z, z₁, hz, hjs, hw⟩ := hrun'.of_ok hcwd hapart
  obtain ⟨-, z', z₁', hz', hjs', hw'⟩ := hrun'.symm.of_ok hcwd hapart.symm
  obtain rfl := hu.unique hz
  obtain rfl := hu'.unique hz'
  cases his.symm.trans hjs
  cases his'.symm.trans hjs'
  have hdir := hu'.keepsDirectories _ hcwd.node?
  exact ChangesOnly.unique (fun _ => node?_of_run_make hdir his') (hapart.symm.file hcwd)
    hv hv' hw hw'

/-- Behind a request, one that is planned while that request is planned comes to the same. -/
theorem run_fst_of_ok (hrun : Interleaved h cwd family options s s' w r (.ok is') v)
    (hcwd : w.files.LeadsTo cwd h.directory)
    (hapart : KeepApart cwd h.directory family options s s')
    (his : (make cwd family options s).run h w = (.ok is, u)) :
    ((make cwd family options s').run h u).1 = .ok is' := by
  have hu : ChangesOnly _ _ w.files u.files := effect_of_run_make his
  obtain ⟨hmade, z, z₁, hz, hz₁, -⟩ := hrun.symm.of_ok hcwd hapart.symm
  have hagain : ∃ z', Begins h options s' w z' ∧ AgreesUpTo (MayTurnAmong s')
      ((make cwd family options s').run h z').1 ((make cwd family options s').run h u).1 := by
    by_cases hlacks : LacksTempDirectory h options s' w
    · -- what `s'` lacks at the start, `s` has made
      have hdir := node?_of_run_make hcwd.node? his (hmade hlacks)
      obtain ⟨u', hu', hfound, heq⟩ :=
        hlacks.exists_run_eq hcwd.node? hapart.symm.left hu hdir
      obtain ⟨z', hz', hagrees, -⟩ := hlacks.exists_begins hcwd hapart.symm.left
        (hapart.symm.file hcwd) hu' hfound (RunsAmong.run _ u')
      rw [heq]
      exact ⟨z', hz', hagrees⟩
    · refine ⟨w, .here hlacks, ?_⟩
      have hwithstands : (make cwd family options s').Withstands h _ _ _ _ :=
        withstands_make hcwd hapart.symm.left (hapart.symm.file hcwd)
      exact (hwithstands w u _ _ ⟨⟨fun _ => id, hu⟩, hlacks⟩ (RunsAmong.run _ u)).1
  obtain ⟨z', hz', hagrees⟩ := hagain
  obtain rfl := hz.unique hz'
  rw [hz₁] at hagrees
  exact hagrees.eq_ok_iff.1 rfl

/-- What has been planned at the same time can be planned one after the other, beginning with a
request that can be planned alone, which leaves the same files. -/
theorem in_turn (hrun : Interleaved h cwd family options s s' w (.ok is) (.ok is') v)
    (hcwd : w.files.LeadsTo cwd h.directory)
    (hapart : KeepApart cwd h.directory family options s s')
    (his : (make cwd family options s).run h w = (.ok is, u)) :
    ∃ v', (make cwd family options s').run h u = (.ok is', v') ∧ v'.files = v.files := by
  have his' := run_eq_of_fst (hrun.run_fst_of_ok hcwd hapart his)
  exact ⟨_, his', (interleaved_of_run his his').files_eq hrun hcwd hapart⟩

theorem read_optionsFile (hrun : Interleaved h cwd family options s s' w (.ok is) r' v)
    (hcwd : w.files.LeadsTo cwd h.directory)
    (hapart : KeepApart cwd h.directory family options s s')
    (hcommand : options.commandFile = true) :
    v.files.read h.directory (OptionsFile.location cwd s.tempDirectory) =
      .ok (OptionsFile.contents family.quoting (sharedArguments family options s)).toUTF8 := by
  obtain ⟨-, u, u₁, -, his, hchanges⟩ := hrun.of_ok hcwd hapart
  obtain ⟨-, -, hread⟩ := run_make_commandFile_eq_ok hcommand his
  obtain ⟨hway, hfile⟩ := hapart.file hcwd _ ⟨hcommand, rfl⟩
  have hchanges : ChangesOnly _ _ u₁.files v.files := hchanges
  exact read_of_unchanged hchanges.keepsDirectories (hchanges.node?_eq hway hfile) hread

end Interleaved

/-- Two requests that keep their options files apart do not disturb each other. Whatever is
scheduled, both can be brought to an end, and each comes to what it comes to alone. When both have
been planned, planning them one after the other, beginning with either one that can be planned
alone, gives the same invocations and leaves the same files, and each options file holds the shared
arguments of its own request. -/
theorem make_interleaved (h : Host) (limit : ℕ) (w : World) (cwd : Path) (family : Family)
    (options : Options) (s s' : Spec) (hcwd : w.files.LeadsTo cwd h.directory)
    (hapart : KeepApart cwd h.directory family options s s') :
    let plan := make cwd family options
    ∀ pool, Pool.Reaches h limit (.start w [plan s, plan s']) pool →
      (0 < limit → ∃ final r r', Pool.Reaches h limit pool final ∧ final.Finished [r, r']) ∧
      ∀ r r', pool.Finished [r, r'] →
        ComesTo h cwd family options s s' w r ∧ ComesTo h cwd family options s' s w r' ∧
        ∀ is is', r = .ok is → r' = .ok is' →
          (∀ u, (plan s).run h w = (.ok is, u) →
            ∃ v, (plan s').run h u = (.ok is', v) ∧ v.files = pool.world.files) ∧
          (∀ u, (plan s').run h w = (.ok is', u) →
            ∃ v, (plan s).run h u = (.ok is, v) ∧ v.files = pool.world.files) ∧
          (options.commandFile = true → ∀ t ∈ [s, s'],
            pool.world.files.read h.directory (OptionsFile.location cwd t.tempDirectory) =
              .ok (OptionsFile.contents family.quoting
                (sharedArguments family options t)).toUTF8) := by
  intro plan pool hrun
  refine ⟨fun hlimit => ?_, fun r r' hfinal => ?_⟩
  · obtain ⟨final, rs, hrest, hrs⟩ := Pool.exists_finished (h := h) hlimit pool
    have hlength : rs.length = 2 := by
      rw [← List.length_map Worker.finished, ← hrs, Pool.Reaches.length_workers (hrun.trans hrest)]
      rfl
    obtain ⟨r, r', rfl⟩ := List.length_eq_two.1 hlength
    exact ⟨final, r, r', hrest, hrs⟩
  · have hruns := interleaved_of_reaches hrun hfinal
    refine ⟨hruns.comesTo hcwd hapart, hruns.symm.comesTo hcwd hapart.symm, ?_⟩
    rintro is is' rfl rfl
    refine ⟨fun u his => hruns.in_turn hcwd hapart his,
      fun u his' => hruns.symm.in_turn hcwd hapart.symm his', fun hcommand => ?_⟩
    exact List.forall_mem_cons.2 ⟨hruns.read_optionsFile hcwd hapart hcommand,
      List.forall_mem_singleton.2 (hruns.symm.read_optionsFile hcwd hapart.symm hcommand)⟩

/-- Both requests find that a directory that they share is missing, and only one of them makes
it. -/
theorem make_interleaved_sharing_directories :
    let h : Host := ⟨["r"], fun _ fs => (.error .notFound, fs)⟩
    let w : World := { files := FileSystem.empty.putDirectories ["r"] }
    let options : Options := { commandFile := true }
    let s : Spec := {
      sources := [⟨"a/x.c"⟩]
      objectDirectory := ⟨"out"⟩
      tempDirectory := ⟨"tmp/one"⟩
      macros := [("ONE", none)]
      logLocation := ⟨"log"⟩ }
    let s' : Spec := { s with
      sources := [⟨"a/y.c"⟩], tempDirectory := ⟨"tmp/two"⟩, macros := [("TWO", none)] }
    let plan := make ⟨"/r"⟩ .gcc options
    w.files.LeadsTo ⟨"/r"⟩ h.directory ∧ KeepApart ⟨"/r"⟩ h.directory .gcc options s s' ∧
    ∃ is is' u pool, Pool.Reaches h 2 (.start w [plan s, plan s']) pool ∧
      pool.Finished [.ok is, .ok is'] ∧
      (plan s).run h w = (.ok is, u) ∧
      (∃ v, (plan s').run h u = (.ok is', v) ∧ v.files = pool.world.files) ∧
      pool.world.files.read ["r"] ⟨"/r/tmp/one/options.txt"⟩ = .ok "-c\n-x\nc\n-DONE\n".toUTF8 ∧
      pool.world.files.read ["r"] ⟨"/r/tmp/two/options.txt"⟩ = .ok "-c\n-x\nc\n-DTWO\n".toUTF8 := by
  intro h w options s s' plan
  have hcwd : w.files.LeadsTo ⟨"/r"⟩ h.directory :=
    ⟨by decide +kernel, by decide +kernel, by decide +kernel⟩
  have hapart : KeepApart ⟨"/r"⟩ h.directory .gcc options s s' := by decide +kernel
  have his := run_eq_of_fst (h := h) (w := w) (p := plan s)
    (a := .ok [planned ⟨"/r"⟩ .gcc s ["@/r/tmp/one/options.txt"] ⟨"a/x.c"⟩]) (by decide +kernel)
  have his' := run_eq_of_fst (h := h) (w := w) (p := plan s')
    (a := .ok [planned ⟨"/r"⟩ .gcc s' ["@/r/tmp/two/options.txt"] ⟨"a/y.c"⟩]) (by decide +kernel)
  obtain ⟨pool, hrun, hfinal⟩ : ∃ pool, Pool.Reaches h 2 (.start w [plan s, plan s']) pool ∧
      pool.Finished [
        .ok [planned ⟨"/r"⟩ .gcc s ["@/r/tmp/one/options.txt"] ⟨"a/x.c"⟩],
        .ok [planned ⟨"/r"⟩ .gcc s' ["@/r/tmp/two/options.txt"] ⟨"a/y.c"⟩]] :=
    Pool.exists_finished_of_follow ((List.replicate 18 [0, 1]).flatten ++ [0, 0, 0, 0])
      (by decide +kernel)
  obtain ⟨-, hends⟩ := make_interleaved h 2 w ⟨"/r"⟩ .gcc options s s' hcwd hapart pool hrun
  obtain ⟨-, -, hboth⟩ := hends _ _ hfinal
  obtain ⟨hturn, -, hread⟩ := hboth _ _ rfl rfl
  obtain ⟨hone, htwo⟩ := List.forall_mem_cons.1 (hread rfl)
  have htwo := List.forall_mem_singleton.1 htwo
  have hplaces : OptionsFile.location ⟨"/r"⟩ s.tempDirectory = ⟨"/r/tmp/one/options.txt"⟩ ∧
      OptionsFile.location ⟨"/r"⟩ s'.tempDirectory = ⟨"/r/tmp/two/options.txt"⟩ := by
    decide +kernel
  have hcontents : OptionsFile.contents Family.gcc.quoting (sharedArguments .gcc options s) =
        "-c\n-x\nc\n-DONE\n" ∧
      OptionsFile.contents Family.gcc.quoting (sharedArguments .gcc options s') =
        "-c\n-x\nc\n-DTWO\n" := by decide +kernel
  rw [hplaces.1, hcontents.1] at hone
  rw [hplaces.2, hcontents.2] at htwo
  exact ⟨hcwd, hapart, _, _, _, pool, hrun, hfinal, his, hturn _ his, hone, htwo⟩

/-- A directory `new/.` cannot be made where there is no `new`, but it is found when another request
has made `new`. Behind `new/..`, too, a file in the way is met earlier when another request has made
`new`, be it on the way to an object file or to the options file. -/
theorem outcome_depends_on_interleaving :
    let h : Host := ⟨["r"], fun _ fs => (.error .notFound, fs)⟩
    let request (source objects temp : String) : Spec := {
      sources := [⟨source⟩]
      objectDirectory := ⟨objects⟩
      tempDirectory := ⟨temp⟩
      logLocation := ⟨"log"⟩ }
    let root := FileSystem.empty.putDirectories ["r"]
    let file := root.put ["r", "f"] (.file ⟨.empty, false⟩)
    let ends (fs : FileSystem) (options : Options) (s s' : Spec)
        (alone r r' : Except PlanFailure (List Invocation)) : Prop :=
      let plan := make ⟨"/r"⟩ .gcc options
      fs.LeadsTo ⟨"/r"⟩ h.directory ∧ KeepApart ⟨"/r"⟩ h.directory .gcc options s s' ∧
      ((plan s).run h { files := fs }).1 = alone ∧
      ∃ pool, Pool.Reaches h 2 (.start { files := fs } [plan s, plan s']) pool ∧
        pool.Finished [r, r']
    (∃ is is', ends root { commandFile := true } (request "a.c" "out" "new/.")
      (request "b.c" "out" "new/x") (.error (.optionsFile ⟨"/r/new/options.txt"⟩ .notFound))
      (.ok is) (.ok is')) ∧
    (∃ is', ends file {} (request "f/x/b.c" "new/.." "one") (request "a.c" "new" "two")
      (.error (.directory ⟨"new/../f/x"⟩ .alreadyExists))
      (.error (.directory ⟨"new/../f/x"⟩ .notADirectory)) (.ok is')) ∧
    (∃ is', ends file { commandFile := true } (request "a.c" "out" "new/../f/x")
      (request "b.c" "out" "new")
      (.error (.optionsFile ⟨"/r/new/../f/x/options.txt"⟩ .alreadyExists))
      (.error (.optionsFile ⟨"/r/new/../f/x/options.txt"⟩ .notADirectory)) (.ok is')) := by
  intro h request root file ends
  have hroot : root.LeadsTo ⟨"/r"⟩ h.directory :=
    ⟨by decide +kernel, by decide +kernel, by decide +kernel⟩
  have hfile : file.LeadsTo ⟨"/r"⟩ h.directory :=
    hroot.mono (FileSystem.keepsDirectories_put _ _ _)
  refine ⟨⟨[planned ⟨"/r"⟩ .gcc (request "a.c" "out" "new/.") ["@/r/new/options.txt"] ⟨"a.c"⟩],
    [planned ⟨"/r"⟩ .gcc (request "b.c" "out" "new/x") ["@/r/new/x/options.txt"] ⟨"b.c"⟩],
    hroot, by decide +kernel, by decide +kernel, ?_⟩,
    ⟨[planned ⟨"/r"⟩ .gcc (request "a.c" "new" "two") ["-c", "-x", "c"] ⟨"a.c"⟩],
      hfile, by decide +kernel, by decide +kernel, ?_⟩,
    ⟨[planned ⟨"/r"⟩ .gcc (request "b.c" "out" "new") ["@/r/new/options.txt"] ⟨"b.c"⟩],
      hfile, by decide +kernel, by decide +kernel, ?_⟩⟩
  · exact Pool.exists_finished_of_follow (List.replicate 16 1 ++ List.replicate 12 0)
      (by decide +kernel)
  · exact Pool.exists_finished_of_follow (List.replicate 6 1 ++ List.replicate 8 0)
      (by decide +kernel)
  · exact Pool.exists_finished_of_follow (List.replicate 12 1 ++ List.replicate 6 0)
      (by decide +kernel)

end Plan

end CompileDriver
