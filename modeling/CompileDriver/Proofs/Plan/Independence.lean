import CompileDriver.Proofs.FileSystem.Making
import CompileDriver.Proofs.ObjectPath.Directory
import CompileDriver.Proofs.Plan.Footprint
import CompileDriver.Proofs.Plan.Success

/-! # Sources are planned independently

Whether a source can be planned is decided by the files that are there before any source is
planned, and what is planned for it does not depend on the others. So a plan for many sources
succeeds if each of them can be planned alone, in any order. It fails for the first that cannot. The
reported cause may differ only where the object directory leads back through `..`.
-/

namespace CompileDriver

open Procedure FileSystem

namespace ObjectPath

theorem parent_mem_components_of {objects source d : Path} {family : Family} {root : Option Path}
    (hd : (of objects source family.objectSuffix root).parent? = some d)
    (hparent : Component.parent ∈ d.steps) : Component.parent ∈ objects.components := by
  have houtput : Component.parent ∈ (of objects source family.objectSuffix root).components := by
    rw [Path.components_eq]
    refine List.mem_append_right _ ?_
    rcases (Path.isParentOf_of_parent? hd).steps with ⟨hempty, -⟩ | ⟨c, hc⟩
    · rw [Path.steps, hempty] at hparent
      cases hparent
    · exact hc ▸ List.mem_append_left [c] hparent
  rw [components_of (isStep_fileName source family)] at houtput
  rcases List.mem_append.1 houtput with h | h
  · split at h
    · rcases List.mem_append.1 h with h | h
      · exact h
      · obtain ⟨_, -, ⟨⟩⟩ := List.mem_map.1 h
    · split at h
      · exact h
      · exact List.dropLast_subset _ h
  · simp at h

variable {h : Host} {w w' : World} {cwd objects source output : Path} {limit : Option Nat}
  {suffix : String} {root : Option Path}

/-- Refuse an object file whose path is too long or whose directory cannot be made. -/
def checkPlace (cwd : Path) (limit : Option Nat) (fs : FileSystem) (directory : Location)
    (p : Path) : Except ObjectFailure Unit := do
  checkLength cwd limit p
  match p.parent? with
  | none => .ok ()
  | some d => (fs.checkDirectory directory d).mapError (ObjectFailure.directory d)

theorem run_prepare_fst (hcwd : w.files.node? h.directory = some .directory) :
    ((prepare cwd limit objects source suffix root).run h w).1 =
      (checkPlace cwd limit w.files h.directory (of objects source suffix root)).map fun _ =>
        of objects source suffix root := by
  unfold prepare checkPlace
  dsimp only
  cases checkLength cwd limit (of objects source suffix root) with
  | error e => rfl
  | ok _ =>
    cases hd : (of objects source suffix root).parent? with
    | none => rfl
    | some d =>
      dsimp only [Bind.bind, Except.bind]
      rw [run_andThen_done, run_mapError,
        run_ensureDirectory_fst hcwd (Path.isParentOf_of_parent? hd).endsInStep.orSlash]

end ObjectPath

namespace Plan

variable {h : Host} {w w' : World} {cwd : Path} {family : Family} {options : Options} {s : Spec}
  {shared : List String} {source : Path} {sources : List Path} {directory : Location}
  {fs gs : FileSystem}

/-! ## One source -/

def checkSource (cwd : Path) (family : Family) (options : Options) (s : Spec) (fs : FileSystem)
    (directory : Location) (source : Path) : Except PlanFailure Unit :=
  (ObjectPath.checkPlace cwd options.pathLimit fs directory (objectOf family s source)).mapError
    PlanFailure.ofObject

/-- The failure `e'` of a source alone may be reported as `e` behind other sources: as itself, or,
if the object directory leads back, as a file that is met earlier on the way to the same
directory. -/
def MayTurnInto (s : Spec) (e' e : PlanFailure) : Prop :=
  e' = e ∨ ∃ d, e = .directory d .notADirectory ∧ e' = .directory d .alreadyExists ∧
    Component.parent ∈ s.objectDirectory.components

theorem checkSource_of_addsDirectories (hadds : fs.AddsDirectories gs) (source : Path) :
    checkSource cwd family options s gs directory source =
        checkSource cwd family options s fs directory source ∨
      ∃ d, checkSource cwd family options s gs directory source =
          .error (.directory d .notADirectory) ∧
        checkSource cwd family options s fs directory source =
          .error (.directory d .alreadyExists) ∧
        Component.parent ∈ s.objectDirectory.components := by
  unfold checkSource ObjectPath.checkPlace
  cases ObjectPath.checkLength cwd options.pathLimit (objectOf family s source) with
  | error e =>
    dsimp only [Bind.bind, Except.bind]
    exact Or.inl rfl
  | ok _ =>
    cases hd : (objectOf family s source).parent? with
    | none => exact Or.inl rfl
    | some d =>
      dsimp only [Bind.bind, Except.bind]
      have hor : gs.checkDirectory directory d = fs.checkDirectory directory d ∨ _ :=
        checkDirectory_of_changesOnly hadds fun _ _ => id
      rcases hor with heq | ⟨hgs, hfs, hparent⟩
      · rw [heq]
        exact Or.inl rfl
      · rw [hgs, hfs]
        exact Or.inr ⟨d, rfl, rfl, ObjectPath.parent_mem_components_of hd hparent⟩

theorem run_invocation_fst (hcwd : w.files.node? h.directory = some .directory) :
    ((invocation cwd family options s shared source).run h w).1 =
      (checkSource cwd family options s w.files h.directory source).map fun _ =>
        planned cwd family s shared source := by
  rw [invocation, run_bind, run_warnMaybe, run_andThen_done, run_mapError,
    ObjectPath.run_prepare_fst (by exact hcwd), checkSource]
  unfold objectOf
  rcases ObjectPath.checkPlace cwd options.pathLimit w.files h.directory _ with e | _ <;> rfl

theorem addsDirectories_run_invocation (w : World) :
    w.files.AddsDirectories
      ((invocation cwd family options s shared source).run h w).2.files := by
  have htouches : (invocation cwd family options s shared source).CallsOnly
      (Call.Touches h.directory (fun _ => True) fun _ => False) :=
    callsOnly_invocation_of (fun _ => trivial) fun _ _ _ _ => ⟨trivial, trivial⟩
  exact htouches.changesOnly_run w

theorem gains_of_run_invocation {i : Invocation}
    (hcwd : w.files.node? h.directory = some .directory)
    (hi : (invocation cwd family options s shared source).run h w = (.ok i, w')) :
    Gains (OnWay h.directory family s source) w.files w'.files := by
  rw [invocation, run_bind, run_warnMaybe] at hi
  obtain ⟨output, u, hprepare, hi⟩ := run_andThen_eq_ok.1 hi
  cases hi
  rw [run_mapError_eq_ok] at hprepare
  unfold ObjectPath.prepare at hprepare
  dsimp only at hprepare
  split at hprepare
  · cases hprepare
  · split at hprepare
    · next hnone =>
      cases hprepare
      refine (Gains.refl _).congr fun l => iff_of_false id ?_
      rintro ⟨d, hd, -⟩
      cases hnone.symm.trans hd
    · next d hd =>
      obtain ⟨_, v, hensure, hprepare⟩ := run_andThen_eq_ok.1 hprepare
      cases hprepare
      rw [run_mapError_eq_ok] at hensure
      have hgains := gains_of_run_ensureDirectory (by exact hcwd) hensure
      refine hgains.congr fun l => ⟨fun hl => ⟨d, hd, hl⟩, ?_⟩
      rintro ⟨d', hd', hl⟩
      obtain rfl : d' = d := Option.some.inj (hd'.symm.trans hd)
      exact hl

theorem run_invocation_of_check_ok (hcwd : fs.node? h.directory = some .directory)
    (hadds : fs.AddsDirectories w.files)
    (hok : checkSource cwd family options s fs h.directory source = .ok ()) :
    ∃ v, (invocation cwd family options s shared source).run h w =
        (.ok (planned cwd family s shared source), v) ∧
      fs.AddsDirectories v.files ∧ Gains (OnWay h.directory family s source) w.files v.files := by
  have hcwd' := node?_of_le hadds.le hcwd
  have hcheck : checkSource cwd family options s w.files h.directory source = .ok () := by
    rcases checkSource_of_addsDirectories hadds source with heq | ⟨d, -, hfs, -⟩
    · rw [heq, hok]
    · rw [hok] at hfs
      cases hfs
  have hi : ((invocation cwd family options s shared source).run h w).1 =
      .ok (planned cwd family s shared source) := by
    rw [run_invocation_fst hcwd', hcheck]
    rfl
  have hi := run_eq_of_fst hi
  exact ⟨_, hi, hadds.trans (addsDirectories_run_invocation w), gains_of_run_invocation hcwd' hi⟩

theorem run_invocation_of_check_error {e' : PlanFailure}
    (hcwd : fs.node? h.directory = some .directory) (hadds : fs.AddsDirectories w.files)
    (herror : checkSource cwd family options s fs h.directory source = .error e') :
    ∃ e v, (invocation cwd family options s shared source).run h w = (.error e, v) ∧
      MayTurnInto s e' e := by
  have hfst : ((invocation cwd family options s shared source).run h w).1 = _ :=
    run_invocation_fst (node?_of_le hadds.le hcwd)
  rcases checkSource_of_addsDirectories hadds source with heq | ⟨d, hgs, hfs, hparent⟩
  · rw [heq, herror] at hfst
    exact ⟨e', _, run_eq_of_fst hfst, Or.inl rfl⟩
  · rw [hgs] at hfst
    refine ⟨_, _, run_eq_of_fst hfst, Or.inr ⟨d, rfl, ?_, hparent⟩⟩
    exact Except.error.inj (herror.symm.trans hfs)

/-! ## All sources -/

theorem run_invocations_of_forall (hcwd : fs.node? h.directory = some .directory)
    (hadds : fs.AddsDirectories w.files)
    (hall : ∀ b ∈ sources, checkSource cwd family options s fs h.directory b = .ok ()) :
    ∃ v, (invocations cwd family options s shared sources).run h w =
        (.ok (sources.map (planned cwd family s shared)), v) ∧
      Gains (fun l => ∃ b ∈ sources, OnWay h.directory family s b l) w.files v.files := by
  induction sources generalizing w with
  | nil => exact ⟨w, rfl, (Gains.refl _).congr fun l => by simp⟩
  | cons source sources ih =>
    obtain ⟨hsource, hsources⟩ := List.forall_mem_cons.1 hall
    obtain ⟨u, hi, hadds', hgains⟩ := run_invocation_of_check_ok hcwd hadds hsource
    obtain ⟨v, his, hgains'⟩ := ih hadds' hsources
    refine ⟨v, run_andThen_eq_ok.2 ⟨_, u, hi, run_andThen_eq_ok.2 ⟨_, v, his, rfl⟩⟩, ?_⟩
    exact (hgains.trans hgains').congr fun l => by simp

/-- Planning stops at the first source that cannot be planned alone. -/
theorem run_invocations_of_first {before after : List Path} {e' : PlanFailure}
    (hcwd : fs.node? h.directory = some .directory) (hadds : fs.AddsDirectories w.files)
    (hbefore : ∀ b ∈ before, checkSource cwd family options s fs h.directory b = .ok ())
    (herror : checkSource cwd family options s fs h.directory source = .error e') :
    ∃ e v, (invocations cwd family options s shared (before ++ source :: after)).run h w =
        (.error e, v) ∧
      MayTurnInto s e' e := by
  induction before generalizing w with
  | nil =>
    obtain ⟨e, v, he, hcause⟩ := run_invocation_of_check_error hcwd hadds herror
    exact ⟨e, v, run_andThen_eq_error.2 (Or.inl he), hcause⟩
  | cons b before ih =>
    obtain ⟨hb, hbefore⟩ := List.forall_mem_cons.1 hbefore
    obtain ⟨u, hi, hadds', -⟩ := run_invocation_of_check_ok hcwd hadds hb
    obtain ⟨e, v, he, hcause⟩ := ih hadds' hbefore
    refine ⟨e, v, run_andThen_eq_error.2 (Or.inr ⟨_, u, hi, ?_⟩), hcause⟩
    exact run_andThen_eq_error.2 (Or.inl he)

theorem forall_ok_or_exists_first {ε : Type} (check : Path → Except ε Unit) (sources : List Path) :
    (∀ b ∈ sources, check b = .ok ()) ∨
      ∃ before source after e, sources = before ++ source :: after ∧
        (∀ b ∈ before, check b = .ok ()) ∧ check source = .error e := by
  induction sources with
  | nil => exact Or.inl (List.forall_mem_nil _)
  | cons source sources ih =>
    cases hsource : check source with
    | error e => exact Or.inr ⟨[], source, sources, e, rfl, List.forall_mem_nil _, hsource⟩
    | ok _ =>
      rcases ih with hall | ⟨before, b, after, e, rfl, hbefore, hb⟩
      · exact Or.inl (List.forall_mem_cons.2 ⟨hsource, hall⟩)
      · exact Or.inr ⟨source :: before, b, after, e, rfl,
          List.forall_mem_cons.2 ⟨hsource, hbefore⟩, hb⟩

/-- What `ran` makes of sources together is what it makes of each of them alone. -/
structure Independent (s : Spec) (sources : List Path)
    (ran : List Path → Except PlanFailure (List Invocation) × World) : Prop where
  succeeds_iff : (∃ is v, ran sources = (.ok is, v)) ↔
    ∀ source ∈ sources, ∃ i v, ran [source] = (.ok [i], v)
  /-- Each invocation is the one of its source alone, and the order of the sources decides only the
  order of the invocations. -/
  of_ok : ∀ is v, ran sources = (.ok is, v) →
    ∃ f : Path → Invocation, is = sources.map f ∧
      (∀ source ∈ sources, (ran [source]).1 = .ok [f source]) ∧
      ∀ others, sources.Perm others →
        ∃ v', ran others = (.ok (others.map f), v') ∧ v'.files = v.files
  /-- The first source that fails alone decides the failure. -/
  of_error : ∀ e v, ran sources = (.error e, v) →
    ∃ before source after, sources = before ++ source :: after ∧
      (∀ b ∈ before, ∃ i v', ran [b] = (.ok [i], v')) ∧
      ∃ e' v', ran [source] = (.error e', v') ∧ MayTurnInto s e' e

/-- With the shared arguments at hand, sources are planned independently. -/
theorem independent_invocations (hcwd : w.files.node? h.directory = some .directory) :
    Independent s sources fun sources =>
      (invocations cwd family options s shared sources).run h w := by
  let ran (sources : List Path) := (invocations cwd family options s shared sources).run h w
  have hrefl : w.files.AddsDirectories w.files := ChangesOnly.refl w.files
  have hok {others : List Path}
      (hall : ∀ b ∈ others, checkSource cwd family options s w.files h.directory b = .ok ()) :
      ∃ v, ran others = (.ok (others.map (planned cwd family s shared)), v) ∧
        Gains (fun l => ∃ b ∈ others, OnWay h.directory family s b l) w.files v.files :=
    run_invocations_of_forall hcwd hrefl hall
  have halone {b : Path} (hb : checkSource cwd family options s w.files h.directory b = .ok ()) :
      ∃ v, ran [b] = (.ok [planned cwd family s shared b], v) := by
    obtain ⟨v, hv, -⟩ := hok (List.forall_mem_singleton.2 hb)
    exact ⟨v, hv⟩
  rcases forall_ok_or_exists_first
      (checkSource cwd family options s w.files h.directory) sources with
    hall | ⟨before, source, after, e', rfl, hbefore, herror⟩
  · obtain ⟨v, hv, hgains⟩ := hok hall
    constructor
    case succeeds_iff => exact iff_of_true ⟨_, v, hv⟩ fun b hb => ⟨_, halone (hall b hb)⟩
    case of_ok =>
      intro is v' his
      cases hv.symm.trans his
      refine ⟨_, rfl, fun b hb => ?_, fun others hperm => ?_⟩
      · obtain ⟨u, hu⟩ := halone (hall b hb)
        exact congrArg Prod.fst hu
      · obtain ⟨u, hu, hgains'⟩ := hok fun b hb => hall b (hperm.mem_iff.2 hb)
        refine ⟨u, hu, (hgains'.congr fun l => ?_).unique hgains⟩
        simp only [hperm.mem_iff]
    case of_error =>
      intro e v' he
      cases hv.symm.trans he
  · obtain ⟨e, v, he, hcause⟩ : ∃ e v, ran (before ++ source :: after) = (.error e, v) ∧ _ :=
      run_invocations_of_first hcwd hrefl hbefore herror
    obtain ⟨u, hu⟩ : ∃ u, ran [source] = (.error e', u) := by
      have hfst : ((invocation cwd family options s shared source).run h w).1 = _ :=
        run_invocation_fst hcwd
      rw [herror] at hfst
      exact ⟨_, run_andThen_eq_error.2 (Or.inl (run_eq_of_fst hfst))⟩
    constructor
    case succeeds_iff =>
      apply iff_of_false
      · rintro ⟨is, v', his⟩
        cases he.symm.trans his
      · intro hall
        obtain ⟨i, v', hi⟩ := hall source (List.mem_append_right _ List.mem_cons_self)
        cases hu.symm.trans hi
    case of_ok =>
      intro is v' his
      cases he.symm.trans his
    case of_error =>
      intro e₂ v' he₂
      cases he.symm.trans he₂
      exact ⟨before, source, after, rfl, fun b hb => ⟨_, halone (hbefore b hb)⟩, e', u, hu, hcause⟩

/-! ## Plans -/

/-- Each source is planned as if it were alone: many sources have a plan if each of them has one,
which then holds their invocations, in any order, and leaves the same files. A plan fails at the
first source that has none, with the error of that source alone, except that behind a step back of
the object directory a file in the way may be reported as no directory instead of as existing. -/
theorem make_independent (h : Host) (w : World) (cwd : Path) (family : Family) (options : Options)
    (s : Spec) (hcwd : w.files.node? h.directory = some .directory) (hne : s.sources ≠ []) :
    Independent s s.sources fun sources =>
      (make cwd family options { s with sources := sources }).run h w := by
  have hmake (sources : List Path) :
      (make cwd family options { s with sources := sources }).run h w =
        ((assemble cwd family options s).andThen fun shared =>
          invocations cwd family options s shared sources).run h w :=
    congrArg (Procedure.run h · w) make_withSources
  simp only [hmake]
  rcases hassemble : (assemble cwd family options s).run h w with ⟨e | shared, u⟩
  · -- without shared arguments there is no plan for any sources
    have hfails (sources : List Path) : ((assemble cwd family options s).andThen fun shared =>
        invocations cwd family options s shared sources).run h w = (.error e, u) :=
      run_andThen_eq_error.2 (Or.inl hassemble)
    simp only [hfails]
    obtain ⟨source, rest, hsources⟩ := List.exists_cons_of_ne_nil hne
    constructor
    case succeeds_iff =>
      apply iff_of_false
      · rintro ⟨is, v, ⟨⟩⟩
      · intro hall
        obtain ⟨i, v, ⟨⟩⟩ := hall source (hsources ▸ List.mem_cons_self)
    case of_ok =>
      rintro is v ⟨⟩
    case of_error =>
      rintro _ _ ⟨⟩
      exact ⟨[], source, rest, hsources, List.forall_mem_nil _, e, u, rfl, Or.inl rfl⟩
  · have hshared (sources : List Path) : ((assemble cwd family options s).andThen fun shared =>
        invocations cwd family options s shared sources).run h w =
          (invocations cwd family options s shared sources).run h u := by
      rw [andThen, run_bind, hassemble]
    simp only [hshared]
    exact independent_invocations (node?_of_run_assemble hcwd hassemble)

/-- Two sources in either order, and a source behind which nothing is planned. -/
theorem make_independent_reversed :
    let h : Host := ⟨["r"], fun _ fs => (.error .notFound, fs)⟩
    let w : World := {
      files := (FileSystem.empty.putDirectories ["r", "out"]).put ["r", "out", "f"]
        (.file ⟨.empty, false⟩) }
    let s : Spec := {
      sources := [⟨"deep/a.c"⟩, ⟨"deep/down/b.c"⟩]
      objectDirectory := ⟨"out"⟩
      tempDirectory := ⟨"tmp"⟩
      logLocation := ⟨"log"⟩ }
    let blocked : Spec := { s with sources := [⟨"deep/a.c"⟩, ⟨"f/x/c.c"⟩, ⟨"b.c"⟩] }
    let ran (sources : List Path) := (make ⟨"/r"⟩ .gcc {} { s with sources := sources }).run h w
    w.files.node? h.directory = some .directory ∧ s.sources ≠ [] ∧ blocked.sources ≠ [] ∧
    (∃ i j v v', ran s.sources = (.ok [i, j], v) ∧ ran s.sources.reverse = (.ok [j, i], v') ∧
      v'.files = v.files) ∧
    (∃ v, ran blocked.sources = (.error (.directory ⟨"out/f/x"⟩ .notADirectory), v) ∧
      ∃ source ∈ blocked.sources, ∃ v',
        ran [source] = (.error (.directory ⟨"out/f/x"⟩ .notADirectory), v')) := by
  intro h w s blocked ran
  have hcwd : w.files.node? h.directory = some .directory := by decide +kernel
  have hne : s.sources ≠ [] := by decide
  have hne' : blocked.sources ≠ [] := by decide
  obtain ⟨v, hv⟩ : ∃ v, ran s.sources =
      (.ok (s.sources.map (planned ⟨"/r"⟩ .gcc s ["-c", "-x", "c"])), v) :=
    ⟨_, run_eq_of_fst (h := h) (w := w) (p := make ⟨"/r"⟩ .gcc {} s) (by decide +kernel)⟩
  obtain ⟨u, hu⟩ : ∃ u, ran blocked.sources =
      (.error (.directory ⟨"out/f/x"⟩ .notADirectory), u) :=
    ⟨_, run_eq_of_fst (h := h) (w := w) (p := make ⟨"/r"⟩ .gcc {} blocked) (by decide +kernel)⟩
  obtain ⟨-, hok, -⟩ := make_independent h w ⟨"/r"⟩ .gcc {} s hcwd hne
  obtain ⟨-, -, herror⟩ := make_independent h w ⟨"/r"⟩ .gcc {} blocked hcwd hne'
  obtain ⟨f, hf, -, hperm⟩ := hok _ v hv
  rw [hf] at hv
  obtain ⟨v', hv', hfiles⟩ := hperm s.sources.reverse (List.reverse_perm _).symm
  obtain ⟨before, source, after, hsources, -, e, u', hsource, hcause⟩ := herror _ u hu
  refine ⟨hcwd, hne, hne', ⟨f ⟨"deep/a.c"⟩, f ⟨"deep/down/b.c"⟩, v, v', hv, hv', hfiles⟩,
    u, hu, source, hsources ▸ by simp, u', ?_⟩
  rcases hcause with rfl | ⟨d, -, -, hparent⟩
  · exact hsource
  · exact absurd hparent (by decide +kernel)

/-- Behind `new/..` a file in the way is met as soon as `new` exists, which the other source needs;
for the second source alone it is met only when it is its turn to be made. -/
theorem cause_depends_on_sources_behind_parent :
    let h : Host := ⟨["r"], fun _ fs => (.error .notFound, fs)⟩
    let w : World := {
      files := (FileSystem.empty.putDirectories ["r"]).put ["r", "f"] (.file ⟨.empty, false⟩) }
    let s : Spec := {
      sources := [⟨"a.c"⟩, ⟨"f/x/b.c"⟩]
      objectDirectory := ⟨"new/.."⟩
      tempDirectory := ⟨"tmp"⟩
      logLocation := ⟨"log"⟩ }
    let ran (sources : List Path) := (make ⟨"/r"⟩ .gcc {} { s with sources := sources }).run h w
    (∃ i, (ran [⟨"a.c"⟩]).1 = .ok [i]) ∧
    (ran s.sources).1 = .error (.directory ⟨"new/../f/x"⟩ .notADirectory) ∧
    (ran [⟨"f/x/b.c"⟩]).1 = .error (.directory ⟨"new/../f/x"⟩ .alreadyExists) ∧
    (ran s.sources).1 ≠ (ran [⟨"f/x/b.c"⟩]).1 := by
  intro h w s ran
  have htogether : (ran s.sources).1 = .error (.directory ⟨"new/../f/x"⟩ .notADirectory) := by
    decide +kernel
  have halone : (ran [⟨"f/x/b.c"⟩]).1 = .error (.directory ⟨"new/../f/x"⟩ .alreadyExists) := by
    decide +kernel
  refine ⟨⟨planned ⟨"/r"⟩ .gcc s ["-c", "-x", "c"] ⟨"a.c"⟩, by decide +kernel⟩, htogether, halone,
    ?_⟩
  rw [htogether, halone]
  decide

end Plan

end CompileDriver
