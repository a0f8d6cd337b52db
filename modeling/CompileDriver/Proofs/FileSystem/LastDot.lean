import CompileDriver.Proofs.FileSystem.LastStep

/-! # Directories that are spelled with a last dot

A path such as `new/.` is never made itself. What it ends in has to be there once the directory
above it exists, or another procedure has to make it. So what is reported for such a path among
others is what is reported alone, unless nothing is missing but the end of the path: then others may
make that.
-/

namespace CompileDriver

open FileSystem

namespace Procedure

variable {h : Host} {fs : FileSystem} {u u' w w' : World} {p q : Path} {above : List Path}
  {c : Component} {r r₀ : Except IoError Unit} {e : IoError} {D F : Location → Prop}

/-! ## Where something is in the way -/

theorem run_createDirectories_of_obstacle (hp : p.EndsInDot q c)
    (hcwd : w.files.node? h.directory = some .directory)
    (hway : w.files.checkDirectory h.directory q = .error e) :
    ((createDirectories p p.parents).run h w).1 = w.files.checkDirectory h.directory p := by
  rw [hp.parent.parents, createDirectories, if_neg (text_ne_empty_of_checkPath hp.checked)]
  rcases makeDirectory_of_obstacle hp hway with ⟨hm, hp'⟩ | ⟨e', hm, hp', he'⟩
  · have hfst : ((createDirectories q q.parents).run h w).1 = .error e :=
      (run_createDirectories_fst hcwd hp.parent.endsInStep.orSlash rfl).trans hway
    rw [run_makeDirectoryOr_of_notFound hm, hp', hway]
    exact congrArg Prod.fst (run_andThen_eq_error.2 (Or.inl (run_eq_of_fst hfst)))
  · rw [run_makeDirectoryOr_of_error hm he', run_acceptDirectory_of_ne, hp']
    intro hs
    rw [checkDirectory_of_hasDirectory (Or.inr hs)] at hp'
    cases hp'

/-- Where something is in the way, no directory is found later. -/
theorem RunsAmong.acceptDirectory_of_obstacle {e' : IoError}
    (hway : w.files.checkDirectory h.directory p = .error e')
    (hF : ∀ l, p.Passes h.directory l → ¬ F l)
    (hrun : (acceptDirectory p e).RunsAmong h (.changesOnly D F) w r w') : r = .error e := by
  obtain ⟨v, hv, -, ⟨hs, -⟩ | ⟨-, hr⟩⟩ := hrun.acceptDirectory_cases
  · have hfound := (agrees_checkDirectory hv hF).eq_ok_iff.2
      (checkDirectory_of_hasDirectory (Or.inr hs))
    rw [hway] at hfound
    cases hfound
  · exact hr

theorem RunsAmong.andThen_of_obstacle {f : Unit → Procedure (Except IoError Unit)}
    (hq : q.IsParentOf p) (hcwd : w.files.node? h.directory = some .directory)
    (hway : w.files.checkDirectory h.directory q = .error e)
    (hF : ∀ l, q.Passes h.directory l → ¬ F l)
    (hrun : ((createDirectories q q.parents).andThen f).RunsAmong h (.changesOnly D F) w r w') :
    AgreesUpTo (MetEarlier p) (.error e) r := by
  obtain ⟨x, v, hx, hrest⟩ := hrun.exists_of_bind
  obtain ⟨hagrees, -⟩ := hx.createDirectories_outcome hcwd hq.endsInStep.orSlash rfl hF
  rw [hway] at hagrees
  cases hagrees with
  | error he =>
    obtain ⟨rfl, -⟩ := hrest
    exact .error (he.mono hq.steps_prefix)

theorem RunsAmong.createDirectories_of_obstacle (hp : p.EndsInDot q c)
    (hcwd : w.files.node? h.directory = some .directory)
    (hway : w.files.checkDirectory h.directory q = .error e)
    (hF : ∀ l, p.Passes h.directory l → ¬ F l)
    (hrun : (createDirectories p p.parents).RunsAmong h (.changesOnly D F) w r w') :
    AgreesUpTo (MetEarlier p) (w.files.checkDirectory h.directory p) r := by
  have hFq : ∀ l, q.Passes h.directory l → ¬ F l := fun l hl => hF l (hp.passes hl)
  rw [hp.parent.parents, createDirectories,
    if_neg (text_ne_empty_of_checkPath hp.checked)] at hrun
  obtain ⟨v, hv, hcases⟩ := hrun.makeDirectoryOr_cases
  have hv : ChangesOnly D F w.files v.files := hv
  obtain ⟨e₁, hway'⟩ := exists_checkDirectory_error hv hFq hway
  refine agrees_of_changesOnly hv hF ?_
  rcases makeDirectory_of_obstacle hp hway' with ⟨hm, hp'⟩ | ⟨e', hm, hp', he'⟩
  · rw [hm] at hcases
    rw [hp', hway']
    rcases hcases with ⟨fs, ⟨⟩, -⟩ | ⟨-, hrest⟩ | ⟨_, ⟨⟩, he, -⟩
    · -- something on the way is missing, so the directory above is asked for
      exact hrest.andThen_of_obstacle hp.parent (hv.keepsDirectories _ hcwd) hway' hFq
    · exact absurd rfl he
  · rw [hm] at hcases
    rw [hp']
    rcases hcases with ⟨fs, ⟨⟩, -⟩ | ⟨hmissing, -⟩ | ⟨_, ⟨⟩, -, haccept⟩
    · exact absurd (Except.error.inj hmissing) he'
    · rw [haccept.acceptDirectory_of_obstacle hp' hF]
      exact .error (.refl _)

theorem RunsAmong.createDirectories_of_checkPath_error (hne : p.text ≠ "")
    (hcheck : checkPath p = .error e)
    (hrun : (createDirectories p above).RunsAmong h (.changesOnly D F) w r w') : r = .error e := by
  have hmake {m : Procedure (Except IoError Unit)}
      (hrun : (makeDirectoryOr p m).RunsAmong h (.changesOnly D F) w r w') : r = .error e := by
    obtain ⟨v, -, hcases⟩ := hrun.makeDirectoryOr_cases
    have hm : v.files.makeDirectory h.directory p = .error e := by
      rw [makeDirectory, hcheck]
      rfl
    rw [hm] at hcases
    rcases hcases with ⟨fs, ⟨⟩, -⟩ | ⟨hmissing, -⟩ | ⟨_, ⟨⟩, -, haccept⟩
    · rw [Except.error.inj hmissing] at hcheck
      exact absurd hcheck (checkPath_ne_notFound hne)
    · obtain ⟨v₁, -, -, ⟨hs, -⟩ | ⟨-, hr⟩⟩ := haccept.acceptDirectory_cases
      · rw [status_of_checkPath hcheck] at hs
        cases hs
      · exact hr
  cases above <;> rw [createDirectories, if_neg hne] at hrun <;> exact hmake hrun

/-! ## Where nothing is in the way of the directory above -/

theorem RunsAmong.acceptDirectory_of_above (hp : p.EndsInDot q c)
    (habove : w.files.HasDirectory h.directory q)
    (hm : w.files.makeDirectory h.directory p = .error e)
    (hrun : (acceptDirectory p e).RunsAmong h (.changesOnly D F) w r w') :
    ∃ v : World, ChangesOnly D F w.files v.files ∧ ChangesOnly D F v.files w'.files ∧
      v.files.HasDirectory h.directory q ∧
      r = v.files.checkLast (q.destination h.directory) c := by
  obtain ⟨v, hv, hv', hcases⟩ := hrun.acceptDirectory_cases
  have hv : ChangesOnly D F w.files v.files := hv
  have habove' := habove.mono hv.keepsDirectories
  rcases hcases with ⟨hs, rfl⟩ | ⟨hs, rfl⟩
  · exact ⟨v, hv, hv', habove', ((status_eq_directory_iff_checkLast hp habove').1 hs).symm⟩
  · rcases checkLast_of_makeDirectory hp habove hm with hdir | hlast
    · have hdir := (status_eq_directory_iff_checkLast hp habove).2 hdir
      exact absurd (status_of_keepsDirectories hv.keepsDirectories hdir) hs
    · exact ⟨w, .refl _, hv.trans hv', habove, hlast.symm⟩

theorem RunsAmong.makeDirectoryOr_of_above (hp : p.EndsInDot q c)
    (habove : w.files.HasDirectory h.directory q)
    (hrun : (makeDirectoryOr p (acceptDirectory p .notFound)).RunsAmong h (.changesOnly D F)
      w r w') :
    ∃ v : World, ChangesOnly D F w.files v.files ∧ ChangesOnly D F v.files w'.files ∧
      v.files.HasDirectory h.directory q ∧
      r = v.files.checkLast (q.destination h.directory) c := by
  obtain ⟨v, hv, hcases⟩ := hrun.makeDirectoryOr_cases
  have hv : ChangesOnly D F w.files v.files := hv
  obtain ⟨e, hm, haccept⟩ : ∃ e, v.files.makeDirectory h.directory p = .error e ∧
      (acceptDirectory p e).RunsAmong h (.changesOnly D F) v r w' := by
    rcases hcases with ⟨fs, hm, -⟩ | ⟨hm, haccept⟩ | ⟨e, hm, -, haccept⟩
    · rw [makeDirectory_of_endsInDot hp.dot hp.checked] at hm
      cases hm
    · exact ⟨_, hm, haccept⟩
    · exact ⟨_, hm, haccept⟩
  obtain ⟨v₁, hv₁, hrest⟩ :=
    haccept.acceptDirectory_of_above hp (habove.mono hv.keepsDirectories) hm
  exact ⟨v₁, hv.trans hv₁, hrest⟩

/-- The directory above is found or made, and then the last step decides. -/
theorem RunsAmong.createDirectories_of_above (hp : p.EndsInDot q c)
    (hcwd : w.files.node? h.directory = some .directory)
    (hway : w.files.checkDirectory h.directory q = .ok ())
    (hF : ∀ l, p.Passes h.directory l → ¬ F l)
    (hrun : (createDirectories p p.parents).RunsAmong h (.changesOnly D F) w r w') :
    ∃ v : World, ChangesOnly (fun l => D l ∨ q.Passes h.directory l) F w.files v.files ∧
      ChangesOnly D F v.files w'.files ∧ v.files.HasDirectory h.directory q ∧
      r = v.files.checkLast (q.destination h.directory) c := by
  have hFq : ∀ l, q.Passes h.directory l → ¬ F l := fun l hl => hF l (hp.passes hl)
  rw [hp.parent.parents, createDirectories,
    if_neg (text_ne_empty_of_checkPath hp.checked)] at hrun
  obtain ⟨v, hv, hcases⟩ := hrun.makeDirectoryOr_cases
  have hv : ChangesOnly D F w.files v.files := hv
  have hway' := (agrees_checkDirectory hv hFq).eq_ok_iff.1 hway
  have hwiden {fs gs : FileSystem} (hfs : ChangesOnly D F fs gs) :
      ChangesOnly (fun l => D l ∨ q.Passes h.directory l) F fs gs :=
    hfs.mono (fun _ => Or.inl) fun _ => id
  rcases hcases with ⟨fs, hm, -⟩ | ⟨-, hrest⟩ | ⟨e, hm, he, haccept⟩
  · rw [makeDirectory_of_endsInDot hp.dot hp.checked] at hm
    cases hm
  · obtain ⟨x, v₁, hx, hagain⟩ := hrest.exists_of_bind
    obtain ⟨hagrees, hmade⟩ := hx.createDirectories_outcome (hv.keepsDirectories _ hcwd)
      hp.parent.endsInStep.orSlash rfl hFq
    obtain rfl := hagrees.eq_ok_iff.1 hway'
    have hv₁ : ChangesOnly (fun l => D l ∨ q.Passes h.directory l) F v.files v₁.files :=
      hx.rel (R := .changesOnly (fun l => D l ∨ q.Passes h.directory l) F)
        (callsOnly_touches_createDirectories q)
        (fun _ hc w => (changesOnly_answer hc w).mono (fun _ => Or.inr) fun _ => False.elim)
        fun _ _ hw => hwiden hw
    obtain ⟨v₂, hv₂, hrest⟩ := hagain.makeDirectoryOr_of_above hp (hmade rfl)
    exact ⟨v₂, ((hwiden hv).trans hv₁).trans (hwiden hv₂), hrest⟩
  · obtain ⟨v₁, hv₁, hrest⟩ :=
      haccept.acceptDirectory_of_above hp (hasDirectory_above hp hway' hm he) hm
    exact ⟨v₁, hwiden (hv.trans hv₁), hrest⟩

/-- Where nothing is in the way of the directory above, the last step alone and among others leads
to the same, unless it leads to nothing alone. -/
theorem RunsAmong.createDirectories_eq (hp : p.EndsInDot q c)
    (hcwd : u.files.node? h.directory = some .directory) (hF : ∀ l, p.Passes h.directory l → ¬ F l)
    (huw : ChangesOnly D F u.files w.files) (hway : u.files.checkDirectory h.directory q = .ok ())
    (halone : ((createDirectories p p.parents).run h u).1 ≠ .error .notFound)
    (hrun : (createDirectories p p.parents).RunsAmong h (.changesOnly D F) w r w') :
    r = ((createDirectories p p.parents).run h u).1 ∧
      (r = .ok () → w'.files.HasDirectory h.directory p) := by
  have hway' := (agrees_checkDirectory huw fun l hl => hF l (hp.passes hl)).eq_ok_iff.1 hway
  obtain ⟨u₁, hu₁, -, -, hlast⟩ := (RunsAmong.run (h := h)
    (E := .changesOnly (fun _ => False) fun _ => False) (createDirectories p p.parents)
    u).createDirectories_of_above hp hcwd hway fun _ _ => id
  obtain ⟨v, hv, hv', habove, rfl⟩ :=
    hrun.createDirectories_of_above hp (huw.keepsDirectories _ hcwd) hway' hF
  have hend : ¬ F (c.next (q.destination h.directory)) := by
    rw [← hp.destination_eq]
    exact hF _ (Path.passes_destination h.directory p)
  have huv := (huw.mono (fun _ => Or.inl) fun _ => id).trans hv
  constructor
  · rw [hlast] at halone ⊢
    by_cases hnone : u.files.checkLast (q.destination h.directory) c = .error .notFound
    · -- the last step leads to a directory that has been made on the way
      obtain ⟨s, rfl, hshort, hnone⟩ := checkLast_eq_notFound_iff.1 hnone
      rcases hu₁ (q.destination h.directory ++ [s]) with hsame | ⟨hpasses, -, hdir⟩ | ⟨⟨⟩, -⟩
      · rw [hnone] at hsame
        exact absurd (checkLast_eq_notFound_iff.2 ⟨s, rfl, hshort, hsame⟩) halone
      · have hdir' := node?_of_passes (huv.keepsDirectories _ hcwd) habove
          (hpasses.resolve_left id)
        rw [checkLast, checkLast, if_neg hshort, if_neg hshort, hdir, hdir']
    · rw [checkLast_of_changesOnly huv hend hnone, checkLast_of_changesOnly hu₁ id hnone]
  · intro hok
    refine HasDirectory.mono (Or.inr ?_) hv'.keepsDirectories
    exact (status_eq_directory_iff_checkLast hp habove).2 hok

theorem RunsAmong.createDirectories_of_ne_notFound (hp : ¬ p.EndsInStepOrSlash)
    (hcwd : u.files.node? h.directory = some .directory) (hF : ∀ l, p.Passes h.directory l → ¬ F l)
    (huw : ChangesOnly D F u.files w.files)
    (halone : ((createDirectories p p.parents).run h u).1 ≠ .error .notFound)
    (hrun : (createDirectories p p.parents).RunsAmong h (.changesOnly D F) w r w') :
    AgreesUpTo (MetEarlier p) ((createDirectories p p.parents).run h u).1 r ∧
      (r = .ok () → w'.files.HasDirectory h.directory p) := by
  cases hcheck : checkPath p with
  | error e =>
    have hne := Path.text_ne_empty_of_not_endsInStepOrSlash hp
    rw [(RunsAmong.run (h := h) (E := .changesOnly D F) (createDirectories p p.parents)
      u).createDirectories_of_checkPath_error hne hcheck,
      hrun.createDirectories_of_checkPath_error hne hcheck]
    exact ⟨.refl .refl _, nofun⟩
  | ok _ =>
    obtain ⟨q, c, hp⟩ := Path.exists_endsInDot hp hcheck
    cases hway : u.files.checkDirectory h.directory q with
    | error e =>
      obtain ⟨e', hway'⟩ := exists_checkDirectory_error huw (fun l hl => hF l (hp.passes hl)) hway
      have hagrees := agrees_of_changesOnly huw hF
        (hrun.createDirectories_of_obstacle hp (huw.keepsDirectories _ hcwd) hway' hF)
      rw [run_createDirectories_of_obstacle hp hcwd hway]
      refine ⟨hagrees, fun hok => ?_⟩
      rw [checkDirectory_of_isParentOf hp.parent hp.checked (hagrees.eq_ok_iff.2 hok)] at hway
      cases hway
    | ok _ =>
      obtain ⟨hr, hmade⟩ := hrun.createDirectories_eq hp hcwd hF huw hway halone
      rw [hr]
      exact ⟨.refl .refl _, hr ▸ hmade⟩

/-- A directory is made among others as it is made alone, unless it is spelled with a last dot and
nothing lies there alone. -/
theorem withstands_createDirectories (hcwd : fs.node? h.directory = some .directory)
    (hF : ∀ l, p.Passes h.directory l → ¬ F l) :
    (createDirectories p p.parents).Withstands h (.changesOnly D F) (MetEarlier p)
      (fun u v => DiffersBy fs D F u v ∧
        ((createDirectories p p.parents).run h u).1 ≠ .error .notFound)
      fun u v => DiffersBy fs D F u v ∧ u.files.HasDirectory h.directory p := by
  rintro u v r v' ⟨huv, halone⟩ hrun
  by_cases hp : p.EndsInStepOrSlash
  · exact withstands_createDirectories_of_endsInStep hcwd hp hF u v r v' huv hrun
  · have hcwd' := huv.kept _ hcwd
    obtain ⟨hagrees, hmade⟩ :=
      hrun.createDirectories_of_ne_notFound hp hcwd' hF huv.changes halone
    refine ⟨hagrees, fun _ hok => ?_⟩
    have hdir := hasDirectory_of_run_createDirectories hcwd'
      (run_eq_of_fst (hagrees.eq_ok_iff.2 hok))
    exact ⟨.of_made hcwd huv (callsOnly_touches_createDirectories p) hrun hdir (hmade hok), hdir⟩

/-! ## Where only the end of the path is missing -/

/-- Nothing is in the way of the directory `q` above `p`, and making it does not make what `p` ends
in, where there is nothing. -/
structure LacksEnd (fs : FileSystem) (cwd : Location) (p q : Path) (s : String) : Prop
    extends p.EndsInDot q (.name s) where
  way : fs.checkDirectory cwd q = .ok ()
  short : ¬ longestName < s.utf8ByteSize
  missing : fs.node? (p.destination cwd) = none
  apart : ¬ q.Passes cwd (p.destination cwd)

theorem exists_lacksEnd (hcwd : w.files.node? h.directory = some .directory)
    (halone : ((createDirectories p p.parents).run h w).1 = .error .notFound) :
    ∃ q s, LacksEnd w.files h.directory p q s := by
  have hp : ¬ p.EndsInStepOrSlash := by
    intro hp
    rw [run_createDirectories_fst hcwd hp rfl] at halone
    exact checkDirectory_ne_notFound halone
  have hrun := RunsAmong.run (h := h) (E := .changesOnly (fun _ => False) fun _ => False)
    (createDirectories p p.parents) w
  rw [halone] at hrun
  cases hcheck : checkPath p with
  | error e =>
    have hne := Path.text_ne_empty_of_not_endsInStepOrSlash hp
    cases hrun.createDirectories_of_checkPath_error hne hcheck
    exact absurd hcheck (checkPath_ne_notFound hne)
  | ok _ =>
    obtain ⟨q, c, hp⟩ := Path.exists_endsInDot hp hcheck
    cases hway : w.files.checkDirectory h.directory q with
    | error e =>
      rw [run_createDirectories_of_obstacle hp hcwd hway] at halone
      exact absurd halone checkDirectory_ne_notFound
    | ok _ =>
      obtain ⟨v, hv, -, habove, hlast⟩ :=
        hrun.createDirectories_of_above hp hcwd hway fun _ _ => id
      obtain ⟨s, rfl, hshort, hnone⟩ := checkLast_eq_notFound_iff.1 hlast.symm
      have hnone : v.files.node? (p.destination h.directory) = none := hp.destination_eq ▸ hnone
      refine ⟨q, s, hp, hway, hshort, ?_, fun hpasses => ?_⟩
      · rcases hv.node?_cases (l := p.destination h.directory) id with hsame | ⟨hmissing, -⟩
        · rw [← hsame, hnone]
        · exact hmissing
      · rw [node?_of_passes (hv.keepsDirectories _ hcwd) habove hpasses] at hnone
        cases hnone

namespace LacksEnd

variable {gs : FileSystem} {cwd : Location} {s : String}

theorem endsInMissingDot (hp : LacksEnd fs cwd p q s) : p.EndsInMissingDot fs cwd :=
  ⟨hp.dot, hp.missing⟩

theorem checkLast_eq (hp : LacksEnd fs cwd p q s)
    (hdir : gs.node? (p.destination cwd) = some .directory) :
    gs.checkLast (q.destination cwd) (.name s) = .ok () := by
  rw [hp.destination_eq] at hdir
  change gs.node? (q.destination cwd ++ [s]) = _ at hdir
  rw [checkLast, if_neg hp.short, hdir]

theorem of_runsAmong (hp : LacksEnd w.files h.directory p q s)
    (hcwd : w.files.node? h.directory = some .directory) (hF : ∀ l, p.Passes h.directory l → ¬ F l)
    (hrun : (createDirectories p p.parents).RunsAmong h (.changesOnly D F) w r w') :
    r = .error .notFound ∨
      r = .ok () ∧ D (p.destination h.directory) ∧ w'.files.HasDirectory h.directory p := by
  obtain ⟨v, hv, hv', habove, rfl⟩ :=
    hrun.createDirectories_of_above hp.toEndsInDot hcwd hp.way hF
  rcases hv (p.destination h.directory) with hsame | ⟨hD, -, hdir⟩ | ⟨hF', -⟩
  · left
    rw [hp.missing, hp.destination_eq] at hsame
    exact checkLast_eq_notFound_iff.2 ⟨s, rfl, hp.short, hsame⟩
  · have hlast := hp.checkLast_eq hdir
    refine Or.inr ⟨hlast, hD.resolve_right hp.apart, ?_⟩
    refine HasDirectory.mono (Or.inr ?_) hv'.keepsDirectories
    exact (status_eq_directory_iff_checkLast hp.toEndsInDot habove).2 hlast
  · exact absurd hF' (hF _ (Path.passes_destination h.directory p))

theorem run_of_node? (hp : LacksEnd fs h.directory p q s)
    (hcwd : fs.node? h.directory = some .directory) (hF : ∀ l, p.Passes h.directory l → ¬ F l)
    (hfs : ChangesOnly D F fs w.files)
    (hdir : w.files.node? (p.destination h.directory) = some .directory) :
    ((createDirectories p p.parents).run h w).1 = .ok () := by
  have hway := (agrees_checkDirectory hfs fun l hl => hF l (hp.passes hl)).eq_ok_iff.1 hp.way
  obtain ⟨v, hv, -, -, hlast⟩ := (RunsAmong.run (h := h)
    (E := .changesOnly (fun _ => False) fun _ => False) (createDirectories p p.parents)
    w).createDirectories_of_above hp.toEndsInDot (hfs.keepsDirectories _ hcwd) hway fun _ _ => id
  rw [hlast, hp.checkLast_eq (hv.keepsDirectories _ hdir)]

theorem exists_gains (hp : LacksEnd w.files h.directory p q s)
    (hcwd : w.files.node? h.directory = some .directory) :
    ∃ fs, Gains (p.Passes h.directory) w.files fs ∧ fs.HasDirectory h.directory p := by
  have hfst : ((createDirectories q q.parents).run h w).1 = .ok () :=
    (run_createDirectories_fst hcwd hp.parent.endsInStep.orSlash rfl).trans hp.way
  have habove := hasDirectory_of_run_createDirectories hcwd (run_eq_of_fst hfst)
  have hchanges := (callsOnly_touches_createDirectories q).changesOnly_run (h := h) w
  generalize ((createDirectories q q.parents).run h w).2 = v at habove hchanges
  have hgains := Gains.of_changesOnly hchanges fun l =>
    node?_of_passes (hchanges.keepsDirectories _ hcwd) habove
  have hnone : v.files.node? (p.destination h.directory) = none := by
    rw [hgains.unchanged _ hp.apart, hp.missing]
  have hroom : v.files.hasRoomAt (p.destination h.directory) = true := by
    have hdir : v.files.node? (p.destination h.directory).dropLast = some .directory := by
      rw [hp.destination_eq, Component.next, List.dropLast_concat]
      exact hgains.directory _ (Path.passes_destination h.directory q)
    simp [hasRoomAt, hdir, hnone]
  have hnew (l : Location) : (v.files.put (p.destination h.directory) .directory).node? l = _ :=
    node?_put hroom
  refine ⟨v.files.put (p.destination h.directory) .directory, ⟨fun l hl => ?_, fun l hl => ?_⟩,
    Or.inr ?_⟩
  · rw [hnew]
    rcases Path.passes_cases hp.parent hl with hl | rfl
    · rw [hgains.directory l hl, ite_self]
    · rw [if_pos rfl]
  · rw [hnew, if_neg, hgains.unchanged l fun hq => hl (hp.passes hq)]
    rintro rfl
    exact hl (Path.passes_destination h.directory p)
  · have habove := habove.mono (keepsDirectories_put v.files (p.destination h.directory) .directory)
    rw [status_eq_directory_iff_checkLast hp.toEndsInDot habove]
    exact hp.checkLast_eq ((hnew _).trans (if_pos rfl))

end LacksEnd

end Procedure

end CompileDriver
