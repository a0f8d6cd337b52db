import CompileDriver.Proofs.FileSystem.Making
import CompileDriver.Proofs.Host.Interference

/-! # Making directories among others

While a procedure makes a directory with those above it, others may make directories anywhere and
write files away from the places that the path passes. The procedure reports what it reports alone,
except that behind a step back it may meet a file in the way earlier.
-/

namespace CompileDriver

open FileSystem

/-- Others make directories only at places in `D` and write files only at places in `F`. -/
def Interference.changesOnly (D F : Location → Prop) : Interference where
  changes w w' := ChangesOnly D F w.files w'.files
  refl w := ChangesOnly.refl w.files
  trans := ChangesOnly.trans

/-- A file in the way of the directory `p`, which is reported by the error `e`, may be met earlier
and be reported by `e'` if the path leads back. -/
def MetEarlier (p : Path) (e e' : IoError) : Prop :=
  e' = e ∨ (e = .alreadyExists ∧ e' = .notADirectory ∧ Component.parent ∈ p.steps)

namespace MetEarlier

variable {p q : Path} {e e' e'' : IoError}

theorem refl (e : IoError) : MetEarlier p e e := Or.inl rfl

theorem trans (h : MetEarlier p e e') (h' : MetEarlier p e' e'') : MetEarlier p e e'' := by
  rcases h' with rfl | ⟨rfl, rfl, hparent⟩
  · exact h
  · rcases h with h | ⟨-, ⟨⟩, -⟩
    exact Or.inr ⟨h.symm, rfl, hparent⟩

theorem mono (h : MetEarlier q e e') (hq : q.steps <+: p.steps) : MetEarlier p e e' :=
  h.imp_right fun ⟨he, he', hparent⟩ => ⟨he, he', hq.subset hparent⟩

end MetEarlier

namespace FileSystem

variable {fs gs : FileSystem} {cwd : Location} {p : Path} {D F : Location → Prop}

theorem agrees_checkDirectory (h : ChangesOnly D F fs gs) (hF : ∀ l, p.Passes cwd l → ¬ F l) :
    AgreesUpTo (MetEarlier p) (fs.checkDirectory cwd p) (gs.checkDirectory cwd p) := by
  rcases checkDirectory_of_changesOnly h hF with heq | ⟨hgs, hfs, hparent⟩
  · rw [heq]
    exact .refl .refl _
  · rw [hgs, hfs]
    exact .error (Or.inr ⟨rfl, rfl, hparent⟩)

theorem agrees_of_changesOnly {r : Except IoError Unit} (h : ChangesOnly D F fs gs)
    (hF : ∀ l, p.Passes cwd l → ¬ F l)
    (hr : AgreesUpTo (MetEarlier p) (gs.checkDirectory cwd p) r) :
    AgreesUpTo (MetEarlier p) (fs.checkDirectory cwd p) r :=
  (agrees_checkDirectory h hF).trans (fun _ _ _ => MetEarlier.trans) hr

theorem checkDirectory_of_makeDirectory (hcwd : fs.node? cwd = some .directory)
    (hm : fs.makeDirectory cwd p = .ok gs) : fs.checkDirectory cwd p = .ok () := by
  obtain ⟨hnone, hgs⟩ := makeDirectory_eq_ok hm
  have hadds : fs.AddsDirectories gs := hgs ▸ ChangesOnly.put_directory hnone trivial
  have hmade : gs.checkDirectory cwd p = .ok () :=
    checkDirectory_of_hasDirectory (Or.inr (status_of_makeDirectory hcwd hm))
  exact (agrees_checkDirectory hadds fun _ _ => id).eq_ok_iff.2 hmade

theorem makeDirectory_error_cases {e : IoError} (hp : p.EndsInStepOrSlash) (hne : p.text ≠ "")
    (hm : fs.makeDirectory cwd p = .error e) :
    (e = .notFound ∧ checkPath p = .ok () ∧
      fs.follow (.directory (startOf cwd p)) (p.steps.map Component.text) = .error .notFound) ∨
    (e ≠ .notFound ∧
      (fs.checkDirectory cwd p = .error e ∨ fs.status cwd p = .ok .directory)) := by
  cases hcheck : checkPath p with
  | error e' =>
    have he : Except.error e' = (.error e : Except IoError FileSystem) := by
      rw [← hm, makeDirectory, hcheck]
      rfl
    cases he
    refine Or.inr ⟨?_, Or.inl (checkDirectory_of_checkPath_error hne hcheck)⟩
    rintro rfl
    exact checkPath_ne_notFound hne hcheck
  | ok _ =>
    rw [makeDirectory_eq_follow hp hcheck] at hm
    have hs : fs.status cwd p = .ok .directory ↔ _ := status_eq_directory_iff_follow hcheck
    by_cases hmissing : fs.follow (.directory (startOf cwd p)) (p.steps.map Component.text) =
        .error .notFound
    · rw [hmissing] at hm
      cases hm
      exact Or.inl ⟨rfl, rfl, hmissing⟩
    · have hway : fs.checkDirectory cwd p = _ := (checkDirectory_eq_checkWay (Or.inr hcheck)).trans
        (checkWay_eq_of_follow (fun _ => Path.isStep_of_mem_steps) hmissing)
      right
      cases ht : fs.follow (.directory (startOf cwd p)) (p.steps.map Component.text) with
      | error e' =>
        rw [ht] at hm hway hmissing
        cases hm
        exact ⟨fun he => hmissing (congrArg _ he), Or.inl hway⟩
      | ok t =>
        rw [ht] at hm hs hway
        cases t with
        | directory l =>
          cases hm
          exact ⟨by decide, Or.inr (hs.2 ⟨l, rfl⟩)⟩
        | file l f =>
          cases hm
          exact ⟨by decide, Or.inl hway⟩
        | free l name => cases hm

end FileSystem

namespace Procedure

variable {h : Host} {E : Interference} {w w' : World} {p q : Path} {above : List Path}
  {m : Procedure (Except IoError Unit)} {r : Except IoError Unit} {e : IoError}
  {D F : Location → Prop}

/-! ## What is reported -/

theorem RunsAmong.isDirectory_cases {found : Bool}
    (hrun : (isDirectory p).RunsAmong h E w found w') :
    ∃ v, E.changes w v ∧ E.changes v w' ∧
      (found = true ↔ v.files.status h.directory p = .ok .directory) := by
  obtain ⟨v, hv, hfound, hv'⟩ := hrun
  refine ⟨v, hv, hv', ?_⟩
  rw [hfound, Host.answer]
  rcases v.files.status h.directory p with e | t
  · simp
  · cases t <;> simp

theorem RunsAmong.acceptDirectory_cases (hrun : (acceptDirectory p e).RunsAmong h E w r w') :
    ∃ v, E.changes w v ∧ E.changes v w' ∧
      ((v.files.status h.directory p = .ok .directory ∧ r = .ok ()) ∨
        (v.files.status h.directory p ≠ .ok .directory ∧ r = .error e)) := by
  obtain ⟨found, u, hfound, hr, hu⟩ := hrun.exists_of_bind
  obtain ⟨v, hv, hv', hs⟩ := hfound.isDirectory_cases
  refine ⟨v, hv, E.trans hv' hu, ?_⟩
  cases found with
  | true => exact Or.inl ⟨hs.1 rfl, hr⟩
  | false => exact Or.inr ⟨fun hdir => Bool.false_ne_true (hs.2 hdir), hr⟩

theorem RunsAmong.makeDirectoryOr_cases (hrun : (makeDirectoryOr p m).RunsAmong h E w r w') :
    ∃ v, E.changes w v ∧
      ((∃ fs, v.files.makeDirectory h.directory p = .ok fs ∧ r = .ok () ∧
          E.changes { v with files := fs } w') ∨
        (v.files.makeDirectory h.directory p = .error .notFound ∧ m.RunsAmong h E v r w') ∨
        ∃ e, v.files.makeDirectory h.directory p = .error e ∧ e ≠ .notFound ∧
          (acceptDirectory p e).RunsAmong h E v r w') := by
  obtain ⟨v, hv, hrun⟩ := hrun
  refine ⟨v, hv, ?_⟩
  rw [Host.answer] at hrun
  cases hm : v.files.makeDirectory h.directory p with
  | ok fs =>
    rw [hm] at hrun
    exact Or.inl ⟨fs, rfl, hrun⟩
  | error e =>
    rw [hm] at hrun
    by_cases he : e = .notFound
    · subst he
      exact Or.inr (Or.inl ⟨rfl, hrun⟩)
    · refine Or.inr (Or.inr ⟨e, rfl, he, ?_⟩)
      cases e <;> first | exact absurd rfl he | exact hrun

/-- A directory is made, or what is in the way is reported, as it is found at some time, unless
something on the way is missing then. -/
theorem RunsAmong.makeDirectoryOr_outcome (hcwd : w.files.node? h.directory = some .directory)
    (hp : p.EndsInStepOrSlash) (hne : p.text ≠ "") (hF : ∀ l, p.Passes h.directory l → ¬ F l)
    (hrun : (makeDirectoryOr p m).RunsAmong h (.changesOnly D F) w r w') :
    ∃ v, ChangesOnly D F w.files v.files ∧
      ((checkPath p = .ok () ∧
        v.files.follow (.directory (startOf h.directory p)) (p.steps.map Component.text) =
          .error .notFound ∧ m.RunsAmong h (.changesOnly D F) v r w') ∨
      (r = v.files.checkDirectory h.directory p ∧
        (r = .ok () → w'.files.HasDirectory h.directory p))) := by
  obtain ⟨v, hv, hcases⟩ := hrun.makeDirectoryOr_cases
  have hv : ChangesOnly D F w.files v.files := hv
  refine ⟨v, hv, ?_⟩
  rcases hcases with ⟨fs, hm, rfl, hrest⟩ | ⟨hm, hrest⟩ | ⟨e, hm, he, haccept⟩
  · have hrest : ChangesOnly D F fs w'.files := hrest
    have hcwd' := hv.keepsDirectories _ hcwd
    refine Or.inr ⟨(checkDirectory_of_makeDirectory hcwd' hm).symm, fun _ => Or.inr ?_⟩
    exact status_of_keepsDirectories hrest.keepsDirectories (status_of_makeDirectory hcwd' hm)
  · rcases makeDirectory_error_cases hp hne hm with ⟨-, hcheck, hmissing⟩ | ⟨he, -⟩
    · exact Or.inl ⟨hcheck, hmissing, hrest⟩
    · exact absurd rfl he
  · right
    obtain ⟨u, hu, hu', hstatus⟩ := haccept.acceptDirectory_cases
    have hu : ChangesOnly D F v.files u.files := hu
    have hu' : ChangesOnly D F u.files w'.files := hu'
    rcases hstatus with ⟨hs, rfl⟩ | ⟨hs, rfl⟩
    · have hfound := checkDirectory_of_hasDirectory (Or.inr hs)
      refine ⟨((agrees_checkDirectory hu hF).eq_ok_iff.2 hfound).symm, fun _ => Or.inr ?_⟩
      exact status_of_keepsDirectories hu'.keepsDirectories hs
    · refine ⟨?_, nofun⟩
      rcases makeDirectory_error_cases hp hne hm with ⟨hnot, -⟩ | ⟨-, hway | hdir⟩
      · exact absurd hnot he
      · exact hway.symm
      · exact absurd (status_of_keepsDirectories hu.keepsDirectories hdir) hs

theorem RunsAmong.changesOnly {α : Type} {m : Procedure α} {a : α}
    (hm : m.CallsOnly Call.IsDirectory) (hrun : m.RunsAmong h (.changesOnly D F) w a w') :
    ChangesOnly (fun _ => True) F w.files w'.files :=
  hrun.rel (R := .changesOnly (fun _ => True) F) hm
    (fun _ hc v => changesOnly_answer hc.touches v)
    (fun _ _ => (ChangesOnly.mono · (fun _ _ => trivial) fun _ => id))

theorem RunsAmong.createDirectories_of_missing (hcwd : w.files.node? h.directory = some .directory)
    (hp : p.EndsInStepOrSlash) (hq : q.IsParentOf p) (hcheck : checkPath p = .ok ())
    (hmissing : w.files.follow (.directory (startOf h.directory p)) (p.steps.map Component.text) =
      .error .notFound)
    (hF : ∀ l, p.Passes h.directory l → ¬ F l)
    (hrun : ((createDirectories q above).andThen fun _ =>
      makeDirectoryOr p (acceptDirectory p .notFound)).RunsAmong h (.changesOnly D F) w r w')
    (habove : ∀ x v, (createDirectories q above).RunsAmong h (.changesOnly D F) w x v →
      AgreesUpTo (MetEarlier q) (w.files.checkDirectory h.directory q) x ∧
        (x = .ok () → v.files.HasDirectory h.directory q)) :
    AgreesUpTo (MetEarlier p) (w.files.checkDirectory h.directory p) r ∧
      (r = .ok () → w'.files.HasDirectory h.directory p) := by
  have hempty := text_ne_empty_of_checkPath hcheck
  obtain ⟨c, hsteps⟩ := exists_step_of_missing hq hmissing
  obtain ⟨x, v, hx, hrest⟩ := hrun.exists_of_bind
  obtain ⟨hagrees, hdir⟩ := habove x v hx
  cases x with
  | error e =>
    obtain ⟨rfl, -⟩ := hrest
    refine ⟨?_, nofun⟩
    rw [checkDirectory_of_missing hq hsteps hcheck hmissing]
    generalize w.files.checkDirectory h.directory q = way at hagrees
    cases hagrees with
    | error he => exact .error (he.mono hq.steps_prefix)
  | ok _ =>
    -- now the directory above exists, so nothing on the way is missing any more
    have hadds := hx.changesOnly (callsOnly_createDirectories q above)
    obtain ⟨u, hu, ⟨-, hmissing', -⟩ | ⟨rfl, hmade⟩⟩ :=
      hrest.makeDirectoryOr_outcome (hadds.keepsDirectories _ hcwd) hp hempty hF
    · have hfollow := follow_of_hasDirectory ((hdir rfl).mono hu.keepsDirectories)
      have hisStep : ∀ d ∈ q.steps ++ [c], d.IsStep := fun d hd =>
        Path.isStep_of_mem_steps (hsteps ▸ hd)
      obtain ⟨hfound, -⟩ := checkWay_of_follow_directory hisStep hfollow
      rw [startOf_of_isParentOf hq, ← hsteps] at hfound
      exact absurd hmissing' hfound
    · have hu := hadds.trans (hu.mono (fun _ _ => trivial) fun _ => id)
      exact ⟨agrees_checkDirectory hu hF, hmade⟩

/-- Making a directory with those above it reports what is in the way, if anything is. -/
theorem RunsAmong.createDirectories_outcome (hcwd : w.files.node? h.directory = some .directory)
    (hp : p.EndsInStepOrSlash) (habove : p.parents = above)
    (hF : ∀ l, p.Passes h.directory l → ¬ F l)
    (hrun : (createDirectories p above).RunsAmong h (.changesOnly D F) w r w') :
    AgreesUpTo (MetEarlier p) (w.files.checkDirectory h.directory p) r ∧
      (r = .ok () → w'.files.HasDirectory h.directory p) := by
  induction above generalizing p w r w' with
  | nil =>
    rw [createDirectories] at hrun
    split at hrun
    · next hempty =>
      obtain ⟨rfl, -⟩ := hrun
      rw [checkDirectory, if_pos hempty]
      exact ⟨.ok (), fun _ => Or.inl hempty⟩
    · next hne =>
      obtain ⟨v, hv, ⟨-, hmissing, -⟩ | ⟨rfl, hmade⟩⟩ :=
        hrun.makeDirectoryOr_outcome hcwd hp hne hF
      · rw [Path.steps_eq_nil_of_parents_eq_nil habove] at hmissing
        cases hmissing
      · exact ⟨agrees_checkDirectory hv hF, hmade⟩
  | cons q above ih =>
    rw [createDirectories] at hrun
    split at hrun
    · next hempty =>
      obtain ⟨rfl, -⟩ := hrun
      rw [checkDirectory, if_pos hempty]
      exact ⟨.ok (), fun _ => Or.inl hempty⟩
    · next hne =>
      obtain ⟨v, hv, ⟨hcheck, hmissing, hrest⟩ | ⟨rfl, hmade⟩⟩ :=
        hrun.makeDirectoryOr_outcome hcwd hp hne hF
      · have hq := Path.isParentOf_of_parents_eq habove
        have hcwd' := hv.keepsDirectories _ hcwd
        obtain ⟨hagrees, hmade⟩ := hrest.createDirectories_of_missing hcwd' hp hq hcheck hmissing hF
          fun x u hx => ih hcwd' hq.endsInStep.orSlash (Path.parents_of_parents_eq habove)
            (fun l hl => hF l (Path.passes_of_isParentOf hq hl)) hx
        exact ⟨agrees_of_changesOnly hv hF hagrees, hmade⟩
      · exact ⟨agrees_checkDirectory hv hF, hmade⟩

theorem RunsAmong.ensureDirectory_outcome (hcwd : w.files.node? h.directory = some .directory)
    (hp : p.EndsInStepOrSlash) (hF : ∀ l, p.Passes h.directory l → ¬ F l)
    (hrun : (ensureDirectory p).RunsAmong h (.changesOnly D F) w r w') :
    AgreesUpTo (MetEarlier p) (w.files.checkDirectory h.directory p) r ∧
      (r = .ok () → w'.files.HasDirectory h.directory p) := by
  obtain ⟨found, u, hfound, hrest⟩ := hrun.exists_of_bind
  obtain ⟨v, hv, hu, hs⟩ := hfound.isDirectory_cases
  have hv : ChangesOnly D F w.files v.files := hv
  have hu : ChangesOnly D F v.files u.files := hu
  cases found with
  | true =>
    obtain ⟨rfl, hw'⟩ := hrest
    have hw' : ChangesOnly D F u.files w'.files := hw'
    have hdir : v.files.HasDirectory h.directory p := Or.inr (hs.1 rfl)
    have hagrees : AgreesUpTo (MetEarlier p) (w.files.checkDirectory h.directory p)
        (v.files.checkDirectory h.directory p) := agrees_checkDirectory hv hF
    rw [checkDirectory_of_hasDirectory hdir] at hagrees
    exact ⟨hagrees, fun _ => hdir.mono (hu.trans hw').keepsDirectories⟩
  | false =>
    obtain ⟨hagrees, hmade⟩ := RunsAmong.createDirectories_outcome
      ((hv.trans hu).keepsDirectories _ hcwd) hp rfl hF hrest
    exact ⟨agrees_of_changesOnly (hv.trans hu) hF hagrees, hmade⟩

end Procedure

/-! ## Making directories alone and among others

Others that spare the way to a directory do not keep a procedure from making it, and neither do they
make up for what the procedure cannot make alone.
-/

namespace Procedure

variable {h : Host} {fs : FileSystem} {w w' : World} {p q : Path} {above : List Path}
  {m : Procedure (Except IoError Unit)} {r : Except IoError Unit} {D F : Location → Prop}

/-- The directories of `fs` are still there, and between the worlds only what others may change is
changed. -/
structure DiffersBy (fs : FileSystem) (D F : Location → Prop) (u v : World) : Prop where
  kept : fs.KeepsDirectories u.files
  changes : ChangesOnly D F u.files v.files

theorem DiffersBy.refl (w : World) : DiffersBy w.files D F w w :=
  ⟨fun _ => id, ChangesOnly.refl w.files⟩

theorem DiffersBy.after {u v v' : World} (huv : DiffersBy fs D F u v)
    (hv : (Interference.changesOnly D F).changes v v') : DiffersBy fs D F u v' :=
  ⟨huv.kept, huv.changes.trans hv⟩

/-- Where a directory has been made, alone and among others, the others make the difference. -/
theorem DiffersBy.of_made {u v v' : World} {r : Except IoError Unit}
    (hcwd : fs.node? h.directory = some .directory) (huv : DiffersBy fs D F u v)
    (hm : m.CallsOnly (Call.Touches h.directory (p.Passes h.directory) fun _ => False))
    (hrun : m.RunsAmong h (.changesOnly D F) v r v')
    (halone : (m.run h u).2.files.HasDirectory h.directory p)
    (hmade : v'.files.HasDirectory h.directory p) : DiffersBy fs D F (m.run h u).2 v' := by
  obtain ⟨hkept, huv⟩ := huv
  have hchanges := hm.changesOnly_run u
  have hkept' := hchanges.keepsDirectories
  have hgains := Gains.of_changesOnly hchanges fun l =>
    node?_of_passes (hkept' _ (hkept _ hcwd)) halone
  have hdiffers : ChangesOnly (fun l => D l ∨ p.Passes h.directory l) F u.files v'.files :=
    (huv.mono (fun _ => Or.inl) fun _ => id).trans <|
      hrun.rel (R := .changesOnly (fun l => D l ∨ p.Passes h.directory l) F) hm
        (fun _ hc w => (changesOnly_answer hc w).mono (fun _ => Or.inr) fun _ => False.elim)
        fun _ _ hw => ChangesOnly.mono hw (fun _ => Or.inl) fun _ => id
  exact ⟨fun l hl => hkept' l (hkept l hl), hgains.changesOnly hdiffers fun l =>
    node?_of_passes (hdiffers.keepsDirectories _ (hkept _ hcwd)) hmade⟩

/-- A procedure that reports what is in the way of a directory, alone and among others, and makes
the directory if nothing is. -/
theorem withstands_of_outcome (hcwd : fs.node? h.directory = some .directory)
    (hF : ∀ l, p.Passes h.directory l → ¬ F l)
    (hm : m.CallsOnly (Call.Touches h.directory (p.Passes h.directory) fun _ => False))
    (hfst : ∀ u, fs.KeepsDirectories u.files →
      (m.run h u).1 = u.files.checkDirectory h.directory p)
    (houtcome : ∀ v r v', fs.KeepsDirectories v.files → m.RunsAmong h (.changesOnly D F) v r v' →
      AgreesUpTo (MetEarlier p) (v.files.checkDirectory h.directory p) r ∧
        (r = .ok () → v'.files.HasDirectory h.directory p)) :
    m.Withstands h (.changesOnly D F) (MetEarlier p) (DiffersBy fs D F)
      fun u v => DiffersBy fs D F u v ∧ u.files.HasDirectory h.directory p := by
  intro u v r v' huv hrun
  have hkept := huv.kept
  obtain ⟨hagrees, hmade⟩ := houtcome v r v'
    (fun l hl => huv.changes.keepsDirectories l (hkept l hl)) hrun
  have hagrees := agrees_of_changesOnly huv.changes hF hagrees
  rw [← hfst u hkept] at hagrees
  refine ⟨hagrees, ?_⟩
  rintro ⟨⟩ rfl
  -- alone, too, the directory has been made
  have halone : (m.run h u).2.files.HasDirectory h.directory p :=
    (houtcome u _ _ hkept (.run m u)).2 (hagrees.eq_ok_iff.2 rfl)
  exact ⟨.of_made hcwd huv hm hrun halone (hmade rfl), halone⟩

theorem withstands_ensureDirectory (hcwd : fs.node? h.directory = some .directory)
    (hp : p.EndsInStepOrSlash) (hF : ∀ l, p.Passes h.directory l → ¬ F l) :
    (ensureDirectory p).Withstands h (.changesOnly D F) (MetEarlier p) (DiffersBy fs D F)
      fun u v => DiffersBy fs D F u v ∧ u.files.HasDirectory h.directory p :=
  withstands_of_outcome hcwd hF (callsOnly_touches_ensureDirectory p)
    (fun _ hkept => run_ensureDirectory_fst (hkept _ hcwd) hp)
    fun _ _ _ hkept hrun => hrun.ensureDirectory_outcome (hkept _ hcwd) hp hF

theorem withstands_createDirectories_of_endsInStep (hcwd : fs.node? h.directory = some .directory)
    (hp : p.EndsInStepOrSlash) (hF : ∀ l, p.Passes h.directory l → ¬ F l) :
    (createDirectories p p.parents).Withstands h (.changesOnly D F) (MetEarlier p)
      (DiffersBy fs D F) fun u v => DiffersBy fs D F u v ∧ u.files.HasDirectory h.directory p :=
  withstands_of_outcome hcwd hF (callsOnly_touches_createDirectories p)
    (fun _ hkept => run_createDirectories_fst (hkept _ hcwd) hp rfl)
    fun _ _ _ hkept hrun => hrun.createDirectories_outcome (hkept _ hcwd) hp rfl hF

end Procedure

end CompileDriver
