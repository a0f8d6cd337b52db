import CompileDriver.Proofs.FileSystem.LastDot
import CompileDriver.Proofs.Path.Under
import CompileDriver.Proofs.Text.Cutting
import Mathlib.Data.List.Forall2

/-! # Directories made at the same time

Any number of procedures may make directories at the same time, the same ones or ones that overlap.
Where no file is on the way to any of them, all of them succeed under every schedule, and what there
is at the end is what there was, with the directories that were missing. The system refuses paths
that are too long, and what a path ends in that is spelled with a last dot need not be made.
-/

namespace CompileDriver

open FileSystem

/-- A directory can hold the component, if it is a name. -/
def Component.IsValid (c : Component) : Prop :=
  '\x00' ∉ c.text.toList ∧ c.text.utf8ByteSize ≤ longestName

instance : DecidablePred Component.IsValid := fun _ => inferInstanceAs (Decidable (_ ∧ _))

namespace Path

variable {fs : FileSystem} {cwd l : Location} {p q : Path}

/-- A request can carry the path, and directories can hold its components. -/
structure IsUsable (p : Path) : Prop where
  short : p.text.utf8ByteSize ≤ longestPath
  valid : ∀ c ∈ p.components, c.IsValid

instance : DecidablePred IsUsable := fun p =>
  decidable_of_iff (p.text.utf8ByteSize ≤ longestPath ∧ ∀ c ∈ p.components, c.IsValid)
    ⟨fun ⟨hshort, hvalid⟩ => ⟨hshort, hvalid⟩, fun hp => ⟨hp.short, hp.valid⟩⟩

def AnyPasses (cwd : Location) (ps : List Path) (l : Location) : Prop := ∃ p ∈ ps, p.Passes cwd l

instance (cwd : Location) (ps : List Path) : DecidablePred (AnyPasses cwd ps) :=
  fun _ => inferInstanceAs (Decidable (∃ _ ∈ _, _))

theorem isValid_of_mem_steps (hvalid : ∀ c ∈ p.components, c.IsValid) {c : Component}
    (hc : c ∈ p.steps) : c.IsValid := by
  refine hvalid c ?_
  rw [components_eq]
  exact List.mem_append_right _ hc

theorem nul_not_mem_text (hvalid : ∀ c ∈ p.components, c.IsValid) : '\x00' ∉ p.text.toList := by
  intro hmem
  obtain ⟨t, ht, hnul⟩ := (Text.exists_mem_pieces_iff (show '\x00' ≠ '/' by decide)).2 hmem
  rw [← String.toList_ofList (l := t)] at hnul
  cases hc : Component.ofPiece? (String.ofList t) with
  | none =>
    have htrivial : isTrivial (String.ofList t) = true := by rw [isTrivial, hc, Option.isNone_none]
    rcases isTrivial_iff.1 htrivial with hempty | hdot
    · rw [hempty] at hnul
      exact absurd hnul (by decide)
    · rw [hdot] at hnul
      exact absurd hnul (by decide)
  | some c =>
    have hstep : c ∈ p.steps := List.mem_filterMap.2 ⟨_, List.mem_map.2 ⟨t, ht, rfl⟩, hc⟩
    rw [← Component.text_of_ofPiece? hc] at hnul
    exact (isValid_of_mem_steps hvalid hstep).1 hnul

theorem checkPath_of_isValid (hvalid : ∀ c ∈ p.components, c.IsValid) (hne : p.text ≠ "") :
    checkPath p =
      if longestPath < p.text.utf8ByteSize then .error .nameTooLong else .ok () := by
  rw [checkPath, if_neg (by simpa using nul_not_mem_text hvalid), if_neg hne]

theorem IsUsable.checkPath (hp : p.IsUsable) (hne : p.text ≠ "") : checkPath p = .ok () := by
  rw [checkPath_of_isValid hp.valid hne, if_neg (Nat.not_lt.2 hp.short)]

end Path

namespace FileSystem

variable {fs gs : FileSystem} {cwd l : Location} {p q : Path} {cs ds : List Component} {b : Bool}
  {D : Location → Prop}

/-! ## Nothing in the way -/

theorem checkWay_eq_ok (hnames : ∀ c ∈ cs, c.text.utf8ByteSize ≤ longestName)
    (hfiles : ∀ ds, ds <+: cs → ∀ f, fs.node? (ds.foldl Component.next l) ≠ some (.file f)) :
    fs.checkWay b l cs = .ok () := by
  induction cs generalizing l b with
  | nil => rfl
  | cons c cs ih =>
    obtain ⟨hname, hlater⟩ := List.forall_mem_cons.1 hnames
    have hrest : ∀ ds, ds <+: cs →
        ∀ f, fs.node? (ds.foldl Component.next (c.next l)) ≠ some (.file f) :=
      fun ds hds => hfiles (c :: ds) (List.cons_prefix_cons.2 ⟨rfl, hds⟩)
    cases c with
    | root | here | parent => exact ih hlater hrest
    | name s =>
      have hshort : ¬ longestName < s.utf8ByteSize := Nat.not_lt.2 hname
      rw [checkWay_name, if_neg hshort]
      cases hn : fs.node? (l ++ [s]) with
      | none => exact ih hlater hrest
      | some n =>
        cases n with
        | directory => exact ih hlater hrest
        | file f => exact absurd hn (hrest [] List.nil_prefix f)

theorem checkDirectory_eq_ok (hp : p.IsUsable)
    (hfiles : ∀ l, p.Passes cwd l → ∀ f, fs.node? l ≠ some (.file f)) :
    fs.checkDirectory cwd p = .ok () := by
  rw [checkDirectory_eq_checkWay (Classical.or_iff_not_imp_left.2 hp.checkPath)]
  exact checkWay_eq_ok (fun c hc => (Path.isValid_of_mem_steps hp.valid hc).2)
    fun ds hds => hfiles _ ⟨ds, hds, rfl⟩

theorem ChangesOnly.gains (h : ChangesOnly D (fun _ => False) fs gs) :
    Gains (fun l => D l ∧ gs.node? l = some .directory) fs gs where
  directory _ hl := hl.2
  unchanged l hl := by
    rcases h l with hsame | ⟨hD, -, hdir⟩ | ⟨hfalse, -⟩
    · exact hsame
    · exact absurd ⟨hD, hdir⟩ hl
    · exact hfalse.elim

end FileSystem

namespace Procedure

variable {h : Host} {limit : ℕ} {w w' : World} {p q : Path} {ps : List Path}
  {r : Except IoError Unit} {D F : Location → Prop}

/-! ## One directory among others -/

/-- Where nothing is in the way, a directory that is spelled with a last dot is found, or at least
the one above it is made. -/
theorem RunsAmong.createDirectories_cases (hcwd : w.files.node? h.directory = some .directory)
    (hp : ¬ p.EndsInStepOrSlash) (hway : w.files.checkDirectory h.directory p = .ok ())
    (hF : ∀ l, p.Passes h.directory l → ¬ F l)
    (hrun : (createDirectories p p.parents).RunsAmong h (.changesOnly D F) w r w') :
    (r = .ok () ∧ w'.files.HasDirectory h.directory p) ∨
      (w.files.node? (p.destination h.directory) ≠ some .directory ∧
        ∃ q, q.IsParentOf p ∧ w'.files.HasDirectory h.directory q) := by
  have hcheck := checkPath_of_checkDirectory (Path.text_ne_empty_of_not_endsInStepOrSlash hp) hway
  obtain ⟨q, c, hp⟩ := Path.exists_endsInDot hp hcheck
  obtain ⟨v, hv, hv', habove, rfl⟩ := hrun.createDirectories_of_above hp hcwd
    (checkDirectory_of_isParentOf hp.parent hcheck hway) hF
  by_cases hdir : w.files.node? (p.destination h.directory) = some .directory
  · have hway' := (agrees_checkDirectory hv hF).eq_ok_iff.1 hway
    have hlast := checkLast_of_checkDirectory hp habove hway' (hv.keepsDirectories _ hdir)
    refine Or.inl ⟨hlast, HasDirectory.mono (Or.inr ?_) hv'.keepsDirectories⟩
    exact (status_eq_directory_iff_checkLast hp habove).2 hlast
  · exact Or.inr ⟨hdir, q, hp.parent, habove.mono hv'.keepsDirectories⟩

theorem RunsAmong.ensureDirectory_cases (hcwd : w.files.node? h.directory = some .directory)
    (hway : w.files.checkDirectory h.directory p = .ok ())
    (hF : ∀ l, p.Passes h.directory l → ¬ F l)
    (hrun : (ensureDirectory p).RunsAmong h (.changesOnly D F) w r w') :
    (r = .ok () ∧ w'.files.HasDirectory h.directory p) ∨
      (¬ p.EndsInStepOrSlash ∧ w.files.node? (p.destination h.directory) ≠ some .directory ∧
        ∃ q, q.IsParentOf p ∧ w'.files.HasDirectory h.directory q) := by
  by_cases hp : p.EndsInStepOrSlash
  · obtain ⟨hagrees, hmade⟩ := hrun.ensureDirectory_outcome hcwd hp hF
    rw [hway] at hagrees
    have hr := hagrees.eq_ok_iff.1 rfl
    exact Or.inl ⟨hr, hmade hr⟩
  · obtain ⟨found, u, hfound, hrest⟩ := hrun.exists_of_bind
    obtain ⟨v, hv, hu, hs⟩ := hfound.isDirectory_cases
    have hv : ChangesOnly D F w.files v.files := hv
    have hu : ChangesOnly D F v.files u.files := hu
    cases found with
    | true =>
      obtain ⟨rfl, hw'⟩ := hrest
      have hw' : ChangesOnly D F u.files w'.files := hw'
      have hdir : v.files.HasDirectory h.directory p := Or.inr (hs.1 rfl)
      exact Or.inl ⟨rfl, hdir.mono (hu.trans hw').keepsDirectories⟩
    | false =>
      have hwu := hv.trans hu
      rcases RunsAmong.createDirectories_cases (hwu.keepsDirectories _ hcwd) hp
        ((agrees_checkDirectory hwu hF).eq_ok_iff.1 hway) hF hrest with hmade | ⟨hdir, habove⟩
      · exact Or.inl hmade
      · exact Or.inr ⟨hp, fun hnode => hdir (hwu.keepsDirectories _ hnode), habove⟩

/-- Where no file is on the way, the call succeeds and the places on the way become directories, but
for the end of a path that is spelled with a last dot. -/
theorem RunsAmong.ensureDirectory_makes (hcwd : w.files.node? h.directory = some .directory)
    (hp : p.IsUsable) (hfiles : ∀ l, p.Passes h.directory l → ∀ f, w.files.node? l ≠ some (.file f))
    (hF : ∀ l, p.Passes h.directory l → ¬ F l)
    (hrun : (ensureDirectory p).RunsAmong h (.changesOnly D F) w r w') :
    (¬ p.EndsInMissingDot w.files h.directory → r = .ok ()) ∧
      ∀ l, p.Passes h.directory l →
        ¬ (p.EndsInMissingDot w.files h.directory ∧ l = p.destination h.directory) →
          w'.files.node? l = some .directory := by
  have hway := checkDirectory_eq_ok hp hfiles
  have hcwd' := (hrun.changesOnly (callsOnly_ensureDirectory p)).keepsDirectories _ hcwd
  rcases hrun.ensureDirectory_cases hcwd hway hF with ⟨hr, hmade⟩ | ⟨hdot, hnode, q, hq, habove⟩
  · exact ⟨fun _ => hr, fun l hl _ => node?_of_passes hcwd' hmade hl⟩
  · have hmissing : p.EndsInMissingDot w.files h.directory := by
      refine ⟨hdot, ?_⟩
      cases hn : w.files.node? (p.destination h.directory) with
      | none => rfl
      | some n =>
        cases n with
        | directory => exact absurd hn hnode
        | file f => exact absurd hn (hfiles _ (Path.passes_destination h.directory p) f)
    refine ⟨fun hnot => absurd hmissing hnot, fun l hl hnot => ?_⟩
    rcases Path.passes_cases hq hl with hl | hl
    · exact node?_of_passes hcwd' habove hl
    · exact absurd ⟨hmissing, hl⟩ hnot

/-! ## Directories at the same time -/

theorem callsOnly_ensureDirectory_of_mem (hp : p ∈ ps) : (ensureDirectory p).CallsOnly
    (Call.Touches h.directory (Path.AnyPasses h.directory ps) fun _ => False) :=
  callsOnly_ensureDirectory_of fun _ hq =>
    ⟨trivial, Call.touches_makeDirectory (fun _ hl => ⟨p, hp, hl⟩) hq⟩

theorem changesOnly_of_reaches {pool : Pool (Except IoError Unit)}
    (hrun : Pool.Reaches h limit (.start w (ps.map ensureDirectory)) pool) :
    ChangesOnly (Path.AnyPasses h.directory ps) (fun _ => False) w.files pool.world.files :=
  hrun.rel (R := fun u v => ChangesOnly _ _ u.files v.files)
    (List.forall_mem_map.2 fun _ => callsOnly_ensureDirectory_of_mem)
    (fun u => ChangesOnly.refl u.files) (fun _ _ _ => ChangesOnly.trans)
    fun _ _ hc v => changesOnly_answer hc v

theorem runsAmong_of_reaches {pool : Pool (Except IoError Unit)} {rs : List (Except IoError Unit)}
    (hrun : Pool.Reaches h limit (.start w (ps.map ensureDirectory)) pool)
    (hfinal : pool.Finished rs) {i : ℕ} (hp : ps[i]? = some p) (hr : rs[i]? = some r) :
    (ensureDirectory p).RunsAmong h
      (.changesOnly (Path.AnyPasses h.directory ps) fun _ => False) w r pool.world := by
  refine hrun.runsAmong_start (fun _ hc v => changesOnly_answer hc v) hfinal ?_ hr fun m hm => ?_
  · rw [List.getElem?_map, hp, Option.map_some]
  · obtain ⟨q, hq, rfl⟩ := List.mem_map.1 (List.mem_of_mem_eraseIdx hm)
    exact callsOnly_ensureDirectory_of_mem hq

/-- However the steps of the procedures are ordered, all of them come to their end and succeed, and
exactly the directories are made that have been missing. Nothing is said about the directory that a
path ends in with a last dot, if it is missing at the start. -/
theorem ensureDirectory_interleaved (hlimit : 0 < limit)
    (hcwd : w.files.node? h.directory = some .directory) (hps : ∀ p ∈ ps, p.IsUsable)
    (hfiles : ∀ l, Path.AnyPasses h.directory ps l → ∀ f, w.files.node? l ≠ some (.file f)) :
    let start := Pool.start w (ps.map ensureDirectory)
    Acc (fun next pool => Pool.Step h limit pool next) start ∧
    ∀ pool, Pool.Reaches h limit start pool →
      ((∃ next, Pool.Step h limit pool next) ∨ ∃ rs, pool.Finished rs) ∧
      ∀ rs, pool.Finished rs →
        List.Forall₂ (fun p r => ¬ p.EndsInMissingDot w.files h.directory → r = .ok ()) ps rs ∧
        ∃ made, Gains made w.files pool.world.files ∧
          (∀ l, made l → Path.AnyPasses h.directory ps l) ∧
          ∀ p ∈ ps, ∀ l, p.Passes h.directory l →
            ¬ (p.EndsInMissingDot w.files h.directory ∧ l = p.destination h.directory) →
              made l := by
  intro start
  refine ⟨(Pool.wellFounded_step h limit).apply start, fun pool hrun =>
    ⟨Pool.exists_step_or_finished hlimit pool, fun rs hfinal => ?_⟩⟩
  have hlength : ps.length = rs.length := by
    have hworkers : pool.workers.length = start.workers.length := hrun.length_workers
    rw [hfinal, List.length_map] at hworkers
    simpa [start, Pool.start] using hworkers.symm
  have hmakes (i : ℕ) (hi : i < ps.length) (hi' : i < rs.length) :=
    (runsAmong_of_reaches hrun hfinal (List.getElem?_eq_getElem hi)
      (List.getElem?_eq_getElem hi')).ensureDirectory_makes hcwd (hps _ (List.getElem_mem hi))
      (fun l hl => hfiles l ⟨_, List.getElem_mem hi, hl⟩) fun _ _ => id
  refine ⟨List.forall₂_iff_get.2 ⟨hlength, fun i hi hi' => (hmakes i hi hi').1⟩, _,
    (changesOnly_of_reaches hrun).gains, fun l hl => hl.1, fun p hp l hl hnot => ?_⟩
  obtain ⟨i, hi, rfl⟩ := List.getElem_of_mem hp
  exact ⟨⟨_, hp, hl⟩, (hmakes i hi (hlength ▸ hi)).2 l hl hnot⟩

/-- Two procedures find that the directory that they share is missing, and a third one that another
has made the same directory. -/
theorem ensureDirectory_interleaved_overlapping :
    let h : Host := ⟨["r"], fun _ fs => (.error .notFound, fs)⟩
    let w : World := { files := FileSystem.empty.putDirectories ["r"] }
    let ps : List Path := [⟨"a/b"⟩, ⟨"a/./c/"⟩, ⟨"a/b"⟩]
    (∀ p ∈ ps, p.IsUsable ∧ ¬ p.EndsInMissingDot w.files h.directory) ∧
    ∃ pool, Pool.Reaches h 3 (.start w (ps.map ensureDirectory)) pool ∧
      pool.Finished [.ok (), .ok (), .ok ()] ∧
      (∀ l ∈ [["r", "a"], ["r", "a", "b"], ["r", "a", "c"]],
        pool.world.files.node? l = some .directory) ∧
      pool.world.files.node? ["r", "b"] = none := by
  intro h w ps
  have hps : ∀ p ∈ ps, p.IsUsable ∧ ¬ p.EndsInMissingDot w.files h.directory := by decide +kernel
  have hplaces : ∀ p ∈ ps, ∀ l ∈ p.steps.inits.map fun cs =>
      cs.foldl Component.next (startOf h.directory p),
      w.files.node? l = some .directory ∨ w.files.node? l = none := by decide +kernel
  have hfiles : ∀ l, Path.AnyPasses h.directory ps l → ∀ f, w.files.node? l ≠ some (.file f) := by
    rintro l ⟨p, hp, hl⟩ f hf
    have hnode := hplaces p hp l (Path.passes_iff.1 hl)
    simp [hf] at hnode
  obtain ⟨pool, hrun, hfinal⟩ : ∃ pool, Pool.Reaches h 3 (.start w (ps.map ensureDirectory)) pool ∧
      pool.Finished [.ok (), .ok (), .ok ()] :=
    Pool.exists_finished_of_follow
      ((List.replicate 10 [0, 1, 2]).flatten ++ [1, 2, 1, 2, 2, 2]) (by decide +kernel)
  obtain ⟨-, hends⟩ := (ensureDirectory_interleaved (by decide : 0 < 3) (by decide +kernel)
    (fun p hp => (hps p hp).1) hfiles).2 pool hrun
  obtain ⟨-, made, hgains, hpasses, hmade⟩ := hends _ hfinal
  refine ⟨hps, pool, hrun, hfinal, fun l hl => hgains.directory l ?_, ?_⟩
  · obtain ⟨p, hp, hl⟩ : Path.AnyPasses h.directory ps l := by
      revert l
      decide +kernel
    exact hmade p hp l hl fun hnot => (hps p hp).2 hnot.1
  · rw [hgains.unchanged ["r", "b"] fun hb => ?_]
    · decide +kernel
    · exact absurd (hpasses _ hb) (by decide +kernel)

/-! ## Paths that the system refuses -/

theorem run_ensureDirectory_of_long (hvalid : ∀ c ∈ p.components, c.IsValid)
    (hlong : longestPath < p.text.utf8ByteSize) :
    (ensureDirectory p).run h w = (.error .nameTooLong, w) := by
  have hne : p.text ≠ "" := by
    intro hempty
    simp [hempty] at hlong
  have hcheck : checkPath p = .error .nameTooLong := by
    rw [Path.checkPath_of_isValid hvalid hne, if_pos hlong]
  have hs : w.files.status h.directory p ≠ .ok .directory := by
    rw [status_of_checkPath hcheck]
    nofun
  rw [ensureDirectory, run_bind, run_isDirectory_of_ne hs]
  change (createDirectories p p.parents).run h w = _
  cases p.parents <;> rw [createDirectories, if_neg hne] <;>
    exact run_makeDirectoryOr_of_checkPath_error hne hcheck

/-- A path can be too long although each of its components is short, and what is spelled with a last
dot is not made: both calls fail alone. -/
theorem ensureDirectory_refuses :
    let h : Host := ⟨[], fun _ fs => (.error .notFound, fs)⟩
    let w : World := { files := .empty }
    let fails (p : Path) (e : IoError) : Prop :=
      (∀ c ∈ p.components, c.IsValid) ∧ (∀ l f, w.files.node? l ≠ some (.file f)) ∧
        ∃ pool, Pool.Reaches h 1 (.start w [ensureDirectory p]) pool ∧ pool.Finished [.error e]
    fails ((⟨"/"⟩ : Path).under (List.replicate 4096 "a")) .nameTooLong ∧
      fails ⟨"/new/."⟩ .notFound := by
  intro h w fails
  have hfiles : ∀ l f, w.files.node? l ≠ some (.file f) := by
    intro l f hf
    simp only [w, FileSystem.node?, FileSystem.empty, Std.ExtTreeMap.getElem?_insert] at hf
    split at hf <;> simp at hf
  have hslash : ∀ n ∈ List.replicate 4096 "a", '/' ∉ n.toList ∧ n ≠ "" := by
    intro n hn
    rw [List.eq_of_mem_replicate hn]
    decide
  have hroot : ∀ c ∈ (⟨"/"⟩ : Path).components, c.IsValid := by decide +kernel
  have hvalid : ∀ c ∈ ((⟨"/"⟩ : Path).under (List.replicate 4096 "a")).components,
      c.IsValid := by
    intro c hc
    rw [Path.components_under rfl fun n hn => (hslash n hn).1] at hc
    rcases List.mem_append.1 hc with hc | hc
    · exact hroot c hc
    · obtain ⟨n, hn, hc⟩ := List.mem_filterMap.1 hc
      rw [List.eq_of_mem_replicate hn] at hc
      obtain rfl : Component.name "a" = c := Option.some.inj hc
      decide +kernel
  have hlong := Path.length_le_utf8ByteSize_under ⟨"/"⟩ hslash
  rw [List.length_replicate] at hlong
  refine ⟨⟨hvalid, hfiles, ?_⟩, by decide +kernel, hfiles, ?_⟩
  · have hrun := run_ensureDirectory_of_long (h := h) (w := w) hvalid
      (Nat.lt_of_lt_of_le (by decide +kernel) hlong)
    obtain ⟨pool, hpool, hfinal⟩ := Pool.exists_finished_alone (h := h) (by decide : 0 < 1)
      (ensureDirectory ((⟨"/"⟩ : Path).under (List.replicate 4096 "a"))) w
    rw [hrun] at hfinal
    exact ⟨pool, hpool, hfinal⟩
  · exact Pool.exists_finished_of_follow (List.replicate 14 0) (by decide +kernel)

end Procedure

end CompileDriver
