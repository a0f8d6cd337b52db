import CompileDriver.Proofs.Sources.Expansion
import Mathlib.Data.List.Forall2

/-! # Source lists, entry by entry

Each entry contributes paths by itself: a plain entry its own path, a pattern the regular files that
it yields, in increasing order. The sources are the contributions one after the other, where of
paths with the same components only the first stays. So entries put at the end of a list only add
sources at the end. One pattern that cannot be read spoils the whole list.
-/

namespace CompileDriver

open Procedure

instance : Std.TransCmp (compare : Component → Component → Ordering) :=
  inferInstanceAs (Std.TransCmp (compareLex (compareOn Component.rank) (compareOn Component.text)))

def Glob.Finding.path? : Glob.Finding → Option Path
  | found p => some p
  | unreadable _ _ => none

namespace Sources

variable {h : Host} {fs : FileSystem} {base p q : Path} {entry : String} {entries xs ys : List String}
  {ps qs all : List Path} {reply : (c : Call) → c.Answer}

/-- Whether an entry can be read if it is a pattern. -/
def IsReadable (base : Path) (entry : String) : Prop :=
  isPattern entry = true → ∃ yields, Glob.findings (base / entry) = .ok yields

def isRegular (h : Host) (fs : FileSystem) (p : Path) : Bool :=
  match fs.status h.directory p with
  | .ok (.file _) => true
  | _ => false

inductive Contributes (h : Host) (fs : FileSystem) (base : Path) : String → List Path → Prop
  | plain {entry : String} : isPattern entry = false → Contributes h fs base entry [base / entry]
  | pattern {entry : String} {yields : Procedure (List Glob.Finding)} {ps : List Path} :
      isPattern entry = true → Glob.findings (base / entry) = .ok yields →
      ps.Perm (((yields.run h { files := fs }).1.filterMap Glob.Finding.path?).filter (isRegular h fs)) →
      ps.Pairwise (fun p q => (compare p.components q.components).isLE = true) →
      Contributes h fs base entry ps

/-- `ps` has the first path of each kind in `all`, in the same order, where paths with the same
components are of one kind. -/
structure Firsts (all ps : List Path) : Prop where
  sublist : ps.Sublist all
  pairwise : ps.Pairwise fun p q => p.components ≠ q.components
  first : ∀ p ∈ all, ∃ q ∈ ps, all.find? (p.same ·) = some q

/-! ## Sorting -/

theorem pairwise_sorted (ps : List Path) :
    (sorted ps).Pairwise fun p q => (compare p.components q.components).isLE = true := by
  refine List.pairwise_mergeSort (fun p q r hpq hqr => ?_) (fun p q => ?_) ps
  · exact Std.TransCmp.isLE_trans hpq hqr
  · rw [Std.OrientedOrd.eq_swap (a := q.components)]
    cases compare p.components q.components <;> rfl

/-! ## First occurrences -/

theorem distinct_append (ps qs : List Path) :
    distinct (ps ++ qs) =
      distinct ps ++ (distinct qs).filter fun q => ps.all fun p => !p.same q := by
  induction ps with
  | nil => simp [distinct]
  | cons p ps ih => simp [distinct, ih, List.filter_append, List.filter_filter]

theorem firsts_distinct (ps : List Path) : Firsts ps (distinct ps) where
  sublist := distinct_sublist ps
  pairwise := pairwise_distinct ps
  first p hp := by
    induction ps with
    | nil => cases hp
    | cons q ps ih =>
      by_cases hpq : p.same q = true
      · exact ⟨q, List.mem_cons_self, List.find?_cons_of_pos hpq⟩
      · have hp : p ∈ ps := by
          refine (List.mem_cons.1 hp).resolve_left ?_
          rintro rfl
          exact hpq (Path.same_iff.2 rfl)
        obtain ⟨r, hr, hfind⟩ := ih hp
        have hpr := Path.same_iff.1 (List.find?_some hfind)
        have hqr : ¬ q.same r = true := by
          rw [Path.same_iff, ← hpr, eq_comm, ← Path.same_iff]
          exact hpq
        refine ⟨r, List.mem_cons_of_mem q (List.mem_filter.2 ⟨hr, by simpa using hqr⟩), ?_⟩
        rw [List.find?_cons_of_neg hpq, hfind]

/-! ## Entries -/

theorem result_isFile (p : Path) : (isFile p).result (h.seen fs) = isRegular h fs p := by
  simp only [isFile, result, Host.seen, Host.answer, isRegular]
  rcases fs.status h.directory p with e | status
  · rfl
  · cases status <;> rfl

theorem result_regularFiles (found : List Glob.Finding) :
    (regularFiles found).result (h.seen fs) =
      (found.filterMap Glob.Finding.path?).filter (isRegular h fs) := by
  induction found with
  | nil => rfl
  | cons f found ih =>
    cases f with
    | unreadable p e => exact ih
    | found p =>
      rw [regularFiles, result_bind, result_isFile, result_bind, ih]
      cases hp : isRegular h fs p <;> simp [Glob.Finding.path?, hp, result]

theorem contributes_of_isReadable (h : Host) (fs : FileSystem) (he : IsReadable base entry) :
    ∃ ps, (expandEntry base entry).result (h.seen fs) = .ok ps ∧
      Contributes h fs base entry ps := by
  cases hpattern : isPattern entry with
  | false =>
    refine ⟨[base / entry], ?_, .plain hpattern⟩
    rw [expandEntry, hpattern]
    rfl
  | true =>
    obtain ⟨yields, hyields⟩ := he hpattern
    have hfound : (yields.run h { files := fs }).1 = yields.result (h.seen fs) :=
      ((Glob.shallow_findings hyields).mono fun _ => Call.IsShallow.isLooking).run_looking
        { files := fs } |>.1
    refine ⟨sorted ((yields.result (h.seen fs)).filterMap Glob.Finding.path? |>.filter
      (isRegular h fs)), ?_, .pattern hpattern hyields ?_ (pairwise_sorted _)⟩
    · rw [expandEntry, hpattern, hyields]
      change (yields.bind _).result _ = _
      rw [result_bind, result_bind, result_regularFiles]
      rfl
    · rw [hfound]
      exact List.mergeSort_perm _ _

theorem exists_error_of_not_isReadable (reply : (c : Call) → c.Answer)
    (he : ¬ IsReadable base entry) :
    ∃ e, Glob.findings (base / entry) = .error e ∧
      (expandEntry base entry).result reply = .error ⟨entry, e⟩ := by
  obtain ⟨hpattern, hnone⟩ := Classical.not_imp.1 he
  cases hyields : Glob.findings (base / entry) with
  | ok yields => exact absurd ⟨yields, hyields⟩ hnone
  | error e =>
    refine ⟨e, rfl, ?_⟩
    rw [expandEntry, hpattern, hyields]
    rfl

theorem result_expandEntries_cons : (expandEntries base (entry :: entries)).result reply = (do
    let ps ← (expandEntry base entry).result reply
    let qs ← (expandEntries base entries).result reply
    return ps ++ qs) := by
  simp only [expandEntries, result_andThen]
  rfl

theorem result_expandEntries_append : (expandEntries base (xs ++ ys)).result reply = (do
    let ps ← (expandEntries base xs).result reply
    let qs ← (expandEntries base ys).result reply
    return ps ++ qs) := by
  induction xs with
  | nil =>
    rw [List.nil_append]
    change _ = ((expandEntries base ys).result reply >>= _)
    cases (expandEntries base ys).result reply <;> rfl
  | cons entry xs ih =>
    rw [List.cons_append, result_expandEntries_cons, result_expandEntries_cons, ih]
    cases (expandEntry base entry).result reply with
    | error e => rfl
    | ok ps =>
      cases (expandEntries base xs).result reply with
      | error e => rfl
      | ok qs =>
        cases (expandEntries base ys).result reply with
        | error e => rfl
        | ok rs => exact congrArg Except.ok (List.append_assoc ps qs rs).symm

theorem contributions_of_forall_isReadable (h : Host) (fs : FileSystem)
    (hentries : ∀ entry ∈ entries, IsReadable base entry) :
    ∃ parts, List.Forall₂ (Contributes h fs base) entries parts ∧
      (expandEntries base entries).result (h.seen fs) = .ok parts.flatten := by
  induction entries with
  | nil => exact ⟨[], .nil, rfl⟩
  | cons entry entries ih =>
    obtain ⟨hentry, hrest⟩ := List.forall_mem_cons.1 hentries
    obtain ⟨ps, hps, hcontributes⟩ := contributes_of_isReadable h fs hentry
    obtain ⟨parts, hparts, hresult⟩ := ih hrest
    refine ⟨ps :: parts, .cons hcontributes hparts, ?_⟩
    rw [result_expandEntries_cons, hps, hresult]
    rfl

theorem exists_error_of_exists_not_isReadable (h : Host) (fs : FileSystem)
    (hentries : ∃ entry ∈ entries, ¬ IsReadable base entry) :
    ∃ before entry after e, entries = before ++ entry :: after ∧
      (∀ entry ∈ before, IsReadable base entry) ∧ Glob.findings (base / entry) = .error e ∧
      (expandEntries base entries).result (h.seen fs) = .error ⟨entry, e⟩ := by
  induction entries with
  | nil => simp at hentries
  | cons entry entries ih =>
    by_cases hentry : IsReadable base entry
    · have hrest : ∃ entry ∈ entries, ¬ IsReadable base entry := by
        obtain ⟨other, hother, hnot⟩ := hentries
        rcases List.mem_cons.1 hother with rfl | hother
        · exact absurd hentry hnot
        · exact ⟨other, hother, hnot⟩
      obtain ⟨before, failed, after, e, rfl, hbefore, he, hresult⟩ := ih hrest
      obtain ⟨ps, hps, -⟩ := contributes_of_isReadable h fs hentry
      refine ⟨entry :: before, failed, after, e, rfl, ?_, he, ?_⟩
      · exact List.forall_mem_cons.2 ⟨hentry, hbefore⟩
      · rw [result_expandEntries_cons, hps, hresult]
        rfl
    · obtain ⟨e, he, hresult⟩ := exists_error_of_not_isReadable (h.seen fs) hentry
      refine ⟨[], entry, entries, e, rfl, nofun, he, ?_⟩
      rw [result_expandEntries_cons, hresult]
      rfl

/-! ## Lists of entries -/

theorem run_expand_fst (w : World) :
    ((expand base entries).run h w).1 =
      ((expandEntries base entries).result (h.seen w.files)).map distinct := by
  have hlooking := (shallow_expand base entries).mono fun _ => Call.IsShallow.isLooking
  rw [(hlooking.run_looking w).1, expand, result_andThen]
  cases (expandEntries base entries).result (h.seen w.files) <;> rfl

/-- What is left of later paths does not depend on repetitions among the earlier ones. -/
theorem distinct_append_eq_filter (ps qs : List Path) :
    distinct (ps ++ qs) = distinct ps ++
      (distinct qs).filter fun q => ∀ p ∈ distinct ps, p.components ≠ q.components := by
  rw [distinct_append]
  congr 1
  refine List.filter_congr fun q _ => ?_
  rw [Bool.eq_iff_iff, List.all_eq_true, decide_eq_true_iff]
  constructor
  · intro hall p hp hpq
    have hnot := hall p ((distinct_sublist ps).subset hp)
    simp [Path.same_iff.2 hpq] at hnot
  · intro hall p hp
    obtain ⟨r, hr, hfind⟩ := (firsts_distinct ps).first p hp
    have hpr := Path.same_iff.1 (List.find?_some hfind)
    rw [Bool.not_eq_true', ← Bool.not_eq_true, Path.same_iff, hpr]
    exact hall r hr

/-- The sources are what the entries contribute, one entry after the other, without repetitions.
Further entries add the sources that are not there yet, and the first pattern that cannot be read
makes the whole list fail. -/
theorem expand_by_entries (h : Host) (w : World) (base : Path) :
    (∀ entries, (∀ entry ∈ entries, IsReadable base entry) →
      ∃ parts sources, List.Forall₂ (Contributes h w.files base) entries parts ∧
        ((expand base entries).run h w).1 = .ok sources ∧ Firsts parts.flatten sources) ∧
    (∀ xs ys, (∀ entry ∈ xs ++ ys, IsReadable base entry) →
      ∃ ps qs, ((expand base xs).run h w).1 = .ok ps ∧ ((expand base ys).run h w).1 = .ok qs ∧
        ((expand base (xs ++ ys)).run h w).1 =
          .ok (ps ++ qs.filter fun q => ∀ p ∈ ps, p.components ≠ q.components)) ∧
    ∀ entries, (∃ entry ∈ entries, ¬ IsReadable base entry) →
      ∃ before entry after e, entries = before ++ entry :: after ∧
        (∀ entry ∈ before, IsReadable base entry) ∧ Glob.findings (base / entry) = .error e ∧
        ((expand base entries).run h w).1 = .error ⟨entry, e⟩ := by
  refine ⟨fun entries hentries => ?_, fun xs ys hentries => ?_, fun entries hentries => ?_⟩
  · obtain ⟨parts, hparts, hresult⟩ := contributions_of_forall_isReadable h w.files hentries
    refine ⟨parts, distinct parts.flatten, hparts, ?_, firsts_distinct _⟩
    rw [run_expand_fst, hresult]
    rfl
  · obtain ⟨hxs, hys⟩ := List.forall_mem_append.1 hentries
    obtain ⟨parts, -, hps⟩ := contributions_of_forall_isReadable h w.files hxs
    obtain ⟨parts', -, hqs⟩ := contributions_of_forall_isReadable h w.files hys
    refine ⟨distinct parts.flatten, distinct parts'.flatten, ?_, ?_, ?_⟩
    · rw [run_expand_fst, hps]
      rfl
    · rw [run_expand_fst, hqs]
      rfl
    · rw [run_expand_fst, result_expandEntries_append, hps, hqs, ← distinct_append_eq_filter]
      rfl
  · obtain ⟨before, entry, after, e, hsplit, hbefore, he, hresult⟩ :=
      exists_error_of_exists_not_isReadable h w.files hentries
    refine ⟨before, entry, after, e, hsplit, hbefore, he, ?_⟩
    rw [run_expand_fst, hresult]
    rfl

/-- A file that matches a pattern and is named by itself too, and two that do not exist. -/
theorem expand_by_entries_overlapping :
    let h : Host := ⟨[], fun _ fs => (.error .notFound, fs)⟩
    let w : World := {
      files := (FileSystem.empty.putDirectories ["r"]).put ["r", "a.c"] (.file ⟨.empty, false⟩) }
    let expanded (entries : List String) := ((expand ⟨"/r"⟩ entries).run h w).1
    expanded ["b.c", "*.c"] = .ok [⟨"/r/b.c"⟩, ⟨"/r/a.c"⟩] ∧
      expanded ["./a.c", "x.c"] = .ok [⟨"/r/./a.c"⟩, ⟨"/r/x.c"⟩] ∧
      expanded ["b.c", "*.c", "./a.c", "x.c"] = .ok [⟨"/r/b.c"⟩, ⟨"/r/a.c"⟩, ⟨"/r/x.c"⟩] ∧
      (∃ parts, List.Forall₂ (Contributes h w.files ⟨"/r"⟩) ["b.c", "*.c"] parts ∧
        Firsts parts.flatten [⟨"/r/b.c"⟩, ⟨"/r/a.c"⟩]) ∧
      ∃ e, Glob.findings (Path.mk "/r" / "[a") = .error e ∧
        expanded ["x.c", "[a", "**b"] = .error ⟨"[a", e⟩ := by
  intro h w expanded
  have hreadable (entry : String) (hentry : (Glob.findings (Path.mk "/r" / entry)).toBool = true) :
      IsReadable ⟨"/r"⟩ entry := by
    intro _
    cases hyields : Glob.findings (Path.mk "/r" / entry) with
    | ok yields => exact ⟨yields, rfl⟩
    | error e => rw [hyields] at hentry; cases hentry
  have hxs : ∀ entry ∈ ["b.c", "*.c"], IsReadable ⟨"/r"⟩ entry := by
    simp only [List.forall_mem_cons]
    exact ⟨hreadable _ (by decide +kernel), hreadable _ (by decide +kernel), nofun⟩
  have hys : ∀ entry ∈ ["./a.c", "x.c"], IsReadable ⟨"/r"⟩ entry := by
    simp only [List.forall_mem_cons]
    exact ⟨hreadable _ (by decide +kernel), hreadable _ (by decide +kernel), nofun⟩
  obtain ⟨hparts, happend, hfail⟩ := expand_by_entries h w ⟨"/r"⟩
  have hps : expanded ["b.c", "*.c"] = .ok [⟨"/r/b.c"⟩, ⟨"/r/a.c"⟩] := by decide +kernel
  have hqs : expanded ["./a.c", "x.c"] = .ok [⟨"/r/./a.c"⟩, ⟨"/r/x.c"⟩] := by decide +kernel
  refine ⟨hps, hqs, ?_, ?_, ?_⟩
  · obtain ⟨ps, qs, hps', hqs', hall⟩ :=
      happend _ _ (List.forall_mem_append.2 ⟨hxs, hys⟩)
    obtain rfl := Except.ok.inj (hps.symm.trans hps')
    obtain rfl := Except.ok.inj (hqs.symm.trans hqs')
    exact hall.trans (by decide +kernel)
  · obtain ⟨parts, sources, hcontributes, hsources, hfirsts⟩ := hparts _ hxs
    obtain rfl := Except.ok.inj (hps.symm.trans hsources)
    exact ⟨parts, hcontributes, hfirsts⟩
  · have hnot : ¬ IsReadable ⟨"/r"⟩ "[a" := by
      intro hreads
      obtain ⟨yields, hyields⟩ := hreads (by decide)
      have hfalse : (Glob.findings (Path.mk "/r" / "[a")).toBool = false := by decide +kernel
      rw [hyields] at hfalse
      cases hfalse
    obtain ⟨before, entry, after, e, -, -, he, hresult⟩ :=
      hfail ["x.c", "[a", "**b"] ⟨"[a", by simp, hnot⟩
    have hfirst : expanded ["x.c", "[a", "**b"] = .error ⟨"[a", ⟨3, .badClass⟩⟩ := by
      decide +kernel
    obtain ⟨rfl, rfl⟩ := GlobFailure.mk.inj (Except.error.inj (hfirst.symm.trans hresult))
    exact ⟨_, he, hresult⟩

end Sources

end CompileDriver
