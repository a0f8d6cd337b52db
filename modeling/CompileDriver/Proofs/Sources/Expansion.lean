import CompileDriver.Proofs.Glob.Walk
import CompileDriver.Proofs.Path.Components
import CompileDriver.Sources

/-! # Expanding source lists

The sources that entries stand for are found without a look at the contents of files. No two of them
have the same components.
-/

namespace CompileDriver

open Procedure

namespace Sources

variable {base : Path}

theorem shallow_regularFiles (fs : List Glob.Finding) :
    (regularFiles fs).CallsOnly Call.IsShallow := by
  induction fs with
  | nil => trivial
  | cons f fs ih =>
    cases f with
    | found p => exact (shallow_isFile p).bind fun _ => ih.bind fun _ => trivial
    | unreadable p e => exact ⟨trivial, fun _ => ih⟩

theorem shallow_expandEntry (base : Path) (entry : String) :
    (expandEntry base entry).CallsOnly Call.IsShallow := by
  refine CallsOnly.ite ?_ (.done _)
  cases hyields : Glob.findings (base / entry) with
  | error e => trivial
  | ok yields =>
    exact (Glob.shallow_findings hyields).bind fun fs =>
      (shallow_regularFiles fs).bind fun _ => trivial

theorem shallow_expandEntries (base : Path) (entries : List String) :
    (expandEntries base entries).CallsOnly Call.IsShallow := by
  induction entries with
  | nil => trivial
  | cons entry entries ih =>
    exact (shallow_expandEntry base entry).andThen fun _ => ih.andThen fun _ => trivial

theorem shallow_expand (base : Path) (entries : List String) :
    (expand base entries).CallsOnly Call.IsShallow :=
  (shallow_expandEntries base entries).andThen fun _ => trivial

/-! ## Distinct paths -/

theorem distinct_sublist (ps : List Path) : (distinct ps).Sublist ps := by
  induction ps with
  | nil => exact .slnil
  | cons p ps ih => exact (List.filter_sublist.trans ih).cons_cons p

theorem pairwise_distinct (ps : List Path) :
    (distinct ps).Pairwise fun p q => p.components ≠ q.components := by
  induction ps with
  | nil => exact List.Pairwise.nil
  | cons p ps ih =>
    refine List.Pairwise.cons (fun q hq => ?_) (ih.filter _)
    have hp := (List.mem_filter.1 hq).2
    rw [Bool.not_eq_true'] at hp
    exact fun hsame => by simp [Path.same_iff.2 hsame] at hp

theorem pairwise_of_result_expand {base : Path} {entries : List String} {ps : List Path}
    {reply : (c : Call) → c.Answer} (hps : (expand base entries).result reply = .ok ps) :
    ps.Pairwise fun p q => p.components ≠ q.components := by
  obtain ⟨all, -, hall⟩ := result_andThen_eq_ok.1 hps
  rw [← Except.ok.inj hall]
  exact pairwise_distinct all

end Sources

end CompileDriver
