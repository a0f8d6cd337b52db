import CompileDriver.Proofs.Plan.Success

/-! # Limits on the length of paths

A limit only refuses. A plan that it lets through is the plan without a limit, made in the same
way. Where it refuses, it names the first source whose object file has too long a path, and nothing
has been done beyond what the sources before that one need.
-/

namespace CompileDriver

open Procedure

namespace ObjectPath

variable {h : Host} {w w' : World} {cwd objects source : Path} {suffix : String}
  {root : Option Path} {n : Nat}

theorem checkLength_some (cwd : Path) (n : Nat) (p : Path) :
    checkLength cwd (some n) p =
      if n < (Path.absolute cwd p).text.length then .error (.tooLong (Path.absolute cwd p) n)
      else .ok () := rfl

theorem prepare_of_le (hle : (Path.absolute cwd (of objects source suffix root)).text.length ≤ n) :
    prepare cwd (some n) objects source suffix root =
      prepare cwd none objects source suffix root := by
  have hnone : checkLength cwd none (of objects source suffix root) = .ok () := rfl
  rw [prepare, prepare, checkLength_some, if_neg (Nat.not_lt.2 hle), hnone]

theorem prepare_of_lt (hlt : n < (Path.absolute cwd (of objects source suffix root)).text.length) :
    prepare cwd (some n) objects source suffix root =
      done (.error (.tooLong (Path.absolute cwd (of objects source suffix root)) n)) := by
  rw [prepare, checkLength_some, if_pos hlt]

theorem run_prepare_ne_tooLong {p : Path} {k : Nat} :
    (prepare cwd none objects source suffix root).run h w ≠ (.error (.tooLong p k), w') := by
  intro hp
  unfold prepare at hp
  dsimp only [checkLength] at hp
  split at hp
  · cases hp
  · rcases run_andThen_eq_error.1 hp with hp | ⟨_, _, -, ⟨⟩⟩
    obtain ⟨_, -, ⟨⟩⟩ := run_mapError_eq_error.1 hp

end ObjectPath

namespace Plan

variable {h : Host} {w w' : World} {cwd : Path} {family : Family} {options : Options} {s : Spec}
  {shared : List String} {source : Path} {sources : List Path} {n : Nat}

/-- The path that the limit is about: the object file of a source, seen from the root. -/
def measured (cwd : Path) (family : Family) (s : Spec) (source : Path) : Path :=
  Path.absolute cwd (objectOf family s source)

abbrev withLimit (options : Options) (limit : Option Nat) : Options :=
  { options with pathLimit := limit }

/-! ## One source -/

theorem invocation_of_le (hle : (measured cwd family s source).text.length ≤ n) :
    invocation cwd family (withLimit options (some n)) s shared source =
      invocation cwd family (withLimit options none) s shared source := by
  unfold invocation
  dsimp only
  rw [ObjectPath.prepare_of_le hle]

theorem run_invocation_of_lt (hlt : n < (measured cwd family s source).text.length) :
    (invocation cwd family (withLimit options (some n)) s shared source).run h w =
      (.error (.pathTooLong (measured cwd family s source) n),
        { w with
          notices := w.notices ++ (warning? cwd family s source).toList.map Notice.warning }) := by
  unfold invocation
  dsimp only
  rw [run_bind, run_warnMaybe, ObjectPath.prepare_of_lt hlt]
  rfl

theorem run_invocation_ne_pathTooLong {p : Path} {k : Nat} :
    (invocation cwd family (withLimit options none) s shared source).run h w ≠
      (.error (.pathTooLong p k), w') := by
  intro hi
  rw [invocation, run_bind] at hi
  rcases run_andThen_eq_error.1 hi with hi | ⟨_, _, -, ⟨⟩⟩
  obtain ⟨e, hprepare, he⟩ := run_mapError_eq_error.1 hi
  cases e with
  | directory => cases he
  | tooLong => exact ObjectPath.run_prepare_ne_tooLong hprepare

/-! ## All sources -/

theorem invocations_of_le (hle : ∀ b ∈ sources, (measured cwd family s b).text.length ≤ n) :
    invocations cwd family (withLimit options (some n)) s shared sources =
      invocations cwd family (withLimit options none) s shared sources := by
  induction sources with
  | nil => rfl
  | cons source sources ih =>
    obtain ⟨hsource, hsources⟩ := List.forall_mem_cons.1 hle
    rw [invocations, invocations, invocation_of_le hsource, ih hsources]

theorem le_of_run_invocations {is : List Invocation}
    (his : (invocations cwd family (withLimit options (some n)) s shared sources).run h w =
      (.ok is, w')) :
    ∀ b ∈ sources, (measured cwd family s b).text.length ≤ n := by
  induction sources generalizing w w' is with
  | nil => exact List.forall_mem_nil _
  | cons source sources ih =>
    obtain ⟨i, v, hi, his⟩ := run_andThen_eq_ok.1 his
    obtain ⟨js, v', hjs, -⟩ := run_andThen_eq_ok.1 his
    refine List.forall_mem_cons.2 ⟨Nat.le_of_not_lt fun hlt => ?_, ih hjs⟩
    rw [run_invocation_of_lt hlt] at hi
    cases hi

/-- Where a limit refuses, the sources before have been planned, and nothing else has been done. -/
theorem exists_first_of_run_invocations {p : Path} {k : Nat}
    (he : (invocations cwd family (withLimit options (some n)) s shared sources).run h w =
      (.error (.pathTooLong p k), w')) :
    k = n ∧ ∃ before source after is u, sources = before ++ source :: after ∧
      (∀ b ∈ before, (measured cwd family s b).text.length ≤ n) ∧
      n < (measured cwd family s source).text.length ∧ p = measured cwd family s source ∧
      (invocations cwd family (withLimit options (some n)) s shared before).run h w =
        (.ok is, u) ∧ w'.files = u.files := by
  induction sources generalizing w with
  | nil => cases he
  | cons source sources ih =>
    by_cases hlt : n < (measured cwd family s source).text.length
    · rcases run_andThen_eq_error.1 he with he | ⟨_, _, hi, -⟩
      · rw [run_invocation_of_lt hlt] at he
        cases he
        exact ⟨rfl, [], source, sources, [], w, rfl, List.forall_mem_nil _, hlt, rfl, rfl, rfl⟩
      · rw [run_invocation_of_lt hlt] at hi
        cases hi
    · have hle := Nat.le_of_not_lt hlt
      rcases run_andThen_eq_error.1 he with he | ⟨i, v, hi, he⟩
      · rw [invocation_of_le hle] at he
        exact absurd he run_invocation_ne_pathTooLong
      · rcases run_andThen_eq_error.1 he with he | ⟨_, _, -, ⟨⟩⟩
        obtain ⟨rfl, before, b, after, is, u, rfl, hbefore, hb, hp, hu, hfiles⟩ := ih he
        refine ⟨rfl, source :: before, b, after, i :: is, u, rfl,
          List.forall_mem_cons.2 ⟨hle, hbefore⟩, hb, hp, ?_, hfiles⟩
        exact run_andThen_eq_ok.2 ⟨i, v, hi, run_andThen_eq_ok.2 ⟨is, u, hu, rfl⟩⟩

theorem run_assemble_ne_pathTooLong {p : Path} {k : Nat} :
    (assemble cwd family options s).run h w ≠ (.error (.pathTooLong p k), w') := by
  intro he
  unfold assemble at he
  dsimp only at he
  split at he
  · rcases run_andThen_eq_error.1 he with he | ⟨_, _, -, ⟨⟩⟩
    obtain ⟨_, -, ⟨⟩⟩ := run_mapError_eq_error.1 he
  · cases he

theorem make_of_le (hle : ∀ b ∈ s.sources, (measured cwd family s b).text.length ≤ n) :
    make cwd family (withLimit options (some n)) s =
      make cwd family (withLimit options none) s := by
  have hinvocations (shared : List String) :
      invocations cwd family (withLimit options (some n)) s shared s.sources = _ :=
    invocations_of_le hle
  exact congrArg (assemble cwd family options s).andThen (funext hinvocations)

/-- A limit refuses exactly the plans in which the path of an object file exceeds it, leaves the
others as they are, and names the first such file, before anything is made for its source. -/
theorem pathLimit_filters (h : Host) (w : World) (cwd : Path) (family : Family) (options : Options)
    (s : Spec) (n : Nat) :
    let limited := { options with pathLimit := some n }
    let unlimited := { options with pathLimit := none }
    let object (source : Path) := Path.absolute cwd
      (ObjectPath.of s.objectDirectory source family.objectSuffix s.sourceRoot)
    ((∃ is v, (make cwd family limited s).run h w = (.ok is, v)) ↔
      (∃ is v, (make cwd family unlimited s).run h w = (.ok is, v)) ∧
        ∀ source ∈ s.sources, (object source).text.length ≤ n) ∧
    (∀ is v, (make cwd family limited s).run h w = (.ok is, v) →
      (make cwd family unlimited s).run h w = (.ok is, v)) ∧
    (∀ p k v, (make cwd family limited s).run h w = (.error (.pathTooLong p k), v) →
      k = n ∧ ∃ before source after is u, s.sources = before ++ source :: after ∧
        (∀ b ∈ before, (object b).text.length ≤ n) ∧ n < (object source).text.length ∧
        p = object source ∧
        (make cwd family limited { s with sources := before }).run h w = (.ok is, u) ∧
        v.files = u.files) := by
  intro limited unlimited object
  have hall {is v} (his : (make cwd family limited s).run h w = (.ok is, v)) :
      ∀ source ∈ s.sources, (object source).text.length ≤ n := by
    obtain ⟨_, _, -, his⟩ := run_andThen_eq_ok.1 his
    exact le_of_run_invocations his
  have hsame {is v} (his : (make cwd family limited s).run h w = (.ok is, v)) :
      (make cwd family unlimited s).run h w = (.ok is, v) :=
    make_of_le (hall his) ▸ his
  refine ⟨⟨?_, ?_⟩, fun is v => hsame, fun p k v he => ?_⟩
  · rintro ⟨is, v, his⟩
    exact ⟨⟨is, v, hsame his⟩, hall his⟩
  · rintro ⟨⟨is, v, his⟩, hle⟩
    exact ⟨is, v, make_of_le hle ▸ his⟩
  · rcases run_andThen_eq_error.1 he with he | ⟨shared, u, hshared, he⟩
    · exact absurd he run_assemble_ne_pathTooLong
    · obtain ⟨hk, before, source, after, is, u', hsources, hbefore, hlt, hp, his, hfiles⟩ :=
        exists_first_of_run_invocations he
      refine ⟨hk, before, source, after, is, u', hsources, hbefore, hlt, hp, ?_, hfiles⟩
      rw [make_withSources]
      exact run_andThen_eq_ok.2 ⟨shared, u, hshared, his⟩

theorem eq_takeWhile_of_append {P : Path → Prop} [DecidablePred P] {before after : List Path}
    (hsources : sources = before ++ source :: after) (hbefore : ∀ b ∈ before, P b)
    (hsource : ¬ P source) : before = sources.takeWhile fun b => decide (P b) := by
  rw [hsources, List.takeWhile_append_of_pos (by simpa using hbefore),
    List.takeWhile_cons_of_neg (by simpa using hsource), List.append_nil]

/-- A limit of exactly the longest path, and one character less. -/
theorem pathLimit_filters_at_the_limit :
    let h : Host := ⟨["r"], fun _ fs => (.error .notFound, fs)⟩
    let w : World := { files := FileSystem.empty.putDirectories ["r"] }
    let options : Options := {}
    let s : Spec := {
      sources := [⟨"a.c"⟩, ⟨"deep/b.c"⟩, ⟨"c.c"⟩]
      objectDirectory := ⟨"out"⟩
      tempDirectory := ⟨"tmp"⟩
      logLocation := ⟨"log"⟩ }
    (⟨"/r/out/deep/b.o"⟩ : Path).text.length = 15 ∧
    (∃ is v, (make ⟨"/r"⟩ .gcc { options with pathLimit := some 15 } s).run h w = (.ok is, v) ∧
      (make ⟨"/r"⟩ .gcc { options with pathLimit := none } s).run h w = (.ok is, v)) ∧
    (∃ v is u, (make ⟨"/r"⟩ .gcc { options with pathLimit := some 14 } s).run h w =
        (.error (.pathTooLong ⟨"/r/out/deep/b.o"⟩ 14), v) ∧
      (make ⟨"/r"⟩ .gcc { options with pathLimit := some 14 }
        { s with sources := [⟨"a.c"⟩] }).run h w = (.ok is, u) ∧
      v.files = u.files) := by
  intro h w options s
  obtain ⟨v, hv⟩ : ∃ v, (make ⟨"/r"⟩ .gcc { options with pathLimit := none } s).run h w =
      (.ok (s.sources.map (planned ⟨"/r"⟩ .gcc s ["-c", "-x", "c"])), v) :=
    ⟨_, run_eq_of_fst (h := h) (w := w)
      (p := make ⟨"/r"⟩ .gcc { options with pathLimit := none } s) (by decide +kernel)⟩
  obtain ⟨u, hu⟩ : ∃ u, (make ⟨"/r"⟩ .gcc { options with pathLimit := some 14 } s).run h w =
      (.error (.pathTooLong ⟨"/r/out/deep/b.o"⟩ 14), u) :=
    ⟨_, run_eq_of_fst (h := h) (w := w)
      (p := make ⟨"/r"⟩ .gcc { options with pathLimit := some 14 } s) (by decide +kernel)⟩
  obtain ⟨⟨-, hfits⟩, hsame, -⟩ := pathLimit_filters h w ⟨"/r"⟩ .gcc options s 15
  obtain ⟨-, -, hrefused⟩ := pathLimit_filters h w ⟨"/r"⟩ .gcc options s 14
  obtain ⟨is, v', his⟩ := hfits ⟨⟨_, v, hv⟩, by decide +kernel⟩
  obtain ⟨-, before, source, after, js, u', hsources, hbefore, hlt, -, hjs, hfiles⟩ :=
    hrefused _ _ u hu
  have hfirst : before = [⟨"a.c"⟩] :=
    (eq_takeWhile_of_append hsources hbefore (Nat.not_le.2 hlt)).trans (by decide +kernel)
  rw [hfirst] at hjs
  exact ⟨by decide, ⟨is, v', his, hsame is v' his⟩, u, js, u', hu, hjs, hfiles⟩

end Plan

end CompileDriver
