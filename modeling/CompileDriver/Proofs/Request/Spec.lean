import CompileDriver.Proofs.FileSystem.Contents
import CompileDriver.Proofs.Plan.Contents
import CompileDriver.Proofs.Sources.Expansion
import CompileDriver.Request.Spec

/-! # Specifications that requests become

A specification has the sources that the entries of its request stand for, each with the headers
that the request declares for it, or else with those in its text. Only the texts of sources for
which no headers are declared matter.
-/

namespace CompileDriver

open Procedure

namespace Procedure

theorem looking_readFile (p : Path) : (readFile p).CallsOnly Call.IsLooking := by
  refine ⟨trivial, fun r => ?_⟩
  rcases r with e | data <;> trivial

theorem looking_pathExists (p : Path) : (pathExists p).CallsOnly Call.IsLooking :=
  ⟨trivial, fun _ => trivial⟩

theorem result_readFile_eq_ok {h : Host} {fs : FileSystem} {p : Path} {text : String} :
    (readFile p).result (h.seen fs) = .ok text ↔
      ∃ data, fs.read h.directory p = .ok data ∧ Text.decode? data = some text := by
  have hseen : h.seen fs (.read p) = fs.read h.directory p := rfl
  rw [readFile, result, hseen]
  cases fs.read h.directory p with
  | error e =>
    constructor
    · rintro ⟨⟩
    · rintro ⟨data, ⟨⟩, -⟩
  | ok data =>
    rw [result]
    cases hdata : Text.decode? data with
    | none => simp [hdata]
    | some s => simp [hdata]

theorem callsOnly_readText {P : Call → Prop} {p : Path} (hp : P (.read p)) :
    (readText p).CallsOnly P := by
  refine CallsOnly.mapError _ ⟨hp, fun r => ?_⟩
  rcases r with e | data <;> trivial

end Procedure

namespace Spec

/-- Sources are added one after the other, each with its headers. -/
def withAll (s : Spec) (found : List (Path × List String)) : Spec :=
  found.foldl (fun s d => s.withSource d.1 d.2) s

theorem sources_withAll (s : Spec) (found : List (Path × List String)) :
    (s.withAll found).sources = s.sources ++ found.map Prod.fst := by
  induction found generalizing s with
  | nil => exact (List.append_nil _).symm
  | cons d found ih =>
    refine (ih (s.withSource d.1 d.2)).trans ?_
    rw [List.map_cons, ← List.singleton_append, ← List.append_assoc]
    rfl

theorem directives_withAll (s : Spec) (found : List (Path × List String)) :
    (s.withAll found).directives = found.reverse ++ s.directives := by
  induction found generalizing s with
  | nil => rfl
  | cons d found ih =>
    refine (ih (s.withSource d.1 d.2)).trans ?_
    rw [List.reverse_cons, List.append_assoc]
    rfl

theorem directivesOf?_of_mem {s : Spec} {source : Path} {headers : List String}
    (hdistinct : s.directives.Pairwise fun d e => d.1.components ≠ e.1.components)
    (hmem : (source, headers) ∈ s.directives) : s.directivesOf? source = some headers := by
  obtain ⟨before, after, hsplit⟩ := List.append_of_mem hmem
  rw [hsplit, List.pairwise_append] at hdistinct
  exact directivesOf?_eq_some_iff.2 ⟨before, source, after, hsplit, rfl,
    fun d hd => hdistinct.2.2 d hd (source, headers) List.mem_cons_self⟩

theorem isSome_directivesOf?_iff {s : Spec} {p : Path} :
    (s.directivesOf? p).isSome ↔ ∃ d ∈ s.directives, d.1.components = p.components := by
  rw [directivesOf?, Option.isSome_map, List.find?_isSome]
  simp only [Path.same_iff]

end Spec

namespace Request

variable {r : Request} {cwd base source : Path} {sources : List Path} {headers : List String}
  {s t : Spec} {h : Host} {w w' : World} {fs : FileSystem}

/-! ## Declared headers -/

/-- The headers for `source` are those of the last key, in the order of the keys, that is its
path. -/
def Declares (r : Request) (base source : Path) (headers : List String) : Prop :=
  ∃ before key after, r.includes = before ++ (key, headers) :: after ∧
    (base / key).components = source.components ∧
    ∀ e ∈ after, (base / e.1).components ≠ source.components

/-- In a request that has been read, the keys are in their order. -/
theorem pairwise_includes_of_parse? {text : String} (hr : parse? text = some r) :
    r.includes.Pairwise fun d e => d.1 ≤ e.1 := by
  obtain ⟨entries, -, hr⟩ := Option.bind_eq_some_iff.1 hr
  unfold ofEntries? at hr
  -- the settings before the last one
  iterate 15 obtain ⟨_, -, hr⟩ := Option.bind_eq_some_iff.1 hr
  obtain ⟨includes, hincludes, hr⟩ := Option.bind_eq_some_iff.1 hr
  rw [← Option.some.inj hr]
  have hsorted : includes.Pairwise fun d e => d.1 ≤ e.1 := by
    unfold Toml.Entries.setting at hincludes
    split at hincludes
    · rw [← Option.some.inj hincludes]
      exact List.Pairwise.nil
    · obtain ⟨unsorted, -, rfl⟩ := Option.map_eq_some_iff.1 hincludes
      refine (List.pairwise_mergeSort ?_ ?_ unsorted).imp of_decide_eq_true
      · intro d e f hde hef
        exact decide_eq_true (String.le_trans (of_decide_eq_true hde) (of_decide_eq_true hef))
      · intro d e
        simpa using String.le_total d.1 e.1
  exact hsorted

theorem declared?_eq_some_iff :
    r.declared? base source = some headers ↔ r.Declares base source headers := by
  rw [declared?, Option.map_eq_some_iff]
  constructor
  · rintro ⟨⟨key, headers⟩, hfind, rfl⟩
    obtain ⟨hkey, after, before, hsplit, hafter⟩ := List.find?_eq_some_iff_append.1 hfind
    refine ⟨before.reverse, key, after.reverse, ?_, Path.same_iff.1 hkey, fun e he hsame => ?_⟩
    · rw [← List.reverse_reverse r.includes, hsplit]
      simp
    · have hne := hafter e (List.mem_reverse.1 he)
      rw [Path.same_iff.2 hsame] at hne
      cases hne
  · rintro ⟨before, key, after, hsplit, hkey, hafter⟩
    refine ⟨(key, headers), List.find?_eq_some_iff_append.2 ⟨Path.same_iff.2 hkey,
      after.reverse, before.reverse, by simp [hsplit], fun e he => ?_⟩, rfl⟩
    simpa [Path.same] using hafter e (List.mem_reverse.1 he)

theorem declared?_eq_none_iff :
    r.declared? base source = none ↔
      ∀ e ∈ r.includes, (base / e.1).components ≠ source.components := by
  rw [declared?, Option.map_eq_none_iff, List.find?_eq_none]
  simp [Path.same_iff]

@[simp] theorem sources_emptySpec (r : Request) (base : Path) : (r.emptySpec base).sources = [] :=
  rfl

@[simp] theorem directives_emptySpec (r : Request) (base : Path) :
    (r.emptySpec base).directives = [] :=
  rfl

/-! ## Calls -/

theorem callsOnly_directivesOf (r : Request) (base source : Path) :
    (r.directivesOf base source).CallsOnly fun c =>
      r.declared? base source = none ∧ c = .read source := by
  unfold directivesOf
  cases hdeclared : r.declared? base source with
  | some headers => trivial
  | none =>
    refine CallsOnly.mapError _ (CallsOnly.andThen ?_ fun _ => .done _)
    exact callsOnly_readText ⟨rfl, rfl⟩

theorem looking_addSources (sources : List Path) (s : Spec) :
    (r.addSources base sources s).CallsOnly Call.IsLooking := by
  induction sources generalizing s with
  | nil => trivial
  | cons source sources ih =>
    refine ((callsOnly_directivesOf r base source).mono ?_).andThen fun _ => ih _
    rintro _ ⟨-, rfl⟩
    trivial

theorem looking_toSpec (cwd base : Path) : (r.toSpec cwd base).CallsOnly Call.IsLooking := by
  refine CallsOnly.andThen (CallsOnly.mapError _ ?_) fun sources => ?_
  · exact (Sources.shallow_expand _ _).mono fun _ => Call.IsShallow.isLooking
  · exact looking_addSources sources _

/-! ## Sources and their headers -/

section

variable {reply : (c : Call) → c.Answer}

theorem result_addSources_eq_ok :
    (r.addSources base sources s).result reply = .ok t ↔
      ∃ found : List (Path × List String), found.map Prod.fst = sources ∧
        (∀ d ∈ found, (r.directivesOf base d.1).result reply = .ok d.2) ∧
        t = s.withAll found := by
  induction sources generalizing s with
  | nil =>
    constructor
    · intro ht
      exact ⟨[], rfl, nofun, (Except.ok.inj ht).symm⟩
    · rintro ⟨found, hfound, -, rfl⟩
      rw [List.map_eq_nil_iff.1 hfound]
      rfl
  | cons source sources ih =>
    rw [addSources, result_andThen_eq_ok]
    constructor
    · rintro ⟨headers, hheaders, ht⟩
      obtain ⟨found, rfl, hfound, rfl⟩ := ih.1 ht
      exact ⟨(source, headers) :: found, rfl, List.forall_mem_cons.2 ⟨hheaders, hfound⟩, rfl⟩
    · rintro ⟨found, hsources, hfound, rfl⟩
      obtain ⟨⟨p, headers⟩, found, rfl, rfl, rfl⟩ := List.map_eq_cons_iff.1 hsources
      obtain ⟨hheaders, hfound⟩ := List.forall_mem_cons.1 hfound
      exact ⟨headers, hheaders, ih.2 ⟨found, rfl, hfound, rfl⟩⟩

theorem result_toSpec_eq_ok :
    (r.toSpec cwd base).result reply = .ok t ↔
      ∃ found : List (Path × List String),
        (Sources.expand (Path.absolute cwd base) r.sources).result reply =
          .ok (found.map Prod.fst) ∧
        (∀ d ∈ found, (r.directivesOf (Path.absolute cwd base) d.1).result reply = .ok d.2) ∧
        t = (r.emptySpec (Path.absolute cwd base)).withAll found := by
  unfold toSpec
  simp only [result_andThen_eq_ok, result_mapError_eq_ok, result_addSources_eq_ok]
  constructor
  · rintro ⟨_, hexpand, found, rfl, hfound⟩
    exact ⟨found, hexpand, hfound⟩
  · rintro ⟨found, hexpand, hfound⟩
    exact ⟨_, hexpand, found, rfl, hfound⟩

end

theorem result_directivesOf_of_declares {reply : (c : Call) → c.Answer}
    (hdeclares : r.Declares base source headers) :
    (r.directivesOf base source).result reply = .ok headers := by
  rw [directivesOf, declared?_eq_some_iff.2 hdeclares]
  rfl

theorem result_scanFile_eq_ok :
    (Include.scanFile source).result (h.seen fs) = .ok headers ↔
      ∃ data text, fs.read h.directory source = .ok data ∧ Text.decode? data = some text ∧
        headers = Include.scan text := by
  rw [Include.scanFile, result_andThen_eq_ok]
  simp only [readText, result_mapError_eq_ok, result_readFile_eq_ok]
  constructor
  · rintro ⟨text, ⟨data, hread, htext⟩, hheaders⟩
    exact ⟨data, text, hread, htext, (Except.ok.inj hheaders).symm⟩
  · rintro ⟨data, text, hread, htext, rfl⟩
    exact ⟨text, ⟨data, hread, htext⟩, rfl⟩

theorem exists_found_of_result_toSpec {reply : (c : Call) → c.Answer}
    (hs : (r.toSpec cwd base).result reply = .ok s) :
    ∃ found : List (Path × List String),
      (Sources.expand (Path.absolute cwd base) r.sources).result reply =
        .ok (found.map Prod.fst) ∧
      (∀ d ∈ found, (r.directivesOf (Path.absolute cwd base) d.1).result reply = .ok d.2) ∧
      s = (r.emptySpec (Path.absolute cwd base)).withAll found ∧
      s.sources = found.map Prod.fst ∧ s.directives = found.reverse := by
  obtain ⟨found, hexpand, hfound, rfl⟩ := result_toSpec_eq_ok.1 hs
  refine ⟨found, hexpand, hfound, rfl, ?_, ?_⟩
  · rw [Spec.sources_withAll, sources_emptySpec, List.nil_append]
  · rw [Spec.directives_withAll, directives_emptySpec, List.append_nil]

theorem exists_headers_of_mem_sources {reply : (c : Call) → c.Answer}
    (hs : (r.toSpec cwd base).result reply = .ok s) (hsource : source ∈ s.sources) :
    ∃ headers, s.directivesOf? source = some headers ∧
      (r.directivesOf (Path.absolute cwd base) source).result reply = .ok headers := by
  obtain ⟨found, hexpand, hfound, -, hsources, hdirectives⟩ := exists_found_of_result_toSpec hs
  have hdistinct : s.directives.Pairwise fun d e => d.1.components ≠ e.1.components := by
    rw [hdirectives, List.pairwise_reverse]
    exact (List.pairwise_map.1 (Sources.pairwise_of_result_expand hexpand)).imp Ne.symm
  rw [hsources] at hsource
  obtain ⟨d, hd, rfl⟩ := List.mem_map.1 hsource
  refine ⟨d.2, Spec.directivesOf?_of_mem hdistinct ?_, hfound d hd⟩
  rw [hdirectives]
  exact List.mem_reverse.2 hd

/-- New contents matter only to a source without declared headers. -/
theorem result_toSpec_refill {l : Location} {f : File} (data : ByteArray)
    (hf : fs.node? l = some (.file f)) (hs : (r.toSpec cwd base).result (h.seen fs) = .ok s)
    (hkeys : ∀ source ∈ s.sources, fs.find h.directory source = .ok (.file l f) →
      ∃ e ∈ r.includes, (Path.absolute cwd base / e.1).components = source.components) :
    (r.toSpec cwd base).result (h.seen (fs.refill l f data)) = .ok s := by
  obtain ⟨found, hexpand, hfound, hspec, hsources, -⟩ := exists_found_of_result_toSpec hs
  refine result_toSpec_eq_ok.2 ⟨found, ?_, fun d hd => ?_, hspec⟩
  · rw [← hexpand]
    refine (Sources.shallow_expand _ r.sources).result_congr fun c hc => ?_
    refine Host.seen_refill hf hc.isLooking fun p hp => ?_
    rw [hp] at hc
    exact hc.elim
  · rw [← hfound d hd]
    refine (callsOnly_directivesOf r _ d.1).result_congr fun c hc => ?_
    obtain ⟨hnone, rfl⟩ := hc
    refine Host.seen_refill hf trivial fun p hp hfind => ?_
    cases hp
    have hd : d.1 ∈ s.sources := by
      rw [hsources]
      exact List.mem_map_of_mem hd
    obtain ⟨e, he, hsame⟩ := hkeys d.1 hd hfind
    exact declared?_eq_none_iff.1 hnone e he hsame

/-- What a request becomes: the sources that its entries stand for, each with the headers declared
for it by the last key that is its path, or else with those in its text. New contents for a file
change nothing, unless some source without such a key leads to that file. -/
theorem spec_of_run_toSpec (hspec : (r.toSpec cwd base).run h w = (.ok s, w')) :
    let base' := Path.absolute cwd base
    ((Sources.expand base' r.sources).run h w).1 = .ok s.sources ∧
    s.sources.Pairwise (fun p q => p.components ≠ q.components) ∧
    (∀ p, (s.directivesOf? p).isSome ↔ ∃ source ∈ s.sources, source.components = p.components) ∧
    s.directives.map Prod.fst = s.sources.reverse ∧
    (∀ source ∈ s.sources, ∀ before key headers after,
      r.includes = before ++ (key, headers) :: after →
      (base' / key).components = source.components →
      (∀ e ∈ after, (base' / e.1).components ≠ source.components) →
      s.directivesOf? source = some headers) ∧
    (∀ source ∈ s.sources, (∀ e ∈ r.includes, (base' / e.1).components ≠ source.components) →
      ∃ data text, w.files.read h.directory source = .ok data ∧ Text.decode? data = some text ∧
        s.directivesOf? source = some (Include.scan text)) ∧
    ∀ l f data, w.files.node? l = some (.file f) →
      (∀ source ∈ s.sources, w.files.find h.directory source = .ok (.file l f) →
        ∃ e ∈ r.includes, (base' / e.1).components = source.components) →
      ((r.toSpec cwd base).run h { w with files := w.files.refill l f data }).1 = .ok s := by
  intro base'
  obtain ⟨hresult, -, -⟩ := (looking_toSpec (r := r) cwd base).run_looking (h := h) w
  rw [hspec] at hresult
  obtain ⟨found, hexpand, -, -, hsources, hdirectives⟩ :=
    exists_found_of_result_toSpec hresult.symm
  refine ⟨?_, ?_, ?_, ?_, ?_, ?_, ?_⟩
  · obtain ⟨hlook, -, -⟩ := ((Sources.shallow_expand base' r.sources).mono
      fun _ => Call.IsShallow.isLooking).run_looking (h := h) w
    rw [hlook, hexpand, hsources]
  · rw [hsources]
    exact Sources.pairwise_of_result_expand hexpand
  · intro p
    rw [Spec.isSome_directivesOf?_iff, hdirectives, hsources]
    simp
  · rw [hdirectives, hsources, List.map_reverse]
  · intro source hsource before key headers after hsplit hkey hafter
    obtain ⟨headers', hlookup, hheaders⟩ := exists_headers_of_mem_sources hresult.symm hsource
    rw [result_directivesOf_of_declares ⟨before, key, after, hsplit, hkey, hafter⟩] at hheaders
    rw [hlookup, Except.ok.inj hheaders]
  · intro source hsource hnone
    obtain ⟨headers, hlookup, hheaders⟩ := exists_headers_of_mem_sources hresult.symm hsource
    rw [directivesOf, declared?_eq_none_iff.2 hnone, result_mapError_eq_ok,
      result_scanFile_eq_ok] at hheaders
    obtain ⟨data, text, hread, htext, rfl⟩ := hheaders
    exact ⟨data, text, hread, htext, hlookup⟩
  · intro l f data hf hkeys
    obtain ⟨hrefilled, -, -⟩ := (looking_toSpec (r := r) cwd base).run_looking (h := h)
      { w with files := w.files.refill l f data }
    exact hrefilled.trans (result_toSpec_refill data hf hresult.symm hkeys)

/-- One source has declared headers, the other one is read. -/
theorem spec_of_run_toSpec_two_sources :
    let h : Host := ⟨["r"], fun _ fs => (.error .notFound, fs)⟩
    let b : File := ⟨.empty, false⟩
    let files := ((FileSystem.empty.putDirectories ["r"]).put ["r", "b.c"] (.file b)).put
      ["r", "a.c"] (.file ⟨"#include \"y.h\"\n".toUTF8, false⟩)
    let r : Request := { sources := ["b.c", "a.c"], includes := [(".//b.c", ["x.h"])] }
    ∃ s, ((r.toSpec ⟨"/r"⟩ ⟨"/r"⟩).run h { files }).1 = .ok s ∧
      s.directivesOf? ⟨"/r/b.c"⟩ = some ["x.h"] ∧ s.directivesOf? ⟨"/r/a.c"⟩ = some ["y.h"] ∧
      ((r.toSpec ⟨"/r"⟩ ⟨"/r"⟩).run h
        { files := files.refill ["r", "b.c"] b ⟨#[0xff]⟩ }).1 = .ok s := by
  intro h b files r
  have hsome : ((r.toSpec ⟨"/r"⟩ ⟨"/r"⟩).run h { files }).1.toOption.map Spec.sources =
      some [⟨"/r/b.c"⟩, ⟨"/r/a.c"⟩] := by
    decide +kernel
  obtain ⟨s, hs, hsources⟩ := Option.map_eq_some_iff.1 hsome
  have hspec := run_eq_ok_of_toOption hs
  obtain ⟨-, -, -, -, hdeclared, hscanned, hsame⟩ := spec_of_run_toSpec hspec
  have ha : (⟨"/r/a.c"⟩ : Path) ∈ s.sources := by simp [hsources]
  have hb : (⟨"/r/b.c"⟩ : Path) ∈ s.sources := by simp [hsources]
  obtain ⟨data, text, hread, htext, hlookup⟩ := hscanned ⟨"/r/a.c"⟩ ha (by decide +kernel)
  refine ⟨s, by rw [hspec], hdeclared _ hb [] _ _ [] rfl (by decide +kernel) nofun, ?_, ?_⟩
  · have hcontents : files.read h.directory ⟨"/r/a.c"⟩ = .ok "#include \"y.h\"\n".toUTF8 := by
      decide +kernel
    have hdecoded : Text.decode? "#include \"y.h\"\n".toUTF8 = some "#include \"y.h\"\n" := by
      decide +kernel
    obtain rfl := Except.ok.inj (hcontents.symm.trans hread)
    obtain rfl := Option.some.inj (hdecoded.symm.trans htext)
    rw [hlookup]
    decide +kernel
  · refine hsame _ _ _ (by decide +kernel) ?_
    rw [hsources]
    intro source hsource hfind
    rcases List.mem_cons.1 hsource with rfl | hsource
    · exact ⟨_, List.mem_cons_self, by decide +kernel⟩
    · rw [List.mem_singleton.1 hsource] at hfind
      have hother : files.find h.directory ⟨"/r/a.c"⟩ ≠ .ok (.file ["r", "b.c"] b) := by
        decide +kernel
      exact absurd hfind hother

/-- The contents of a file matter although a source that leads to it has declared headers: another
source with other components leads to the same file. -/
theorem toSpec_reads_declared_source_elsewhere :
    let h : Host := ⟨["r"], fun _ fs => (.error .notFound, fs)⟩
    let b : File := ⟨.empty, false⟩
    let files := ((FileSystem.empty.putDirectories ["r", "sub"]).put ["r", "b.c"] (.file b))
    let r : Request := { sources := ["b.c", "sub/../b.c"], includes := [("b.c", ["x.h"])] }
    let spec (fs : FileSystem) := ((r.toSpec ⟨"/r"⟩ ⟨"/r"⟩).run h { files := fs }).1.toOption
    (spec files).map Spec.sources = some [⟨"/r/b.c"⟩, ⟨"/r/sub/../b.c"⟩] ∧
      (spec files).bind (·.directivesOf? ⟨"/r/b.c"⟩) = some ["x.h"] ∧
      files.find h.directory ⟨"/r/b.c"⟩ = .ok (.file ["r", "b.c"] b) ∧
      spec (files.refill ["r", "b.c"] b ⟨#[0xff]⟩) = none := by
  decide +kernel

end Request

end CompileDriver
