import CompileDriver.ObjectPath
import CompileDriver.Proofs.Path.Components
import CompileDriver.Proofs.Text.Cutting
import CompileDriver.Proofs.Text.Decoding
import CompileDriver.Toolchain.Family

/-! # Where object files lie

An object file lies below the object directory, in directories that repeat those of its source. It
has the stem of the source. Only a source of which nothing is left to repeat has its object beside
the object directory instead, if that ends in a name.
-/

namespace CompileDriver

namespace Path

variable {p : Path} {n s : String} {c : Char}

theorem mem_stemOf (h : c ∈ (stemOf n).toList) : c ∈ n.toList := by
  unfold stemOf at h
  split at h
  · next before hcut =>
    split at h
    · exact h
    · obtain ⟨hn, -⟩ := Text.cutAt_eq_some_iff.1 hcut
      rw [List.reverse_eq_iff] at hn
      rw [hn]
      simp_all
  · exact h

theorem stemOf_ne_empty (h : n ≠ "") : stemOf n ≠ "" := by
  unfold stemOf
  split
  · split
    · exact h
    · simp_all
  · exact h

theorem stem?_ne_empty (h : p.stem? = some s) : s ≠ "" := by
  obtain ⟨n, hn, rfl⟩ := Option.map_eq_some_iff.1 h
  exact stemOf_ne_empty (isStep_of_fileName? hn).2.1

/-- The stem of a file name is what comes before its last dot. A name that has no dot, or one only
as its first character, is its own stem. -/
inductive IsStem : (stem name : String) → Prop where
  | whole {name} : '.' ∉ name.toList.tail → IsStem name name
  | beforeDot {stem ending} : stem ≠ "" → '.' ∉ ending.toList → IsStem stem (stem ++ "." ++ ending)

theorem isStem_stemOf (name : String) : IsStem (stemOf name) name := by
  unfold stemOf
  split
  · next ending before hcut =>
    obtain ⟨hname, hending⟩ := Text.cutAt_eq_some_iff.1 hcut
    rw [List.reverse_eq_iff] at hname
    split
    · next hbefore =>
      -- the only dot is the first character
      refine .whole ?_
      rw [hname, hbefore]
      simpa using hending
    · next hbefore =>
      obtain rfl : String.ofList before.reverse ++ "." ++ String.ofList ending.reverse = name := by
        rw [← String.toList_inj, hname]
        simp
      exact .beforeDot (by simpa [← String.toList_inj] using hbefore) (by simpa using hending)
  · next hcut =>
    have hdot := Text.not_mem_of_cutAt_eq_none hcut
    rw [List.mem_reverse] at hdot
    exact .whole fun h => hdot (List.mem_of_mem_tail h)

theorem IsStem.eq_stemOf (h : IsStem s n) : s = stemOf n := by
  cases h with
  | whole hdot =>
    unfold stemOf
    split
    · next before hcut =>
      obtain ⟨hn, -⟩ := Text.cutAt_eq_some_iff.1 hcut
      rw [List.reverse_eq_iff, List.reverse_append, List.reverse_cons, List.append_assoc] at hn
      split
      · rfl
      · next hbefore =>
        -- a dot after the first character
        refine absurd ?_ hdot
        obtain ⟨c, cs, hc⟩ := List.exists_cons_of_ne_nil (List.reverse_ne_nil_iff.2 hbefore)
        rw [hn, hc]
        simp
    · rfl
  | @beforeDot ending hs hending =>
    have hcut : Text.cutAt '.' (s ++ "." ++ ending).toList.reverse =
        some (ending.toList.reverse, s.toList.reverse) := by
      rw [Text.cutAt_eq_some_iff]
      exact ⟨by simp, by simpa using hending⟩
    rw [stemOf, hcut]
    simp [hs]

theorem slash_not_mem_stem (p : Path) : '/' ∉ (p.stem?.getD "").toList := by
  cases h : p.fileName? with
  | none => simp [stem?, h]
  | some n =>
    have hn : '/' ∉ n.toList := (isStep_of_fileName? h).1
    simpa [stem?, h] using fun hmem => hn (mem_stemOf hmem)

end Path

namespace ObjectPath

variable {σ : Spelling} {objects source : Path} {suffix : String} {root : Option Path}
  {c : Component}

/-- The name of the object file of a source, in the spelling of the source. -/
def spelledName (σ : Spelling) (source : Path) (suffix : String) : String :=
  σ.ofText (Text.decodeLossy (σ.encode (source.stem?.getD "")) ++ suffix)

def fileName (source : Path) (suffix : String) : String := source.stem?.getD "" ++ suffix

theorem spelledName_text (source : Path) (suffix : String) :
    spelledName .text source suffix = fileName source suffix :=
  congrArg (· ++ suffix) (Text.decodeLossy_toUTF8 (source.stem?.getD ""))

/-- The names that the steps of a source become below the object directory. -/
def names (source : Path) (root : Option Path) : List String :=
  (mirrored source root).filterMap directoryName?

theorem isStep_append_objectSuffix (family : Family) {stem : String} (h : '/' ∉ stem.toList) :
    (Component.name (stem ++ family.objectSuffix)).IsStep := by
  -- the name ends in a letter
  have hlast (s : String) (hs : s.toList.getLast?.all (fun c => c = '.') = true) :
      stem ++ family.objectSuffix ≠ s := by
    rintro rfl
    cases family <;> simp [Family.objectSuffix] at hs
  refine ⟨?_, hlast "" rfl, hlast "." rfl, hlast ".." rfl⟩
  cases family <;> simpa [Family.objectSuffix] using h

theorem isStep_fileName (source : Path) (family : Family) :
    (Component.name (fileName source family.objectSuffix)).IsStep :=
  isStep_append_objectSuffix family source.slash_not_mem_stem

theorem mem_components_of_mem_mirrored (h : c ∈ mirrored source root) :
    c ∈ source.components := by
  unfold mirrored at h
  cases hbelow : root.bind source.below? with
  | none => simpa [hbelow] using h
  | some cs =>
    obtain ⟨r, -, hr⟩ := Option.bind_eq_some_iff.1 hbelow
    unfold Path.below? at hr
    split at hr
    · cases hr
      exact List.mem_of_mem_drop (by simpa [hbelow] using h)
    · cases hr

theorem isStep_of_mem_names {s : String} (h : s ∈ names source root) :
    (Component.name s).IsStep := by
  obtain ⟨c, hc, hs⟩ := List.mem_filterMap.1 h
  cases c with
  | root | here => cases hs
  | parent =>
    cases hs
    simp [Component.IsStep]
  | name n =>
    cases hs
    simpa using Path.mem_components (mem_components_of_mem_mirrored hc)

/-- The directories of an object file repeat those of its source, and its name has the stem of its
source. If nothing is repeated, a name at the end of the object directory gives way to it. -/
theorem components_ofSpelled (h : (Component.name (spelledName σ source suffix)).IsStep) :
    (ofSpelled σ objects source suffix root).components =
      (if names source root ≠ [] then
        objects.components ++ (names source root).dropLast.map .name
      else if objects.fileName? = none then objects.components
      else objects.components.dropLast) ++ [.name (spelledName σ source suffix)] := by
  have hplace : ((names source root).foldl (· / ·) objects).components =
      objects.components ++ (names source root).map .name := by
    have hsteps : ∀ c ∈ (names source root).map Component.name, c.IsStep := by
      intro c hc
      obtain ⟨s, hs, rfl⟩ := List.mem_map.1 hc
      exact isStep_of_mem_names hs
    rw [← Path.components_place hsteps, Path.absolute.place, List.foldl_map]
    rfl
  have hof : ofSpelled σ objects source suffix root =
      ((names source root).foldl (· / ·) objects).withFileName (spelledName σ source suffix) := rfl
  rw [hof, Path.components_withFileName h]
  by_cases hnames : names source root = []
  · rw [hnames, List.foldl_nil, if_neg (not_not_intro rfl)]
  · have hmap : (names source root).map Component.name ≠ [] := by simpa using hnames
    have hlast : ((names source root).foldl (· / ·) objects).fileName? ≠ none := by
      obtain ⟨s, hs⟩ := Option.isSome_iff_exists.1
        (by simpa using hnames : (names source root).getLast?.isSome)
      simp [Path.fileName?, hplace, List.getLast?_append, hs, Component.name?]
    rw [if_neg hlast, if_pos hnames, hplace, List.dropLast_append_of_ne_nil hmap,
      List.map_dropLast]

theorem components_of (h : (Component.name (fileName source suffix)).IsStep) :
    (of objects source suffix root).components =
      (if names source root ≠ [] then
        objects.components ++ (names source root).dropLast.map .name
      else if objects.fileName? = none then objects.components
      else objects.components.dropLast) ++ [.name (fileName source suffix)] := by
  rw [← spelledName_text] at h ⊢
  exact components_ofSpelled h

/-- An object file lies below the object directory, unless its source leaves nothing to repeat and
the object directory ends in a name. -/
theorem of_inside_iff (objects source : Path) (family : Family) (root : Option Path) :
    (∃ below : List Component, below ≠ [] ∧ .parent ∉ below ∧
      (of objects source family.objectSuffix root).components = objects.components ++ below) ↔
    names source root ≠ [] ∨ objects.fileName? = none := by
  rw [components_of (isStep_fileName source family)]
  by_cases hnames : names source root = []
  · rw [if_neg (not_not_intro hnames)]
    cases hlast : objects.fileName? with
    | none => exact iff_of_true ⟨[_], by simp, by simp, rfl⟩ (Or.inr rfl)
    | some n =>
      -- the object file has as many components as the object directory
      refine iff_of_false ?_ (by simp [hnames])
      rintro ⟨below, hne, -, h⟩
      obtain ⟨cs, hcs⟩ := Path.fileName?_eq_some_iff.1 hlast
      rw [if_neg nofun, hcs, List.dropLast_concat] at h
      have hlength := congrArg List.length h
      simp only [List.length_append, List.length_singleton] at hlength
      exact hne (List.eq_nil_of_length_eq_zero (by omega))
  · rw [if_pos hnames]
    have hparent (below : List String) (f : String) :
        Component.parent ∉ below.map Component.name ++ [.name f] := by simp
    refine iff_of_true ⟨_, ?_, hparent _ _, List.append_assoc _ _ _⟩ (Or.inl hnames)
    simp

/-- A source that is its own root leaves nothing to repeat, and its object file lies beside the
object directory. -/
theorem of_outside_of_source_eq_root :
    let objects : Path := ⟨"/out/obj"⟩
    let source : Path := ⟨"/project/a.c"⟩
    of objects source Family.gcc.objectSuffix (some source) = ⟨"/out/a.o"⟩ ∧
      ¬ ∃ below : List Component, below ≠ [] ∧ .parent ∉ below ∧
        (of objects source Family.gcc.objectSuffix (some source)).components =
          objects.components ++ below := by
  intro objects source
  have hof : of objects source Family.gcc.objectSuffix (some source) = ⟨"/out/a.o"⟩ := by
    decide +kernel
  have hfile : (⟨"/out/a.o"⟩ : Path).components = [.root, .name "out", .name "a.o"] := by
    decide +kernel
  have hobjects : objects.components = [.root, .name "out", .name "obj"] := by decide +kernel
  refine ⟨hof, ?_⟩
  rintro ⟨below, -, -, h⟩
  rw [hof, hfile, hobjects] at h
  simp at h

end ObjectPath

end CompileDriver
