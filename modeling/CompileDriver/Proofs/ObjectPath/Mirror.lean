import CompileDriver.Proofs.ObjectPath.Collision
import CompileDriver.Proofs.ObjectPath.Spelling
import Mathlib.Data.List.Basic

/-! # The tree below the object directory

The object directory repeats the tree of the sources. What is left of a source without its root is
repeated step by step, where `..` becomes a directory, and the last step gives way to the stem of
the source with the ending of object files.
-/

namespace CompileDriver

namespace ObjectPath

variable {source : Path} {root : Option Path}

/-- What is left of a source without its root, or all of it if it does not lie there. -/
def remainder (source : Path) : Option Path → List Component
  | some r =>
    if r.components <+: source.components then source.components.drop r.components.length
    else source.components
  | none => source.components

/-- The path `output` repeats, below `objects`, what is left of the source up to its last step. It
ends in the stem of the source, read as text, with the given ending. -/
def Mirrors (σ : Spelling) (objects source : Path) (suffix : String) (root : Option Path)
    (output : Path) : Prop :=
  let steps := (remainder source root).filter fun c => c ≠ .root ∧ c ≠ .here
  steps ≠ [] →
    ∃ stem, output.components =
        objects.components ++
          steps.dropLast.map (fun c => if c = .parent then .name "__" else c) ++
          [.name (σ.ofText (Text.decodeLossy (σ.encode stem) ++ suffix))] ∧
      ((source.components.getLast? = some .parent ∧ stem = "") ∨
        ∃ name, source.components.getLast? = some (.name name) ∧ Path.IsStem stem name)

theorem mirrored_eq_remainder (source : Path) (root : Option Path) :
    mirrored source root = remainder source root := by
  cases root with
  | none => rfl
  | some r =>
    by_cases hr : r.components <+: source.components <;>
      simp [remainder, mirrored, Path.below?, hr]

def directoryOf (c : Component) : Component := if c = .parent then .name "__" else c

theorem map_name_names (source : Path) (root : Option Path) :
    (names source root).map Component.name = (repeated source root).map directoryOf := by
  have hdirectory : ∀ c ∈ repeated source root,
      (directoryName? c).map Component.name = some (directoryOf c) := by
    intro c hc
    have hsome := (List.mem_filter.1 hc).2
    cases c with
    | root | here => cases hsome
    | parent | name s => rfl
  rw [← filterMap_repeated, List.map_filterMap]
  exact List.filterMap_eq_map_iff_forall_eq_some.2 hdirectory

theorem getLast?_components (h : repeated source root ≠ []) :
    source.components.getLast? = some ((repeated source root).getLast h) := by
  rw [Path.components_eq, ← rootSteps_append_repeated source root, ← List.append_assoc,
    List.getLast?_append, List.getLast?_eq_some_getLast h]
  rfl

theorem stem?_cases (h : repeated source root ≠ []) :
    (source.components.getLast? = some .parent ∧ source.stem?.getD "" = "") ∨
      ∃ name, source.components.getLast? = some (.name name) ∧
        Path.IsStem (source.stem?.getD "") name := by
  have hlast := getLast?_components h
  have hsome := (List.mem_filter.1 (List.getLast_mem h)).2
  rw [Path.stem?, Path.fileName?, hlast]
  cases hc : (repeated source root).getLast h with
  | root | here =>
    rw [hc] at hsome
    cases hsome
  | parent => exact Or.inl ⟨rfl, rfl⟩
  | name n => exact Or.inr ⟨n, rfl, Path.isStem_stemOf n⟩

theorem mirrors_of_isStep {σ : Spelling} {objects : Path} {suffix : String}
    (h : (Component.name (spelledName σ source suffix)).IsStep) :
    Mirrors σ objects source suffix root (ofSpelled σ objects source suffix root) := by
  intro hsteps
  have hrepeated : repeated source root =
      (remainder source root).filter fun c => c ≠ .root ∧ c ≠ .here := by
    rw [repeated, mirrored_eq_remainder]
    refine List.filter_congr fun c _ => ?_
    cases c <;> rfl
  rw [← hrepeated] at hsteps ⊢
  refine ⟨source.stem?.getD "", ?_, stem?_cases hsteps⟩
  rw [components_ofSpelled h, if_pos (repeated_ne_nil_iff.1 hsteps), List.map_dropLast,
    map_name_names, ← List.map_dropLast]
  rfl

/-! ## Names that are not text -/

theorem mem_text_of_mem_stem {c : Char} (hc : c ∈ (source.stem?.getD "").toList) :
    c ∈ source.text.toList := by
  cases hname : source.fileName? with
  | none => simp [Path.stem?, hname] at hc
  | some n =>
    rw [Path.stem?, hname, Option.map_some, Option.getD_some] at hc
    obtain ⟨cs, hcs⟩ := Path.fileName?_eq_some_iff.1 hname
    have hmem : .name n ∈ source.steps := by
      have hn : .name n ∈ source.start.components ++ source.steps := by
        rw [← Path.components_eq, hcs]
        simp
      refine (List.mem_append.1 hn).resolve_left fun h => ?_
      cases hstart : source.start <;> simp_all [Path.Start.components]
    obtain ⟨piece, hpiece, hn⟩ := List.mem_filterMap.1 hmem
    obtain ⟨s, hs, rfl⟩ := List.mem_map.1 hpiece
    obtain rfl : n = String.ofList s := Component.text_of_ofPiece? hn
    exact Text.mem_of_mem_pieces hs (by simpa using Path.mem_stemOf hc)

theorem slash_not_mem_decodeLossy_stem (data : ByteArray) :
    '/' ∉ (Text.decodeLossy
      (Spelling.bytes.encode ((Path.ofBytes data).stem?.getD ""))).toList := by
  intro hslash
  have hbyte := Text.slash_mem_of_mem_decodeLossy hslash
  rw [Spelling.encode, List.toList_toArray] at hbyte
  obtain ⟨c, hc, hslash⟩ := List.mem_map.1 hbyte
  have hmem := mem_text_of_mem_stem hc
  rw [Path.ofBytes, Spelling.spell, String.toList_ofList] at hmem
  obtain ⟨b, -, rfl⟩ := List.mem_map.1 hmem
  rw [Spelling.toNat_ofNat, UInt8.ofNat_toNat] at hslash
  subst hslash
  exact (Path.ofBytes data).slash_not_mem_stem hc

theorem isStep_spelledName_bytes (data : ByteArray) (family : Family) :
    (Component.name (spelledName .bytes (.ofBytes data) family.objectSuffix)).IsStep := by
  have hsuffix : Spelling.bytes.ofText family.objectSuffix = family.objectSuffix := by
    cases family <;> decide +kernel
  rw [spelledName, Spelling.ofText_append, hsuffix]
  exact isStep_append_objectSuffix family
    (mt Spelling.slash_mem_ofText (slash_not_mem_decodeLossy_stem data))

/-- The object file of a source repeats, below the object directory, the directories that lead to
the source from its root, or all of them if it does not lie there. Its name is the stem of the
source with the ending of object files. Paths are given by any bytes, of which the stem is read as
text; for paths that are text, the object file is the one that `of` gives. -/
theorem mirrors_source (family : Family) :
    (∀ (objects source : ByteArray) (root : Option ByteArray),
      Mirrors .bytes (.ofBytes objects) (.ofBytes source) family.objectSuffix (root.map .ofBytes)
        (ofSpelled .bytes (.ofBytes objects) (.ofBytes source) family.objectSuffix
          (root.map .ofBytes))) ∧
    ∀ (objects source : Path) (root : Option Path),
      let output := of objects source family.objectSuffix root
      Mirrors .text objects source family.objectSuffix root output ∧
      output.inBytes = ofSpelled .bytes objects.inBytes source.inBytes family.objectSuffix
        (root.map Path.inBytes) := by
  refine ⟨fun objects source root => ?_, fun objects source root => ⟨?_, ?_⟩⟩
  · exact mirrors_of_isStep (isStep_spelledName_bytes source family)
  · refine mirrors_of_isStep ?_
    rw [spelledName_text]
    exact isStep_fileName source family
  · exact of_inBytes objects source family.objectSuffix root

/-- Below an object directory that ends in a dot, a name that starts with dots and one that is not
UTF-8; beside it a source that ends in `..` and lies outside of the root. -/
theorem mirrors_source_dots :
    let root : Option Path := some ⟨"/p/."⟩
    let latin : ByteArray := "/p/src/../caf".toUTF8 ++ ⟨#[0xE9]⟩ ++ ".c".toUTF8
    (ofSpelled .bytes (.ofBytes "out/.".toUTF8) (.ofBytes latin) ".o"
        (some (.ofBytes "/p/.".toUTF8))).components =
      [.name "out", .name "src", .name "__", .name (Spelling.bytes.ofText "caf\uFFFD.o")] ∧
    (of ⟨"out/."⟩ ⟨"/p//src/../..c"⟩ ".o" root).components =
      [.name "out", .name "src", .name "__", .name "..o"] ∧
    (of ⟨"./.."⟩ ⟨"/q/net/../"⟩ ".obj" root).components =
      [.here, .parent, .name "q", .name "net", .name ".obj"] := by
  intro root latin
  have hlatin : (Path.ofBytes latin).components.getLast? =
      some (.name (Spelling.spell
        ("caf".toUTF8.data.toList ++ [0xE9] ++ ".c".toUTF8.data.toList))) := by
    decide +kernel
  have hname : (⟨"/p//src/../..c"⟩ : Path).components.getLast? = some (.name "..c") := by
    decide +kernel
  have hparent : (⟨"/q/net/../"⟩ : Path).components.getLast? = some .parent := by decide +kernel
  refine ⟨?_, ?_, ?_⟩
  · obtain ⟨stem, hof, ⟨hlast, -⟩ | ⟨name, hlast, hstem⟩⟩ :=
      (mirrors_source .gcc).1 "out/.".toUTF8 latin (some "/p/.".toUTF8) (by decide +kernel)
    · cases hlatin.symm.trans hlast
    · cases hlatin.symm.trans hlast
      refine hof.trans ?_
      rw [hstem.eq_stemOf]
      decide +kernel
  · obtain ⟨stem, hof, ⟨hlast, -⟩ | ⟨name, hlast, hstem⟩⟩ :=
      ((mirrors_source .gcc).2 ⟨"out/."⟩ ⟨"/p//src/../..c"⟩ root).1 (by decide +kernel)
    · cases hname.symm.trans hlast
    · cases hname.symm.trans hlast
      refine hof.trans ?_
      rw [hstem.eq_stemOf]
      decide +kernel
  · obtain ⟨stem, hof, ⟨-, rfl⟩ | ⟨name, hlast, -⟩⟩ :=
      ((mirrors_source .msvc).2 ⟨"./.."⟩ ⟨"/q/net/../"⟩ root).1 (by decide +kernel)
    · refine hof.trans ?_
      decide +kernel
    · cases hparent.symm.trans hlast

end ObjectPath

end CompileDriver
