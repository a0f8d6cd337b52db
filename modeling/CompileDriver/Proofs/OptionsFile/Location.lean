import CompileDriver.OptionsFile
import CompileDriver.Proofs.FileSystem.Making
import CompileDriver.Proofs.FileSystem.Subtree

/-! # Where options files lie

Seen from the working directory, a path leads where its steps lead from there. So an options file
lies in the directory that its request names for it, whatever the spelling of that directory.
-/

namespace CompileDriver

open FileSystem

namespace Path

variable {cwd p : Path} {k l : Location} {n : String}

theorem isAbsolute_div_eq (hn : '/' ∉ n.toList) : (p / n).isAbsolute = p.isAbsolute := by
  have hempty : p.text = "" → p.isAbsolute = false := fun hp => by rw [isAbsolute, hp]; rfl
  cases hp : p.text.toList with
  | nil =>
    have hp : p.text = "" := String.toList_inj.1 hp
    change (p.join ⟨n⟩).isAbsolute = _
    rw [join_of_text_eq hp, hempty hp, isAbsolute_eq_false_of_piece hn]
  | cons c s =>
    rw [isAbsolute, isAbsolute, text_div hn]
    split <;> simp [hp]

theorem endsInSlash_div (hn : '/' ∉ n.toList) (hne : n ≠ "") : (p / n).endsInSlash = false := by
  obtain ⟨s, hs⟩ : ∃ s, (p / n).text.toList = s ++ n.toList := by
    rw [text_div hn]
    split
    · exact ⟨p.text.toList, by simp⟩
    · exact ⟨p.text.toList ++ ['/'], by simp⟩
  rw [endsInSlash, hs, List.getLast?_append_of_ne_nil _ (by simpa using hne), beq_eq_false_iff_ne]
  exact fun h => hn (List.mem_of_getLast? h)

theorem place_eq_under (cs : List Component) (base : Path) :
    absolute.place cs base = base.under (cs.map Component.text) :=
  List.foldl_map.symm

theorem slash_not_mem_of_mem_steps {s : String} (hs : s ∈ p.steps.map Component.text) :
    '/' ∉ s.toList := by
  obtain ⟨c, hc, rfl⟩ := List.mem_map.1 hs
  exact (isStep_of_mem_steps hc).slash_not_mem

theorem steps_absolute (hcwd : cwd.isAbsolute = true) (hne : p.text ≠ "") :
    (absolute cwd p).isAbsolute = true ∧
      (absolute cwd p).steps = (if p.isAbsolute then [] else cwd.steps) ++ p.steps := by
  have hcomponents : (absolute cwd p).components = _ := components_absolute hne
  have hroot : cwd.components = .root :: cwd.steps := by
    rw [components_eq, start_eq_root_iff.2 hcwd]
    rfl
  rw [hroot] at hcomponents
  have habs : (absolute cwd p).isAbsolute = true := by
    rw [isAbsolute_iff, hcomponents]
    split <;> rfl
  refine ⟨habs, ?_⟩
  rw [components_eq, start_eq_root_iff.2 habs] at hcomponents
  cases hp : p.isAbsolute <;> rw [hp] at hcomponents <;>
    simpa [Start.components] using hcomponents

end Path

namespace FileSystem

variable {fs : FileSystem} {cwd p : Path} {k l : Location}

theorem follow_absolute (hcwd : fs.LeadsTo cwd k) (hne : p.text ≠ "")
    (hslash : p.endsInSlash = false) :
    fs.follow (.directory []) (steps (Path.absolute cwd p)) =
      fs.follow (.directory (startOf k p)) (p.steps.map Component.text) := by
  obtain ⟨base, hbase, heq⟩ := Path.exists_absolute_eq cwd hne
  have hroot : fs.follow (.directory []) (steps base) = .ok (.directory (startOf k p)) := by
    rcases hbase with ⟨habs, rfl | rfl⟩ | ⟨habs, rfl⟩
    · rw [startOf, if_pos habs]
      exact follow_of_forall_trivial (by decide)
    · rw [startOf, if_pos habs]
      exact follow_of_forall_trivial (by decide)
    · rw [startOf, habs]
      exact hcwd.follow_steps
  have habs : base.isAbsolute = true := by
    rcases hbase with ⟨-, rfl | rfl⟩ | ⟨-, rfl⟩
    · rfl
    · rfl
    · exact hcwd.absolute
  rw [heq, hslash, if_neg Bool.false_ne_true, Path.place_eq_under,
    follow_steps_under habs fun _ => Path.slash_not_mem_of_mem_steps, follow_append, hroot]
  rfl

theorem destination_absolute (hcwd : fs.LeadsTo cwd k) (hne : p.text ≠ "") :
    (Path.absolute cwd p).destination l = p.destination k := by
  obtain ⟨habs, hsteps⟩ := Path.steps_absolute hcwd.absolute hne
  have hplace : k = cwd.steps.foldl Component.next [] := place_follow hcwd.follow_steps
  rw [Path.destination, Path.destination, startOf, startOf, if_pos habs, hsteps, List.foldl_append]
  split
  · rfl
  · rw [← hplace]

end FileSystem

namespace OptionsFile

variable {fs : FileSystem} {cwd tempDir : Path} {k l : Location}

theorem steps_div_fileName (tempDir : Path) :
    (tempDir / fileName).steps = tempDir.steps ++ [.name fileName] :=
  Path.steps_join rfl

theorem text_div_fileName (tempDir : Path) : (tempDir / fileName).text ≠ "" := by
  intro hempty
  have hsteps := steps_div_fileName tempDir
  rw [Path.steps, hempty] at hsteps
  simp [Path.stepsIn_nil] at hsteps

theorem endsInSlash_location (cwd tempDir : Path) : (location cwd tempDir).endsInSlash = false := by
  obtain ⟨base, -, heq⟩ := Path.exists_absolute_eq cwd (text_div_fileName tempDir)
  have hslash : (tempDir / fileName).endsInSlash = false :=
    Path.endsInSlash_div (by decide) (by decide)
  rw [location, heq, hslash, if_neg Bool.false_ne_true, Path.place_eq_under, steps_div_fileName,
    List.map_append, List.map_singleton, Path.under_concat]
  exact Path.endsInSlash_div (by decide) (by decide)

theorem destination_location (hcwd : fs.LeadsTo cwd k) (tempDir : Path) :
    (location cwd tempDir).destination l = tempDir.destination k ++ [fileName] := by
  rw [location, destination_absolute hcwd (text_div_fileName tempDir), Path.destination,
    steps_div_fileName, List.foldl_append, startOf, Path.isAbsolute_div_eq (by decide)]
  rfl

theorem follow_location (hcwd : fs.LeadsTo cwd k) (hdir : fs.HasDirectory k tempDir) :
    fs.follow (.directory (startOf k (location cwd tempDir))) (steps (location cwd tempDir)) =
      .ok (fs.lookUp (tempDir.destination k) fileName) := by
  obtain ⟨habs, -⟩ := Path.steps_absolute hcwd.absolute (text_div_fileName tempDir)
  have hstart : startOf k (tempDir / fileName) = startOf k tempDir := by
    rw [startOf, startOf, Path.isAbsolute_div_eq (by decide)]
  rw [startOf, location, if_pos habs, follow_absolute hcwd (text_div_fileName tempDir)
    (Path.endsInSlash_div (by decide) (by decide)), hstart, steps_div_fileName, List.map_append,
    follow_append, follow_of_hasDirectory hdir]
  rfl

end OptionsFile

end CompileDriver
