import CompileDriver.Proofs.FileSystem.Contents
import CompileDriver.Proofs.FileSystem.Places
import CompileDriver.Proofs.Path.Under

/-! # Equal subtrees

Two directories below which the same things lie, perhaps in two file systems, look the same to
requests for paths that go down from them.
-/

namespace CompileDriver

/-- The target as it is called in the directory above `k`. -/
def Target.below (k : Location) : Target → Target
  | .directory l => .directory (k ++ l)
  | .file l f => .file (k ++ l) f
  | .free l name => .free (k ++ l) name

namespace FileSystem

variable {fs gs : FileSystem} {cwd k l : Location} {p q : Path} {ns : List String}

def SameBelow (fs : FileSystem) (k : Location) (gs : FileSystem) (l : Location) : Prop :=
  ∀ m, gs.node? (l ++ m) = fs.node? (k ++ m)

/-- An absolute path to the directory `k`. -/
structure LeadsTo (fs : FileSystem) (p : Path) (k : Location) : Prop where
  absolute : p.isAbsolute = true
  nul_not_mem : '\x00' ∉ p.text.toList
  follow_steps : fs.follow (.directory []) (steps p) = .ok (.directory k)

theorem leadsTo_of_status (habs : p.isAbsolute = true) (h : fs.status cwd p = .ok .directory) :
    fs.LeadsTo p (p.destination cwd) := by
  obtain ⟨hcheck, l, hl⟩ := status_eq_directory_iff.1 h
  have hplace : l = p.destination cwd := place_follow_steps hl
  rw [startOf, if_pos habs, hplace] at hl
  refine ⟨habs, fun hnul => ?_, hl⟩
  rw [checkPath, if_pos (by simpa using hnul)] at hcheck
  cases hcheck

theorem LeadsTo.mono (h : fs.LeadsTo p k) (hdir : fs.KeepsDirectories gs) : gs.LeadsTo p k :=
  ⟨h.absolute, h.nul_not_mem, follow_directory hdir h.follow_steps⟩

theorem LeadsTo.node? (h : fs.LeadsTo p k) : fs.node? k = some .directory :=
  stands_follow (t := .directory []) fs.node?_nil h.follow_steps

theorem lookUp_below (h : fs.SameBelow k gs l) (m : Location) (name : String) :
    ∃ t : Target, fs.lookUp (k ++ m) name = t.below k ∧ gs.lookUp (l ++ m) name = t.below l := by
  rw [lookUp, lookUp, List.append_assoc, List.append_assoc, h]
  cases fs.node? (k ++ (m ++ [name])) with
  | none => exact ⟨.free m name, rfl, rfl⟩
  | some n =>
    cases n with
    | directory => exact ⟨.directory (m ++ [name]), rfl, rfl⟩
    | file f => exact ⟨.file (m ++ [name]) f, rfl, rfl⟩

theorem exists_follow_below (h : fs.SameBelow k gs l) (hns : ".." ∉ ns) (t : Target) :
    ∃ r : Except IoError Target, fs.follow (t.below k) ns = r.map (Target.below k) ∧
      gs.follow (t.below l) ns = r.map (Target.below l) := by
  induction ns generalizing t with
  | nil => exact ⟨.ok t, by simp [follow, Except.map], by simp [follow, Except.map]⟩
  | cons n ns ih =>
    obtain ⟨hn, hns⟩ := List.ne_and_not_mem_of_not_mem_cons hns
    cases t with
    | file m f => exact ⟨.error .notADirectory, rfl, rfl⟩
    | free m name => exact ⟨.error .notFound, rfl, rfl⟩
    | directory m =>
      simp only [Target.below, follow, if_neg hn.symm]
      by_cases htrivial : n = "" ∨ n = "."
      · rw [if_pos htrivial, if_pos htrivial]
        exact ih hns (.directory m)
      rw [if_neg htrivial, if_neg htrivial]
      by_cases hlong : longestName < n.utf8ByteSize
      · rw [if_pos hlong, if_pos hlong]
        exact ⟨.error .nameTooLong, rfl, rfl⟩
      · obtain ⟨u, hu, hu'⟩ := lookUp_below h m n
        rw [if_neg hlong, if_neg hlong, hu, hu']
        exact ih hns u

theorem find_under (cwd : Location) (hp : fs.LeadsTo p k) (hns : Path.Descends ns)
    (hshort : (p.under ns).text.utf8ByteSize ≤ longestPath) :
    fs.find cwd (p.under ns) =
      if ∃ n ∈ ns, '\x00' ∈ n.toList then .error .nulInName
      else fs.follow (.directory k) ns := by
  have habs := Path.isAbsolute_under hp.absolute ns
  have hfollow : fs.follow (.directory (startOf cwd (p.under ns))) (steps (p.under ns)) =
      fs.follow (.directory k) ns := by
    rw [startOf, if_pos habs, follow_steps_under hp.absolute hns.slash_not_mem, follow_append,
      hp.follow_steps]
    rfl
  have hnul := Path.nul_mem_under (p := p) hns.slash_not_mem
  rw [or_iff_right hp.nul_not_mem] at hnul
  rw [find, hfollow, checkPath, if_neg (Path.text_ne_empty_of_isAbsolute habs),
    if_neg hshort.not_gt]
  by_cases hmem : '\x00' ∈ (p.under ns).text.toList
  · rw [if_pos (by simpa using hmem), if_pos (hnul.1 hmem)]
    rfl
  · rw [if_neg (by simpa using hmem), if_neg (hnul.not.1 hmem)]
    rfl

theorem exists_find_under (cwd : Location) (hp : fs.LeadsTo p k) (hq : gs.LeadsTo q l)
    (h : fs.SameBelow k gs l) (hns : Path.Descends ns)
    (hpshort : (p.under ns).text.utf8ByteSize ≤ longestPath)
    (hqshort : (q.under ns).text.utf8ByteSize ≤ longestPath) :
    ∃ r : Except IoError Target, fs.find cwd (p.under ns) = r.map (Target.below k) ∧
      gs.find cwd (q.under ns) = r.map (Target.below l) := by
  rw [find_under cwd hp hns hpshort, find_under cwd hq hns hqshort]
  by_cases hnul : ∃ n ∈ ns, '\x00' ∈ n.toList
  · rw [if_pos hnul, if_pos hnul]
    exact ⟨.error .nulInName, rfl, rfl⟩
  · rw [if_neg hnul, if_neg hnul]
    have hfollow := exists_follow_below h (fun hmem => (hns _ hmem).2 rfl) (.directory [])
    simpa [Target.below] using hfollow

theorem status_under (hp : fs.LeadsTo p k) (hq : gs.LeadsTo q l)
    (h : fs.SameBelow k gs l) (hns : Path.Descends ns)
    (hpshort : (p.under ns).text.utf8ByteSize ≤ longestPath)
    (hqshort : (q.under ns).text.utf8ByteSize ≤ longestPath) :
    fs.status cwd (p.under ns) = gs.status cwd (q.under ns) := by
  obtain ⟨r, hr, hr'⟩ := exists_find_under cwd hp hq h hns hpshort hqshort
  rw [status, status, hr, hr']
  rcases r with e | t
  · rfl
  · cases t <;> rfl

theorem list_under (hp : fs.LeadsTo p k) (hq : gs.LeadsTo q l)
    (h : fs.SameBelow k gs l) (hns : Path.Descends ns)
    (hpshort : (p.under ns).text.utf8ByteSize ≤ longestPath)
    (hqshort : (q.under ns).text.utf8ByteSize ≤ longestPath) :
    fs.list cwd (p.under ns) = gs.list cwd (q.under ns) := by
  obtain ⟨r, hr, hr'⟩ := exists_find_under cwd hp hq h hns hpshort hqshort
  rw [list, list, hr, hr']
  rcases r with e | t
  · rfl
  · cases t with
    | file m f => rfl
    | free m name => rfl
    | directory m =>
      have hentries : fs.entries (k ++ m) = gs.entries (l ++ m) := by
        refine entries_congr fun name => ?_
        rw [List.append_assoc, List.append_assoc, h]
      exact congrArg Except.ok hentries

/-- The names below `k` are ones that a path can spell. -/
def HasPlainNames (fs : FileSystem) (k : Location) : Prop :=
  ∀ m name, fs.node? (k ++ m ++ [name]) ≠ none → (Component.name name).IsStep

theorem isStep_of_list_under {names : List (String × Bool)} (hp : fs.LeadsTo p k)
    (hplain : fs.HasPlainNames k) (hns : Path.Descends ns)
    (hshort : (p.under ns).text.utf8ByteSize ≤ longestPath)
    (hlist : fs.list cwd (p.under ns) = .ok names) :
    ∀ n ∈ names, (Component.name n.1).IsStep := by
  intro n hn
  have hself : fs.SameBelow k fs k := fun m => rfl
  obtain ⟨r, hr, -⟩ := exists_find_under cwd hp hp hself hns hshort hshort
  rw [list, hr] at hlist
  rcases r with e | t
  · cases hlist
  · cases t with
    | file m f => cases hlist
    | free m name => cases hlist
    | directory m =>
      cases hlist
      obtain ⟨node, hnode, -⟩ := mem_entries_iff.1 hn
      refine hplain m n.1 ?_
      rw [hnode]
      exact Option.some_ne_none node

end FileSystem

end CompileDriver
