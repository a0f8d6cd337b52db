import CompileDriver.Proofs.FileSystem.Extension
import CompileDriver.Proofs.Path.Parents
import Mathlib.Data.List.Infix

/-! # Places on the way of a path

A path passes through the places that its first steps lead to, and the last of them is where it
ends. A request to make or write something changes a file system only where its path ends.
-/

namespace CompileDriver

/-- The place that a step leads to from `l`. -/
def Component.next (l : Location) : Component → Location
  | .name s => l ++ [s]
  | .parent => l.dropLast
  | .root | .here => l

/-- The place that is looked at when a path has led to a target. -/
def Target.place : Target → Location
  | .directory l | .file l _ => l
  | .free l name => l ++ [name]

namespace Path

variable {cwd l : Location} {p q : Path}

/-- Where `p` ends, when it is seen from `cwd`. -/
def destination (cwd : Location) (p : Path) : Location :=
  p.steps.foldl Component.next (FileSystem.startOf cwd p)

/-- Some of the first steps of `p`, when it is seen from `cwd`, lead to `l`. -/
def Passes (cwd : Location) (p : Path) (l : Location) : Prop :=
  ∃ cs, cs <+: p.steps ∧ cs.foldl Component.next (FileSystem.startOf cwd p) = l

theorem passes_iff : p.Passes cwd l ↔
    l ∈ p.steps.inits.map fun cs => cs.foldl Component.next (FileSystem.startOf cwd p) := by
  simp [Passes]

instance : Decidable (p.Passes cwd l) := decidable_of_iff _ passes_iff.symm

theorem passes_destination (cwd : Location) (p : Path) : p.Passes cwd (p.destination cwd) :=
  ⟨p.steps, List.prefix_rfl, rfl⟩

theorem passes_of_mem_parents (h : q ∈ p.parents) : p.Passes cwd (q.destination cwd) := by
  obtain ⟨habs, hsteps⟩ := steps_prefix_of_mem_parents h
  exact ⟨q.steps, hsteps, by rw [destination, FileSystem.startOf, FileSystem.startOf, habs]⟩

theorem passes_of_isParentOf (hq : q.IsParentOf p) (hl : q.Passes cwd l) : p.Passes cwd l := by
  obtain ⟨cs, hcs, rfl⟩ := hl
  refine ⟨cs, hcs.trans hq.steps_prefix, ?_⟩
  rw [FileSystem.startOf, FileSystem.startOf, hq.isAbsolute]

end Path

namespace FileSystem

variable {fs fs' gs hs ks : FileSystem} {cwd k l : Location} {n : Node} {p : Path}
  {data : ByteArray} {D D' E F F' : Location → Prop}

theorem place_lookUp (fs : FileSystem) (l : Location) (name : String) :
    (fs.lookUp l name).place = l ++ [name] := by
  unfold lookUp
  split <;> rfl

theorem place_follow {t u : Target} {ps : List String} (h : fs.follow t ps = .ok u) :
    u.place = (ps.filterMap Component.ofPiece?).foldl Component.next t.place := by
  fun_induction follow fs t ps with
  | case1 t => cases h; rfl
  | case2 => cases h
  | case3 => cases h
  | case4 l p ps hp ih =>
    have hnone : Component.ofPiece? p = none := by rw [Component.ofPiece?, if_pos hp]
    rw [List.filterMap_cons_none hnone, ih h]
  | case5 l ps hp ih =>
    have hsome : Component.ofPiece? ".." = some .parent := rfl
    rw [List.filterMap_cons_some hsome, ih h]
    rfl
  | case6 => cases h
  | case7 l p ps hp hp' hlen ih =>
    have hsome : Component.ofPiece? p = some (.name p) := by
      rw [Component.ofPiece?, if_neg hp, if_neg hp']
    rw [List.filterMap_cons_some hsome, ih h, place_lookUp]
    rfl

theorem filterMap_withoutLastSlashes (ps : List String) :
    (withoutLastSlashes ps).filterMap Component.ofPiece? =
      ps.filterMap Component.ofPiece? := by
  have hdrop (qs : List String) : (qs.dropWhile (· == "")).filterMap Component.ofPiece? =
      qs.filterMap Component.ofPiece? := by
    induction qs with
    | nil => rfl
    | cons q qs ih =>
      by_cases hq : q = ""
      · subst hq
        exact ih
      · rw [List.dropWhile_cons_of_neg (by simpa using hq)]
  rw [withoutLastSlashes, List.filterMap_reverse, hdrop, List.filterMap_reverse,
    List.reverse_reverse]

theorem place_follow_steps {t : Target}
    (h : fs.follow (.directory (startOf cwd p)) (steps p) = .ok t) :
    t.place = p.destination cwd :=
  place_follow h

theorem place_follow_withoutLastSlashes {t : Target}
    (h : fs.follow (.directory (startOf cwd p)) (withoutLastSlashes (steps p)) = .ok t) :
    t.place = p.destination cwd := by
  rw [place_follow h, filterMap_withoutLastSlashes]
  rfl

/-! ## Requests that change a file system -/

theorem makeDirectory_eq_ok (h : fs.makeDirectory cwd p = .ok gs) :
    fs.node? (p.destination cwd) = none ∧ gs = fs.put (p.destination cwd) .directory := by
  obtain ⟨_, -, h⟩ := bind_eq_ok_iff.1 h
  obtain ⟨t, ht, h⟩ := bind_eq_ok_iff.1 h
  have hplace := place_follow_withoutLastSlashes ht
  cases t with
  | directory l => cases h
  | file l f => cases h
  | free l name =>
    cases h
    rw [← hplace]
    exact ⟨holds_of_follow ht, rfl⟩

theorem create_eq_ok (h : fs.create cwd p = .ok gs) :
    fs.node? (p.destination cwd) ≠ some .directory ∧
      ∃ f, gs = fs.put (p.destination cwd) (.file f) := by
  obtain ⟨_, -, h⟩ := bind_eq_ok_iff.1 h
  split at h
  · obtain ⟨t, -, h⟩ := bind_eq_ok_iff.1 h
    cases t <;> cases h
  · obtain ⟨t, ht, h⟩ := bind_eq_ok_iff.1 h
    have hholds := holds_of_follow ht
    rw [← place_follow_steps ht]
    cases t with
    | directory l => cases h
    | file l f =>
      cases h
      have hfile : fs.node? l = some (.file f) := hholds
      exact ⟨by simp [Target.place, hfile], _, rfl⟩
    | free l name =>
      cases h
      have hfree : fs.node? (l ++ [name]) = none := hholds
      exact ⟨by simp [Target.place, hfree], _, rfl⟩

theorem write_eq_ok (h : fs.write cwd p data = .ok gs) :
    fs.node? (p.destination cwd) ≠ some .directory ∧
      ∃ f, gs = fs.put (p.destination cwd) (.file f) := by
  obtain ⟨t, ht, h⟩ := bind_eq_ok_iff.1 h
  have ht := (find_eq_ok_iff.1 ht).2
  have hholds := holds_of_follow ht
  rw [← place_follow_steps ht]
  cases t with
  | directory l => cases h
  | free l name => cases h
  | file l f =>
    cases h
    have hfile : fs.node? l = some (.file f) := hholds
    exact ⟨by simp [Target.place, hfile], _, rfl⟩

/-! ## What may change -/

/-- From `fs` to `gs`, all that changes is that directories come into being at places in `D`, and
that there come to be files, or other files, at places in `F`. -/
def ChangesOnly (D F : Location → Prop) (fs gs : FileSystem) : Prop :=
  ∀ l, gs.node? l = fs.node? l ∨
    (D l ∧ fs.node? l = none ∧ gs.node? l = some .directory) ∨
    (F l ∧ fs.node? l ≠ some .directory ∧ ∃ f, gs.node? l = some (.file f))

namespace ChangesOnly

theorem refl (fs : FileSystem) : ChangesOnly D F fs fs := fun _ => Or.inl rfl

theorem trans (h : ChangesOnly D F fs gs) (h' : ChangesOnly D F gs hs) :
    ChangesOnly D F fs hs := by
  intro l
  rcases h l with heq | ⟨hD, hnone, hdir⟩ | ⟨hF, hfs, f, hfile⟩
  · rw [← heq]
    exact h' l
  · rcases h' l with heq' | ⟨-, hnone', -⟩ | ⟨-, hgs, -⟩
    · exact Or.inr (Or.inl ⟨hD, hnone, heq'.trans hdir⟩)
    · simp [hdir] at hnone'
    · exact absurd hdir hgs
  · rcases h' l with heq' | ⟨-, hnone', -⟩ | ⟨-, -, hfile'⟩
    · exact Or.inr (Or.inr ⟨hF, hfs, f, heq'.trans hfile⟩)
    · simp [hfile] at hnone'
    · exact Or.inr (Or.inr ⟨hF, hfs, hfile'⟩)

theorem mono (h : ChangesOnly D F fs gs) (hD : ∀ l, D l → D' l) (hF : ∀ l, F l → F' l) :
    ChangesOnly D' F' fs gs := by
  intro l
  rcases h l with h | ⟨hl, h⟩ | ⟨hl, h⟩
  · exact Or.inl h
  · exact Or.inr (Or.inl ⟨hD l hl, h⟩)
  · exact Or.inr (Or.inr ⟨hF l hl, h⟩)

theorem node?_cases (h : ChangesOnly D F fs gs) (hF : ¬ F l) :
    gs.node? l = fs.node? l ∨ (fs.node? l = none ∧ gs.node? l = some .directory) := by
  rcases h l with hsame | ⟨-, hnew⟩ | ⟨hl, -⟩
  · exact Or.inl hsame
  · exact Or.inr hnew
  · exact absurd hl hF

theorem node?_eq (h : ChangesOnly D F fs gs) (hD : ¬ D l) (hF : ¬ F l) :
    gs.node? l = fs.node? l := by
  rcases h l with hsame | ⟨hl, -⟩ | ⟨hl, -⟩
  · exact hsame
  · exact absurd hl hD
  · exact absurd hl hF

theorem keepsDirectories (h : ChangesOnly D F fs gs) : fs.KeepsDirectories gs := by
  intro l hl
  rcases h l with hsame | ⟨-, hnone, -⟩ | ⟨-, hfs, -⟩
  · exact hsame.trans hl
  · simp [hl] at hnone
  · exact absurd hl hfs

theorem node?_put_eq_or (fs : FileSystem) (l k : Location) (n : Node) :
    (fs.put l n).node? k = fs.node? k ∨ (k = l ∧ (fs.put l n).node? k = some n) := by
  cases hr : fs.hasRoomAt l with
  | false =>
    left
    rw [put_of_not_hasRoomAt hr]
  | true =>
    rw [node?_put hr]
    by_cases hk : k = l
    · exact Or.inr ⟨hk, if_pos hk⟩
    · exact Or.inl (if_neg hk)

theorem put (h : ChangesOnly D F fs gs) (hfs : fs.hasRoomAt l = true)
    (hgs : gs.hasRoomAt l = true) : ChangesOnly D F (fs.put l n) (gs.put l n) := by
  intro k
  rw [node?_put hfs, node?_put hgs]
  by_cases hk : k = l
  · rw [if_pos hk, if_pos hk]
    exact Or.inl rfl
  · rw [if_neg hk, if_neg hk]
    exact h k

/-- Where one group of changes may have been made, what the other group starts from decides. -/
theorem unique (hD : ∀ l, D l → gs.node? l = some .directory)
    (hF : ∀ l, F l → ¬ D' l ∧ ¬ F' l) (h : ChangesOnly D F fs hs) (h' : ChangesOnly D' F' gs hs)
    (hk : ChangesOnly D F fs ks) (hk' : ChangesOnly D' F' gs ks) : hs = ks := by
  ext1 l
  by_cases hl : D l
  · rw [h'.keepsDirectories l (hD l hl), hk'.keepsDirectories l (hD l hl)]
  · by_cases hl' : F l
    · rw [h'.node?_eq (hF l hl').1 (hF l hl').2, hk'.node?_eq (hF l hl').1 (hF l hl').2]
    · rw [h.node?_eq hl hl', hk.node?_eq hl hl']

theorem put_directory (hl : fs.node? l = none) (hD : D l) :
    ChangesOnly D F fs (fs.put l .directory) := by
  intro k
  rcases node?_put_eq_or fs l k .directory with h | ⟨rfl, h⟩
  · exact Or.inl h
  · exact Or.inr (Or.inl ⟨hD, hl, h⟩)

theorem put_file {f : File} (hl : fs.node? l ≠ some .directory) (hF : F l) :
    ChangesOnly D F fs (fs.put l (.file f)) := by
  intro k
  rcases node?_put_eq_or fs l k (.file f) with h | ⟨rfl, h⟩
  · exact Or.inl h
  · exact Or.inr (Or.inr ⟨hF, hl, f, h⟩)

end ChangesOnly

/-- From `fs` to `gs`, the places in `D` become directories, as far as they are none, and nothing
else changes. -/
structure Gains (D : Location → Prop) (fs gs : FileSystem) : Prop where
  directory : ∀ l, D l → gs.node? l = some .directory
  unchanged : ∀ l, ¬ D l → gs.node? l = fs.node? l

namespace Gains

theorem refl (fs : FileSystem) : Gains (fun _ => False) fs fs := ⟨nofun, fun _ _ => rfl⟩

theorem trans (h : Gains D fs gs) (h' : Gains E gs hs) : Gains (fun l => D l ∨ E l) fs hs where
  directory l hl := by
    by_cases hE : E l
    · exact h'.directory l hE
    · rw [h'.unchanged l hE]
      exact h.directory l (hl.resolve_right hE)
  unchanged l hl := by
    obtain ⟨hD, hE⟩ := not_or.1 hl
    rw [h'.unchanged l hE, h.unchanged l hD]

theorem congr (h : Gains D fs gs) (hDE : ∀ l, D l ↔ E l) : Gains E fs gs where
  directory l hl := h.directory l ((hDE l).2 hl)
  unchanged l hl := h.unchanged l fun hD => hl ((hDE l).1 hD)

theorem keepsDirectories (h : Gains D fs gs) : fs.KeepsDirectories gs := by
  intro l hl
  by_cases hD : D l
  · exact h.directory l hD
  · exact (h.unchanged l hD).trans hl

/-- What is gained decides what there is afterwards. -/
theorem unique (h : Gains D fs gs) (h' : Gains D fs hs) : gs = hs := by
  ext1 l
  by_cases hl : D l
  · rw [h.directory l hl, h'.directory l hl]
  · rw [h.unchanged l hl, h'.unchanged l hl]

theorem of_changesOnly (h : ChangesOnly D (fun _ => False) fs gs)
    (hdir : ∀ l, D l → gs.node? l = some .directory) : Gains D fs gs where
  directory := hdir
  unchanged l hl := by
    rcases h l with hsame | ⟨hD, -⟩ | ⟨hfalse, -⟩
    · exact hsame
    · exact absurd hD hl
    · exact hfalse.elim

/-- Where the same places have become directories, the other differences are left. -/
theorem changesOnly (h : Gains E fs fs') (h' : ChangesOnly (fun l => D l ∨ E l) F fs gs)
    (hdir : ∀ l, E l → gs.node? l = some .directory) : ChangesOnly D F fs' gs := by
  intro l
  by_cases hl : E l
  · exact Or.inl ((hdir l hl).trans (h.directory l hl).symm)
  · rw [h.unchanged l hl]
    rcases h' l with hsame | ⟨hD | hE, hnew⟩ | hfile
    · exact Or.inl hsame
    · exact Or.inr (Or.inl ⟨hD, hnew⟩)
    · exact absurd hE hl
    · exact Or.inr (Or.inr hfile)

end Gains

end FileSystem

end CompileDriver
