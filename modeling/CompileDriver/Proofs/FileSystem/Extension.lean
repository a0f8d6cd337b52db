import CompileDriver.FileSystem.Walk
import Mathlib.Order.Defs.PartialOrder

/-! # Growing file systems

File systems are ordered by what they hold: a larger one has every node of a smaller one,
unchanged. Making a directory leads to a larger file system, where the directory can be seen, and a
file that can be read stays readable with the same contents. What has been written to a file is read
from it.
-/

namespace CompileDriver

theorem bind_eq_ok_iff {ε α β : Type} {x : Except ε α} {f : α → Except ε β} {b : β} :
    (x >>= f) = .ok b ↔ ∃ a, x = .ok a ∧ f a = .ok b := by
  cases x <;> simp [bind, Except.bind]

namespace FileSystem

variable {fs gs : FileSystem} {cwd k l : Location} {n : Node} {p : Path} {data : ByteArray}

/-- Everything in the smaller file system is in the larger one, unchanged. -/
instance : PartialOrder FileSystem where
  le fs gs := ∀ l n, fs.node? l = some n → gs.node? l = some n
  le_refl _ _ _ h := h
  le_trans _ _ _ h h' l n hn := h' l n (h l n hn)
  le_antisymm fs gs h h' := ext fun l => by
    cases hf : fs.node? l with
    | some n => exact (h l n hf).symm
    | none =>
      cases hg : gs.node? l with
      | some n => simp [h' l n hg] at hf
      | none => rfl

theorem node?_of_le (h : fs ≤ gs) (hn : fs.node? l = some n) : gs.node? l = some n := h l n hn

theorem le_put (h : fs.node? l = none) : fs ≤ fs.put l n := by
  intro k m hm
  cases hr : fs.hasRoomAt l with
  | false => rwa [put_of_not_hasRoomAt hr]
  | true =>
    have hk : k ≠ l := by
      rintro rfl
      simp [h] at hm
    rwa [node?_put hr, if_neg hk]

theorem hasRoomAt_of_file {f : File} (h : fs.node? l = some (.file f)) :
    fs.hasRoomAt l = true := by
  simp [hasRoomAt, node?_dropLast fs h, h]

/-- What a target says about the place it leads to. -/
def Holds (fs : FileSystem) : Target → Prop
  | .directory _ => True
  | .file l f => fs.node? l = some (.file f)
  | .free l name => fs.node? (l ++ [name]) = none

theorem holds_lookUp (name : String) : fs.Holds (fs.lookUp l name) := by
  unfold lookUp
  split <;> simp_all [Holds]

theorem holds_follow {t u : Target} {ps : List String} (ht : fs.Holds t)
    (h : fs.follow t ps = .ok u) : fs.Holds u := by
  fun_induction follow fs t ps with
  | case1 t => cases h; exact ht
  | case2 => cases h
  | case3 => cases h
  | case4 l p ps hp ih => exact ih trivial h
  | case5 l ps hp ih => exact ih trivial h
  | case6 => cases h
  | case7 l p ps hp hp' hlen ih => exact ih (holds_lookUp p) h

theorem holds_of_follow {u : Target} {ps : List String}
    (h : fs.follow (.directory k) ps = .ok u) : fs.Holds u :=
  holds_follow (t := .directory k) trivial h

theorem find_eq_ok_iff {t : Target} :
    fs.find cwd p = .ok t ↔
      checkPath p = .ok () ∧ fs.follow (.directory (startOf cwd p)) (steps p) = .ok t := by
  rw [find, bind_eq_ok_iff]
  exact ⟨fun ⟨_, hc, ht⟩ => ⟨hc, ht⟩, fun ⟨hc, ht⟩ => ⟨(), hc, ht⟩⟩

def KeepsDirectories (fs gs : FileSystem) : Prop :=
  ∀ l, fs.node? l = some .directory → gs.node? l = some .directory

theorem keepsDirectories_of_le (h : fs ≤ gs) : fs.KeepsDirectories gs := fun _ => node?_of_le h

theorem keepsDirectories_put (fs : FileSystem) (l : Location) (n : Node) :
    fs.KeepsDirectories (fs.put l n) := by
  intro k hk
  cases hr : fs.hasRoomAt l with
  | false => rwa [put_of_not_hasRoomAt hr]
  | true =>
    have hkl : k ≠ l := by
      rintro rfl
      simp [hasRoomAt, hk] at hr
    rwa [node?_put hr, if_neg hkl]

/-- Where the directories are kept, a path leads to the same directory, or it ends in a name that is
looked up in the same directory. -/
theorem follow_of_directories {t : Target} {ps : List String}
    (hdir : fs.KeepsDirectories gs)
    (h : fs.follow (.directory k) ps = .ok t) :
    (∃ l, t = .directory l ∧ gs.follow (.directory k) ps = .ok t) ∨
      ∃ l name, t = fs.lookUp l name ∧ gs.follow (.directory k) ps = .ok (gs.lookUp l name) := by
  induction ps generalizing k with
  | nil =>
    cases h
    exact Or.inl ⟨k, rfl, rfl⟩
  | cons p ps ih =>
    rw [follow] at h ⊢
    by_cases htrivial : p = "" ∨ p = "."
    · rw [if_pos htrivial] at h ⊢
      exact ih h
    by_cases hparent : p = ".."
    · rw [if_neg htrivial, if_pos hparent] at h ⊢
      exact ih h
    by_cases hlong : longestName < p.utf8ByteSize
    · rw [if_neg htrivial, if_neg hparent, if_pos hlong] at h
      cases h
    rw [if_neg htrivial, if_neg hparent, if_neg hlong] at h ⊢
    by_cases hk : fs.node? (k ++ [p]) = some .directory
    · rw [lookUp, hk] at h
      rw [lookUp, hdir _ hk]
      exact ih h
    · -- what is no directory is the end of the path
      cases ps with
      | nil =>
        cases h
        exact Or.inr ⟨k, p, rfl, rfl⟩
      | cons q qs =>
        unfold lookUp at h
        split at h
        · next hk' => exact absurd hk' hk
        · cases h
        · cases h

theorem follow_file {f g : File} {ps : List String}
    (hdir : fs.KeepsDirectories gs)
    (hfile : gs.node? l = some (.file g)) (h : fs.follow (.directory k) ps = .ok (.file l f)) :
    gs.follow (.directory k) ps = .ok (.file l g) := by
  rcases follow_of_directories hdir h with ⟨_, hl, -⟩ | ⟨m, name, hm, hgs⟩
  · cases hl
  · unfold lookUp at hm
    split at hm <;> cases hm
    rw [hgs, lookUp, hfile]

theorem follow_directory {ps : List String}
    (hdir : fs.KeepsDirectories gs)
    (h : fs.follow (.directory k) ps = .ok (.directory l)) :
    gs.follow (.directory k) ps = .ok (.directory l) := by
  rcases follow_of_directories hdir h with ⟨_, -, hgs⟩ | ⟨m, name, hm, hgs⟩
  · exact hgs
  · unfold lookUp at hm
    split at hm <;> cases hm
    next hnode => rw [hgs, lookUp, hdir _ hnode]

theorem follow_free {name : String} {ps : List String}
    (hdir : fs.KeepsDirectories gs)
    (hnew : gs.node? (l ++ [name]) = some .directory)
    (h : fs.follow (.directory k) ps = .ok (.free l name)) :
    gs.follow (.directory k) ps = .ok (.directory (l ++ [name])) := by
  rcases follow_of_directories hdir h with ⟨_, hl, -⟩ | ⟨m, name, hm, hgs⟩
  · cases hl
  · unfold lookUp at hm
    split at hm <;> cases hm
    rw [hgs, lookUp, hnew]

theorem read_of_write (h : fs.write cwd p data = .ok gs) : gs.read cwd p = .ok data := by
  obtain ⟨t, ht, h⟩ := bind_eq_ok_iff.1 h
  have hholds := holds_of_follow (find_eq_ok_iff.1 ht).2
  cases t with
  | directory l => cases h
  | free l name => cases h
  | file l f =>
    cases h
    have hroom := hasRoomAt_of_file hholds
    have hfile : (fs.put l (.file { f with contents := data })).node? l =
        some (.file { f with contents := data }) := by
      rw [node?_put hroom, if_pos rfl]
    have hdir := keepsDirectories_put fs l (.file { f with contents := data })
    obtain ⟨hc, ht⟩ := find_eq_ok_iff.1 ht
    exact bind_eq_ok_iff.2 ⟨_, find_eq_ok_iff.2 ⟨hc, follow_file hdir hfile ht⟩, rfl⟩

theorem exists_status_of_read (h : fs.read cwd p = .ok data) :
    ∃ x, fs.status cwd p = .ok (.file x) := by
  obtain ⟨t, ht, h⟩ := bind_eq_ok_iff.1 h
  cases t with
  | directory l => cases h
  | free l name => cases h
  | file l f => exact ⟨f.executable, bind_eq_ok_iff.2 ⟨_, ht, rfl⟩⟩

theorem endsInSlash_of_create (h : fs.create cwd p = .ok gs) : p.endsInSlash = false := by
  obtain ⟨_, -, h⟩ := bind_eq_ok_iff.1 h
  split at h
  · obtain ⟨t, -, h⟩ := bind_eq_ok_iff.1 h
    cases t <;> cases h
  · next hslash => simpa using hslash

/-- Writing to a file what it holds leaves everything as it was. -/
theorem exists_create_write_of_read (hslash : p.endsInSlash = false)
    (h : fs.read cwd p = .ok data) :
    ∃ gs, fs.create cwd p = .ok gs ∧ gs.write cwd p data = .ok fs := by
  obtain ⟨t, ht, h⟩ := bind_eq_ok_iff.1 h
  obtain ⟨hcheck, ht⟩ := find_eq_ok_iff.1 ht
  cases t with
  | directory l => cases h
  | free l name => cases h
  | file l f =>
    cases h
    have hfile : fs.node? l = some (.file f) := holds_of_follow ht
    have hroom := hasRoomAt_of_file hfile
    have hempty : (fs.put l (.file { f with contents := .empty })).node? l =
        some (.file { f with contents := .empty }) := by
      rw [node?_put hroom, if_pos rfl]
    refine ⟨fs.put l (.file { f with contents := .empty }), ?_, ?_⟩
    · rw [create, hcheck]
      change (if p.endsInSlash = true then _ else _) = _
      rw [if_neg (by simp [hslash]), ht]
      rfl
    · have hdir := keepsDirectories_put fs l (.file { f with contents := .empty })
      refine bind_eq_ok_iff.2 ⟨_, find_eq_ok_iff.2 ⟨hcheck, follow_file hdir hempty ht⟩, ?_⟩
      refine congrArg Except.ok (ext fun k => ?_)
      rw [node?_put (hasRoomAt_of_file hempty), node?_put hroom]
      by_cases hk : k = l
      · rw [if_pos hk, hk, hfile]
      · rw [if_neg hk, if_neg hk]

theorem read_of_le (hle : fs ≤ gs) (h : fs.read cwd p = .ok data) : gs.read cwd p = .ok data := by
  obtain ⟨t, ht, h⟩ := bind_eq_ok_iff.1 h
  obtain ⟨hc, ht⟩ := find_eq_ok_iff.1 ht
  cases t with
  | directory l => cases h
  | free l name => cases h
  | file l f =>
    have hfile := node?_of_le hle (holds_of_follow ht)
    have ht := follow_file (keepsDirectories_of_le hle) hfile ht
    exact bind_eq_ok_iff.2 ⟨_, find_eq_ok_iff.2 ⟨hc, ht⟩, h⟩

theorem le_of_makeDirectory (h : fs.makeDirectory cwd p = .ok gs) : fs ≤ gs := by
  obtain ⟨_, -, h⟩ := bind_eq_ok_iff.1 h
  obtain ⟨t, ht, h⟩ := bind_eq_ok_iff.1 h
  cases t with
  | directory l => cases h
  | file l f => cases h
  | free l name =>
    cases h
    exact le_put (holds_of_follow ht)

theorem keepsDirectories_of_makeDirectory (h : fs.makeDirectory cwd p = .ok gs) :
    fs.KeepsDirectories gs := keepsDirectories_of_le (le_of_makeDirectory h)

theorem keepsDirectories_of_create (h : fs.create cwd p = .ok gs) : fs.KeepsDirectories gs := by
  obtain ⟨_, -, h⟩ := bind_eq_ok_iff.1 h
  split at h
  · obtain ⟨t, -, h⟩ := bind_eq_ok_iff.1 h
    cases t <;> cases h
  · obtain ⟨t, -, h⟩ := bind_eq_ok_iff.1 h
    cases t <;> cases h
    all_goals exact keepsDirectories_put _ _ _

theorem keepsDirectories_of_write (h : fs.write cwd p data = .ok gs) : fs.KeepsDirectories gs := by
  obtain ⟨t, -, h⟩ := bind_eq_ok_iff.1 h
  cases t <;> cases h
  exact keepsDirectories_put _ _ _

/-! ## Directories that have been made -/

/-- The directory that a target is, or that would hold its name, exists. -/
def Stands (fs : FileSystem) : Target → Prop
  | .directory l | .free l _ => fs.node? l = some .directory
  | .file .. => True

theorem stands_lookUp (hl : fs.node? l = some .directory) (name : String) :
    fs.Stands (fs.lookUp l name) := by
  unfold lookUp
  split <;> simp_all [Stands]

theorem stands_follow {t u : Target} {ps : List String} (ht : fs.Stands t)
    (h : fs.follow t ps = .ok u) : fs.Stands u := by
  fun_induction follow fs t ps with
  | case1 t => cases h; exact ht
  | case2 => cases h
  | case3 => cases h
  | case4 l p ps hp ih => exact ih ht h
  | case5 l ps hp ih => exact ih (node?_dropLast fs ht) h
  | case6 => cases h
  | case7 l p ps hp hp' hlen ih => exact ih (stands_lookUp ht p) h

theorem follow_append (t : Target) (ps qs : List String) :
    fs.follow t (ps ++ qs) = fs.follow t ps >>= fun u => fs.follow u qs := by
  fun_induction follow fs t ps with
  | case1 t => rfl
  | case2 => rfl
  | case3 => rfl
  | case4 l p ps hp ih => rw [List.cons_append, follow, if_pos hp, ih]
  | case5 l ps hp ih => rw [List.cons_append, follow, if_neg hp, if_pos rfl, ih]
  | case6 l p ps hp hp' hlen =>
    rw [List.cons_append, follow, if_neg hp, if_neg hp', if_pos hlen]
    rfl
  | case7 l p ps hp hp' hlen ih =>
    rw [List.cons_append, follow, if_neg hp, if_neg hp', if_neg hlen, ih]

theorem follow_of_forall_trivial {ps : List String} (h : ∀ p ∈ ps, p = "" ∨ p = ".") :
    fs.follow (.directory k) ps = .ok (.directory k) := by
  induction ps with
  | nil => rfl
  | cons p ps ih =>
    rw [follow, if_pos (h p List.mem_cons_self)]
    exact ih fun q hq => h q (List.mem_cons_of_mem p hq)

theorem exists_withoutLastSlashes_append (ps : List String) :
    ∃ qs, ps = withoutLastSlashes ps ++ qs ∧ ∀ q ∈ qs, q = "" := by
  refine ⟨(ps.reverse.takeWhile (· == "")).reverse, ?_, fun q hq => ?_⟩
  · rw [withoutLastSlashes, ← List.reverse_append, List.takeWhile_append_dropWhile,
      List.reverse_reverse]
  · simpa using List.all_eq_true.1 List.all_takeWhile q (List.mem_reverse.1 hq)

theorem follow_withoutLastSlashes_iff {ps : List String} :
    fs.follow (.directory k) (withoutLastSlashes ps) = .ok (.directory l) ↔
      fs.follow (.directory k) ps = .ok (.directory l) := by
  obtain ⟨qs, hps, hqs⟩ := exists_withoutLastSlashes_append ps
  have hfollow : fs.follow (.directory k) ps =
      fs.follow (.directory k) (withoutLastSlashes ps) >>= fun t => fs.follow t qs := by
    rw [← follow_append, ← hps]
  have htrivial : ∀ q ∈ qs, q = "" ∨ q = "." := fun q hq => Or.inl (hqs q hq)
  rw [hfollow]
  constructor
  · intro h
    rw [h]
    exact follow_of_forall_trivial htrivial
  · intro h
    obtain ⟨t, ht, h⟩ := bind_eq_ok_iff.1 h
    rw [ht]
    cases t with
    | directory m =>
      rw [follow_of_forall_trivial htrivial] at h
      exact h
    | file m f => cases qs <;> cases h
    | free m name => cases qs <;> cases h

theorem status_eq_directory_iff :
    fs.status cwd p = .ok .directory ↔
      checkPath p = .ok () ∧
        ∃ l, fs.follow (.directory (startOf cwd p)) (steps p) = .ok (.directory l) := by
  rw [status, bind_eq_ok_iff]
  constructor
  · rintro ⟨t, ht, h⟩
    obtain ⟨hcheck, ht⟩ := find_eq_ok_iff.1 ht
    cases t <;> cases h
    exact ⟨hcheck, _, ht⟩
  · rintro ⟨hcheck, l, hl⟩
    exact ⟨_, find_eq_ok_iff.2 ⟨hcheck, hl⟩, rfl⟩

theorem status_of_keepsDirectories (hdir : fs.KeepsDirectories gs)
    (h : fs.status cwd p = .ok .directory) : gs.status cwd p = .ok .directory := by
  obtain ⟨hcheck, l, hl⟩ := status_eq_directory_iff.1 h
  exact status_eq_directory_iff.2 ⟨hcheck, l, follow_directory hdir hl⟩

theorem stands_startOf (hcwd : fs.node? cwd = some .directory) (p : Path) :
    fs.Stands (.directory (startOf cwd p)) := by
  unfold startOf
  split
  · exact fs.node?_nil
  · exact hcwd

theorem status_of_makeDirectory (hcwd : fs.node? cwd = some .directory)
    (h : fs.makeDirectory cwd p = .ok gs) : gs.status cwd p = .ok .directory := by
  have hle := le_of_makeDirectory h
  obtain ⟨_, hcheck, h⟩ := bind_eq_ok_iff.1 h
  obtain ⟨t, ht, h⟩ := bind_eq_ok_iff.1 h
  cases t with
  | directory l => cases h
  | file l f => cases h
  | free l name =>
    cases h
    have hl : fs.node? l = some .directory := stands_follow (stands_startOf hcwd p) ht
    have hfree : fs.node? (l ++ [name]) = none := holds_of_follow ht
    have hroom : fs.hasRoomAt (l ++ [name]) = true := by simp [hasRoomAt, hl, hfree]
    have hnew : (fs.put (l ++ [name]) .directory).node? (l ++ [name]) = some .directory := by
      rw [node?_put hroom, if_pos rfl]
    have hmade := follow_free (keepsDirectories_of_le hle) hnew ht
    exact status_eq_directory_iff.2 ⟨hcheck, _, follow_withoutLastSlashes_iff.1 hmade⟩

theorem checkPath_of_text_eq (h : p.text = "") : checkPath p = .error .notFound := by
  rw [checkPath, h]
  rfl

theorem status_of_checkPath {e : IoError} (h : checkPath p = .error e) :
    fs.status cwd p = .error e := by
  rw [status, find, h]
  rfl

theorem makeDirectory_of_status (h : fs.status cwd p = .ok .directory) :
    fs.makeDirectory cwd p = .error .alreadyExists := by
  obtain ⟨hcheck, l, hl⟩ := status_eq_directory_iff.1 h
  rw [makeDirectory, hcheck, follow_withoutLastSlashes_iff.2 hl]
  rfl

end FileSystem

end CompileDriver
