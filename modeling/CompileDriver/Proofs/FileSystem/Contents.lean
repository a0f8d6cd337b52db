import CompileDriver.FileSystem.Basic
import CompileDriver.Proofs.FileSystem.Extension
import CompileDriver.Proofs.Host.Answers
import Mathlib.Data.List.Sort

/-! # Entries of directories and contents of files

The entries of a directory follow from what lies directly below it: they have the names that are in
use there, in increasing order. New contents for a file change neither them nor any other file.
-/

namespace CompileDriver

namespace FileSystem

variable {fs gs : FileSystem} {k l : Location} {name : String} {d : Bool}

def Before (a b : String × Bool) : Prop := compare a.1 b.1 = .lt

instance : Std.Irrefl Before where
  irrefl a h := by
    have heq : compare a.1 a.1 = .eq := Std.ReflCmp.compare_self
    rw [Before, heq] at h
    cases h

instance : Std.Antisymm Before where
  antisymm a b hab hba := by
    have hgt := Std.OrientedCmp.gt_of_lt hab
    rw [hba] at hgt
    cases hgt

theorem compare_append {α : Type} [Ord α] [Std.ReflCmp (compare : α → α → Ordering)]
    (l m n : List α) : compare (l ++ m) (l ++ n) = compare m n := by
  rw [List.compare_eq_compareLex]
  induction l with
  | nil => rfl
  | cons x l ih => simpa [List.compareLex_cons_cons, Std.ReflCmp.compare_self] using ih

theorem compare_append_singleton (l : Location) (m n : String) :
    compare (l ++ [m]) (l ++ [n]) = compare m n := by
  rw [compare_append, List.compare_eq_compareLex]
  simp [List.compareLex_cons_cons, List.compareLex_nil_nil]

theorem entry_eq_some {n : Node} {b : String × Bool}
    (h : (if k ≠ [] ∧ k.dropLast = l then k.getLast?.map (·, n == .directory) else none) =
      some b) : k = l ++ [b.1] ∧ b.2 = (n == .directory) := by
  split at h
  · next hk =>
    obtain ⟨last, hlast, rfl⟩ := Option.map_eq_some_iff.1 h
    obtain ⟨init, rfl⟩ := List.getLast?_eq_some_iff.1 hlast
    rw [List.dropLast_concat] at hk
    rw [hk.2]
    exact ⟨rfl, rfl⟩
  · cases h

theorem mem_entries_iff :
    (name, d) ∈ fs.entries l ↔ ∃ n, fs.node? (l ++ [name]) = some n ∧ d = (n == .directory) := by
  rw [entries, List.mem_filterMap]
  constructor
  · rintro ⟨⟨k, n⟩, hk, hentry⟩
    obtain ⟨rfl, hd⟩ := entry_eq_some hentry
    exact ⟨n, Std.ExtTreeMap.mem_toList_iff_getElem?_eq_some.1 hk, hd⟩
  · rintro ⟨n, hn, rfl⟩
    refine ⟨(l ++ [name], n), Std.ExtTreeMap.mem_toList_iff_getElem?_eq_some.2 hn, ?_⟩
    simp

theorem pairwise_entries (fs : FileSystem) (l : Location) : (fs.entries l).Pairwise Before := by
  refine List.Pairwise.filterMap _ ?_ Std.ExtTreeMap.ordered_keys_toList
  rintro ⟨k, m⟩ ⟨k', m'⟩ hlt b hb b' hb'
  obtain ⟨rfl, -⟩ := entry_eq_some hb
  obtain ⟨rfl, -⟩ := entry_eq_some hb'
  rwa [compare_append_singleton] at hlt

theorem entries_congr (h : ∀ name, (fs.node? (k ++ [name])).map (· == .directory) =
    (gs.node? (l ++ [name])).map (· == .directory)) : fs.entries k = gs.entries l := by
  refine (pairwise_entries fs k).eq_of_mem_iff (pairwise_entries gs l) fun ⟨name, d⟩ => ?_
  have hmem (fs : FileSystem) (l : Location) :
      (name, d) ∈ fs.entries l ↔ (fs.node? (l ++ [name])).map (· == .directory) = some d := by
    rw [mem_entries_iff, Option.map_eq_some_iff]
    exact exists_congr fun n => and_congr_right fun _ => eq_comm
  rw [hmem, hmem, h name]

end FileSystem

/-! ## Contents of a file

New contents for a file are seen by those who read that file. Every path leads to the same place as
before, all directories have the same entries, and all other files have the same contents.
-/

def Target.refill (l : Location) (data : ByteArray) : Target → Target
  | .file k f => .file k (if k = l then { f with contents := data } else f)
  | t => t

@[simp] theorem Target.refill_directory (l k : Location) (data : ByteArray) :
    (Target.directory k).refill l data = .directory k :=
  rfl

namespace FileSystem

variable {fs : FileSystem} {k l cwd : Location} {f : File} {data : ByteArray} {p : Path}

/-- The same files, with new contents for the file `f` at `l`. -/
def refill (fs : FileSystem) (l : Location) (f : File) (data : ByteArray) : FileSystem :=
  fs.put l (.file { f with contents := data })

theorem node?_refill (hf : fs.node? l = some (.file f)) :
    (fs.refill l f data).node? k =
      if k = l then some (.file { f with contents := data }) else fs.node? k :=
  node?_put (hasRoomAt_of_file hf)

theorem lookUp_refill (hf : fs.node? l = some (.file f)) (name : String) :
    (fs.refill l f data).lookUp k name = (fs.lookUp k name).refill l data := by
  rw [lookUp, lookUp, node?_refill hf]
  by_cases hk : k ++ [name] = l
  · rw [if_pos hk, hk, hf]
    simp [Target.refill]
  · rw [if_neg hk]
    cases fs.node? (k ++ [name]) with
    | none => rfl
    | some n => cases n <;> simp [Target.refill, hk]

theorem follow_refill (hf : fs.node? l = some (.file f)) (data : ByteArray) (t : Target)
    (ps : List String) :
    (fs.refill l f data).follow (t.refill l data) ps =
      (fs.follow t ps).map (Target.refill l data) := by
  fun_induction follow fs t ps with
  | case1 t => simp [follow, Except.map]
  | case2 => rfl
  | case3 => rfl
  | case4 k p ps hp ih =>
    rw [Target.refill_directory, follow, if_pos hp]
    exact ih
  | case5 k ps hp ih =>
    rw [Target.refill_directory, follow, if_neg hp, if_pos rfl]
    exact ih
  | case6 k p ps hp hp' hlong =>
    rw [Target.refill_directory, follow, if_neg hp, if_neg hp', if_pos hlong]
    rfl
  | case7 k p ps hp hp' hlong ih =>
    rw [Target.refill_directory, follow, if_neg hp, if_neg hp', if_neg hlong, lookUp_refill hf]
    exact ih

theorem find_refill (hf : fs.node? l = some (.file f)) (cwd : Location) (p : Path) :
    (fs.refill l f data).find cwd p = (fs.find cwd p).map (Target.refill l data) := by
  have hfollow := follow_refill hf data (.directory (startOf cwd p)) (steps p)
  rw [Target.refill_directory] at hfollow
  rw [find, find, hfollow]
  cases checkPath p <;> rfl

theorem status_refill (hf : fs.node? l = some (.file f)) (cwd : Location) (p : Path) :
    (fs.refill l f data).status cwd p = fs.status cwd p := by
  rw [status, status, find_refill hf]
  rcases fs.find cwd p with e | t
  · rfl
  · cases t with
    | directory k => rfl
    | free k name => rfl
    | file k g =>
      by_cases hk : k = l <;> simp [Except.map, Target.refill, hk, bind, Except.bind]

theorem list_refill (hf : fs.node? l = some (.file f)) (cwd : Location) (p : Path) :
    (fs.refill l f data).list cwd p = fs.list cwd p := by
  have hentries (k : Location) : (fs.refill l f data).entries k = fs.entries k := by
    refine entries_congr fun name => ?_
    rw [node?_refill hf]
    by_cases hk : k ++ [name] = l
    · rw [if_pos hk, hk, hf]
      rfl
    · rw [if_neg hk]
  rw [list, list, find_refill hf]
  rcases fs.find cwd p with e | t
  · rfl
  · cases t with
    | directory k => exact congrArg Except.ok (hentries k)
    | free k name => rfl
    | file k g => rfl

theorem read_refill (hf : fs.node? l = some (.file f)) (hp : fs.find cwd p ≠ .ok (.file l f)) :
    (fs.refill l f data).read cwd p = fs.read cwd p := by
  rw [read, read, find_refill hf]
  rcases ht : fs.find cwd p with e | t
  · rfl
  · cases t with
    | directory k => rfl
    | free k name => rfl
    | file k g =>
      have hk : k ≠ l := by
        rintro rfl
        have hg : fs.node? k = some (.file g) := holds_of_follow (find_eq_ok_iff.1 ht).2
        rw [hf] at hg
        cases hg
        exact hp ht
      simp [Except.map, Target.refill, hk, bind, Except.bind]

end FileSystem

/-- Only a call that reads the file is answered otherwise. -/
theorem Host.seen_refill {h : Host} {fs : FileSystem} {l : Location} {f : File}
    {data : ByteArray} {c : Call} (hf : fs.node? l = some (.file f)) (hc : c.IsLooking)
    (hread : ∀ p, c = .read p → fs.find h.directory p ≠ .ok (.file l f)) :
    h.seen (fs.refill l f data) c = h.seen fs c := by
  cases c with
  | status p => exact FileSystem.status_refill hf h.directory p
  | list p => exact FileSystem.list_refill hf h.directory p
  | read p => exact FileSystem.read_refill hf (hread p rfl)
  | warn m | say m => rfl
  | _ => exact hc.elim

end CompileDriver
