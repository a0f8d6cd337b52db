import Std.Data.ExtTreeMap

/-! # File systems

A file system assigns a directory or a regular file to finitely many locations. The root is a
directory, and whatever exists lies in a directory. Two file systems with the same nodes are equal.
-/

namespace CompileDriver

/-- A place in a file system: the names that lead to it from the root. -/
abbrev Location := List String

structure File where
  contents : ByteArray
  executable : Bool

instance : DecidableEq File := fun f g =>
  decidable_of_decidable_of_iff
    (show f.contents.data = g.contents.data ∧ f.executable = g.executable ↔ f = g by
      rcases f with ⟨⟨a⟩, x⟩
      rcases g with ⟨⟨b⟩, y⟩
      simp)

inductive Node where
  | directory
  | file (f : File)
deriving DecidableEq

structure FileSystem where
  nodes : Std.ExtTreeMap Location Node
  root_directory : nodes[([] : Location)]? = some .directory
  parent_directory : ∀ l, l ∈ nodes → nodes[l.dropLast]? = some .directory

namespace FileSystem

def empty : FileSystem where
  nodes := (∅ : Std.ExtTreeMap Location Node).insert [] .directory
  root_directory := by simp
  parent_directory l hl := by
    have : l = [] := by simpa using hl
    simp [this]

instance : Inhabited FileSystem := ⟨empty⟩

def node? (fs : FileSystem) (l : Location) : Option Node := fs.nodes[l]?

@[simp] theorem node?_nil (fs : FileSystem) : fs.node? [] = some .directory := fs.root_directory

theorem node?_dropLast (fs : FileSystem) {l : Location} {n : Node} (h : fs.node? l = some n) :
    fs.node? l.dropLast = some .directory :=
  fs.parent_directory l (Std.ExtTreeMap.mem_iff_isSome_getElem?.2 (Option.isSome_of_eq_some h))

@[ext] theorem ext {fs gs : FileSystem} (h : ∀ l, fs.node? l = gs.node? l) : fs = gs := by
  have : fs.nodes = gs.nodes := Std.ExtTreeMap.ext_getElem? (fun {l} => h l)
  cases fs; cases gs; simp_all

/-- Whether a node can be put at `l`: its parent is a directory and `l` is none. -/
def hasRoomAt (fs : FileSystem) (l : Location) : Bool :=
  fs.node? l.dropLast == some .directory && fs.node? l != some .directory

theorem ne_nil_of_hasRoomAt {fs : FileSystem} {l : Location} (h : fs.hasRoomAt l = true) :
    l ≠ [] := by
  rintro rfl
  simp [hasRoomAt] at h

/-- Put a node at `l`, if there is room for one. -/
def put (fs : FileSystem) (l : Location) (n : Node) : FileSystem :=
  if h : fs.hasRoomAt l = true then
    { nodes := fs.nodes.insert l n
      root_directory := by
        rw [Std.ExtTreeMap.getElem?_insert, if_neg]
        · exact fs.root_directory
        · simpa using ne_nil_of_hasRoomAt h
      parent_directory := fun k hk => by
        have hl := ne_nil_of_hasRoomAt h
        simp only [hasRoomAt, Bool.and_eq_true, beq_iff_eq, bne_iff_ne] at h
        have hkl : l ≠ k.dropLast := by
          rintro rfl
          rcases Std.ExtTreeMap.mem_insert.1 hk with hk | hk
          · have hlen := congrArg List.length (Std.LawfulEqCmp.eq_of_compare hk)
            have : k.dropLast ≠ [] := hl
            cases k <;> simp_all
          · exact h.2 (fs.parent_directory k hk)
        rw [Std.ExtTreeMap.getElem?_insert, if_neg (by simpa using hkl)]
        rcases Std.ExtTreeMap.mem_insert.1 hk with hk | hk
        · rw [← Std.LawfulEqCmp.eq_of_compare hk]
          exact h.1
        · exact fs.parent_directory k hk }
  else fs

theorem node?_put {fs : FileSystem} {l k : Location} {n : Node} (h : fs.hasRoomAt l = true) :
    (fs.put l n).node? k = if k = l then some n else fs.node? k := by
  simp only [put, h, dite_true, node?, Std.ExtTreeMap.getElem?_insert,
    Std.LawfulEqCmp.compare_eq_iff_eq]
  by_cases hk : k = l
  · simp [hk]
  · simp [hk, Ne.symm hk]

theorem put_of_not_hasRoomAt {fs : FileSystem} {l : Location} {n : Node}
    (h : fs.hasRoomAt l = false) : fs.put l n = fs := by
  simp [put, h]

/-- Put directories at `l` and above it, wherever there is nothing yet. -/
def putDirectories (fs : FileSystem) (l : Location) : FileSystem :=
  (List.range (l.length + 1)).foldl (fun fs n =>
    if (fs.node? (l.take n)).isSome then fs else fs.put (l.take n) .directory) fs

/-- Remove what lies at `l` and everything below it; the root stays. -/
def remove (fs : FileSystem) (l : Location) : FileSystem :=
  if hl : l = [] then fs
  else
    { nodes := fs.nodes.filter fun k _ => !l.isPrefixOf k
      root_directory := by
        have h := fs.root_directory
        cases l with
        | nil => exact absurd rfl hl
        | cons a l => simp [Std.ExtTreeMap.getElem?_filter, h]
      parent_directory := fun k hk => by
        obtain ⟨hm, hp⟩ := Std.ExtTreeMap.mem_filter.1 hk
        have h := fs.parent_directory k hm
        have hn : l.isPrefixOf k.dropLast = false := by
          rw [Bool.eq_false_iff]
          intro hq
          have : l.isPrefixOf k = true :=
            List.isPrefixOf_iff_prefix.2
              ((List.isPrefixOf_iff_prefix.1 hq).trans (List.dropLast_prefix k))
          simp [this] at hp
        simp [Std.ExtTreeMap.getElem?_filter, h, hn] }

def below (fs : FileSystem) (l : Location) : List (Location × Node) :=
  fs.nodes.toList.filter fun (k, _) => l.isPrefixOf k

/-- The names in the directory `l`, in increasing order, each with whether it is a directory. -/
def entries (fs : FileSystem) (l : Location) : List (String × Bool) :=
  fs.nodes.toList.filterMap fun (k, n) =>
    if k ≠ [] ∧ k.dropLast = l then k.getLast?.map (·, n == .directory) else none

end FileSystem

end CompileDriver
