import CompileDriver.Proofs.FileSystem.Extension
import CompileDriver.Proofs.Path.Parents

/-! # Pieces below a path

Pieces that are put below a path one after the other are followed from where that path leads.
-/

namespace CompileDriver

namespace Path

variable {p : Path} {n : String} {ns : List String}

/-- Pieces that can be put below a path and never lead up. -/
def Descends (ns : List String) : Prop := ∀ n ∈ ns, '/' ∉ n.toList ∧ n ≠ ".."

theorem Descends.slash_not_mem (h : Descends ns) : ∀ n ∈ ns, '/' ∉ n.toList :=
  fun n hn => (h n hn).1

def under (p : Path) (ns : List String) : Path := ns.foldl (· / ·) p

@[simp] theorem under_nil (p : Path) : p.under [] = p := rfl

theorem under_cons (p : Path) (n : String) (ns : List String) :
    p.under (n :: ns) = (p / n).under ns :=
  rfl

theorem under_concat (p : Path) (ns : List String) (n : String) :
    p.under (ns ++ [n]) = p.under ns / n := by
  simp [under]

theorem isAbsolute_eq_false_of_piece (hn : '/' ∉ n.toList) : (⟨n⟩ : Path).isAbsolute = false := by
  rw [isAbsolute, beq_eq_false_iff_ne]
  intro hhead
  exact hn (List.mem_of_head? hhead)

theorem text_div (hn : '/' ∉ n.toList) :
    (p / n).text = if p.text = "" ∨ p.endsInSlash then p.text ++ n else p.text ++ "/" ++ n := by
  change (p.join ⟨n⟩).text = _
  rw [join, isAbsolute_eq_false_of_piece hn]
  simp only [Bool.false_eq_true, if_false]
  split <;> rfl

theorem steps_of_piece (hn : '/' ∉ n.toList) :
    (⟨n⟩ : Path).steps = (Component.ofPiece? n).toList := by
  rw [steps, stepsIn, piecesOf, Text.pieces_of_not_mem hn, List.map_singleton, String.ofList_toList]
  cases h : Component.ofPiece? n <;> simp [h]

theorem components_div (hp : p.text ≠ "") (hn : '/' ∉ n.toList) :
    (p / n).components = p.components ++ (Component.ofPiece? n).toList := by
  rw [← steps_of_piece hn]
  exact components_join hp (isAbsolute_eq_false_of_piece hn)

theorem isAbsolute_under (hp : p.isAbsolute = true) (ns : List String) :
    (p.under ns).isAbsolute = true := by
  induction ns generalizing p with
  | nil => exact hp
  | cons n ns ih => exact ih (isAbsolute_div hp n)

theorem components_under (hp : p.isAbsolute = true) (hns : ∀ n ∈ ns, '/' ∉ n.toList) :
    (p.under ns).components = p.components ++ ns.filterMap Component.ofPiece? := by
  induction ns generalizing p with
  | nil => simp
  | cons n ns ih =>
    obtain ⟨hn, hns⟩ := List.forall_mem_cons.1 hns
    rw [under_cons, ih (isAbsolute_div hp n) hns,
      components_div (text_ne_empty_of_isAbsolute hp) hn, List.append_assoc]
    cases h : Component.ofPiece? n <;> simp [h]

theorem nul_mem_div (hn : '/' ∉ n.toList) :
    '\x00' ∈ (p / n).text.toList ↔ '\x00' ∈ p.text.toList ∨ '\x00' ∈ n.toList := by
  rw [text_div hn]
  split <;> simp

theorem nul_mem_under (hns : ∀ n ∈ ns, '/' ∉ n.toList) :
    '\x00' ∈ (p.under ns).text.toList ↔
      '\x00' ∈ p.text.toList ∨ ∃ n ∈ ns, '\x00' ∈ n.toList := by
  induction ns generalizing p with
  | nil => simp
  | cons n ns ih =>
    obtain ⟨hn, hns⟩ := List.forall_mem_cons.1 hns
    rw [under_cons, ih hns, nul_mem_div hn]
    simp [or_assoc]

theorem utf8ByteSize_le_div (p : Path) (hn : '/' ∉ n.toList) :
    p.text.utf8ByteSize ≤ (p / n).text.utf8ByteSize := by
  rw [text_div hn]
  split <;> simp only [String.utf8ByteSize_append] <;> omega

theorem utf8ByteSize_lt_div (p : Path) (hn : '/' ∉ n.toList) (hempty : n ≠ "") :
    p.text.utf8ByteSize < (p / n).text.utf8ByteSize := by
  have hpos : n.utf8ByteSize ≠ 0 := by simpa using hempty
  rw [text_div hn]
  split <;> simp only [String.utf8ByteSize_append] <;> omega

theorem length_le_utf8ByteSize_under (p : Path) (hns : ∀ n ∈ ns, '/' ∉ n.toList ∧ n ≠ "") :
    p.text.utf8ByteSize + ns.length ≤ (p.under ns).text.utf8ByteSize := by
  induction ns generalizing p with
  | nil => exact Nat.le_refl _
  | cons n ns ih =>
    obtain ⟨hn, hns⟩ := List.forall_mem_cons.1 hns
    have hgrows := utf8ByteSize_lt_div p hn.1 hn.2
    have hrest := ih (p / n) hns
    rw [under_cons, List.length_cons]
    omega

end Path

namespace FileSystem

variable {fs : FileSystem} {t u : Target} {p : Path} {n : String} {ps ns : List String}
  {k l : Location} {cwd : Location}

theorem follow_skip (hn : ps ≠ []) : fs.follow t ("" :: ps) = fs.follow t ps := by
  cases t with
  | directory l => rw [follow, if_pos (Or.inl rfl)]
  | file l f =>
    cases ps with
    | nil => exact absurd rfl hn
    | cons p ps => rfl
  | free l name =>
    cases ps with
    | nil => exact absurd rfl hn
    | cons p ps => rfl

theorem steps_of_text {s : List Char} (hp : p.text.toList = s ++ '/' :: n.toList)
    (hn : '/' ∉ n.toList) : steps p = Path.piecesOf s ++ [n] := by
  rw [steps, hp, Path.piecesOf, Text.pieces_append, Text.pieces_of_not_mem hn]
  simp [Path.piecesOf]

theorem follow_steps_div (hp : p.text ≠ "") (hn : '/' ∉ n.toList) :
    fs.follow t (steps (p / n)) = fs.follow t (steps p ++ [n]) := by
  by_cases hslash : p.endsInSlash = true
  · obtain ⟨s, hs⟩ := Path.endsInSlash_iff.1 hslash
    have htext : (p / n).text.toList = s ++ '/' :: n.toList := by
      rw [Path.text_div hn, if_pos (Or.inr hslash), String.toList_append, hs]
      simp
    have hempty : '/' ∉ ("" : String).toList := by simp
    rw [steps_of_text htext hn, steps_of_text (n := "") hs hempty, List.append_assoc,
      follow_append t (Path.piecesOf s), follow_append t (Path.piecesOf s)]
    exact congrArg (fs.follow t (Path.piecesOf s) >>= ·)
      (funext fun u => (follow_skip (List.cons_ne_nil n [])).symm)
  · have htext : (p / n).text.toList = p.text.toList ++ '/' :: n.toList := by
      rw [Path.text_div hn, if_neg (by simp [hp, hslash])]
      simp
    rw [steps_of_text htext hn, steps]

theorem follow_steps_under (hp : p.isAbsolute = true) (hns : ∀ n ∈ ns, '/' ∉ n.toList) :
    fs.follow t (steps (p.under ns)) = fs.follow t (steps p ++ ns) := by
  induction ns generalizing p with
  | nil => rw [Path.under_nil, List.append_nil]
  | cons n ns ih =>
    obtain ⟨hn, hns⟩ := List.forall_mem_cons.1 hns
    rw [Path.under_cons, ih (Path.isAbsolute_div hp n) hns, follow_append,
      follow_steps_div (Path.text_ne_empty_of_isAbsolute hp) hn, ← follow_append, List.append_assoc,
      List.singleton_append]

end FileSystem

end CompileDriver
