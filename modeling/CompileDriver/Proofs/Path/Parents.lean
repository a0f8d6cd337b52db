import CompileDriver.Proofs.Path.Components

/-! # Parents of paths

The parents of a path are its first parent and the parents of that. Each of them begins where the
path begins, takes all but some last steps of it, and its text is how the text of the path begins.
Those of an absolute path are absolute.
-/

namespace CompileDriver

namespace Path

variable {p q : Path} {start : Start} {ps qs : List String} {above : List Path}

/-- A path that ends in a step, and not in a slash or a dot, if it has any step. -/
def EndsInStep (p : Path) : Prop :=
  p.steps = [] ∨ ∃ x, p.split.2.getLast? = some x ∧ isTrivial x = false

/-! ## Taking a path apart and putting it together -/

theorem intercalate_piecesOf (s : List Char) :
    String.intercalate "/" (piecesOf s) = String.ofList s := by
  have hjoin (ps : List (List Char)) : (String.intercalate "/" (ps.map String.ofList)).toList =
      Text.joinPieces '/' ps := by
    induction ps with
    | nil => rfl
    | cons p ps ih =>
      cases ps with
      | nil => simp [Text.joinPieces]
      | cons q ps =>
        have hcut : Text.joinPieces '/' (p :: q :: ps) =
            p ++ '/' :: Text.joinPieces '/' (q :: ps) := rfl
        rw [hcut, ← ih, List.map_cons, List.map_cons, String.intercalate_cons_cons]
        simp
  rw [← String.toList_inj, piecesOf, hjoin, Text.joinPieces_pieces, String.toList_ofList]

theorem unsplit_split (p : Path) : unsplit p.split.1 p.split.2 = p := by
  have htext {q : Path} (h : q.text.toList = p.text.toList) : q = p := by
    rw [String.toList_inj] at h
    cases q; cases p; exact congrArg mk h
  apply htext
  unfold split
  split
  case h_1 s h => rw [h, unsplit, intercalate_piecesOf]; simp
  case h_2 h => exact h.symm
  case h_3 s h =>
    rw [h]
    cases hs : piecesOf s with
    | nil => exact absurd hs (pieces_ne_nil s)
    | cons x ps => rw [unsplit, ← hs, intercalate_piecesOf] <;> simp
  case h_4 => rw [unsplit, intercalate_piecesOf, String.toList_ofList]

theorem split_unsplit (hne : ps ≠ []) (h : ∀ x ∈ ps, '/' ∉ x.toList)
    (hbare : start = .bare → ∀ x, ps.head? = some x → isTrivial x = false) :
    (unsplit start ps).split = (start, ps) := by
  have hpieces := piecesOf_intercalate hne h
  obtain ⟨x, ps, rfl⟩ := List.exists_cons_of_ne_nil hne
  cases start with
  | root =>
    have htext : (unsplit .root (x :: ps)).text.toList =
        '/' :: (String.intercalate "/" (x :: ps)).toList := by simp [unsplit]
    rw [split, htext]
    exact congrArg (Start.root, ·) hpieces
  | here =>
    have htext : (unsplit .here (x :: ps)).text.toList =
        '.' :: '/' :: (String.intercalate "/" (x :: ps)).toList := by simp [unsplit]
    rw [split, htext]
    exact congrArg (Start.here, ·) hpieces
  | bare =>
    have hstart : (unsplit .bare (x :: ps)).split.1 = .bare :=
      start_intercalate (h x List.mem_cons_self) (hbare rfl x rfl)
    unfold split at hstart ⊢
    split at hstart
    case h_4 => exact congrArg (Start.bare, ·) hpieces
    all_goals cases hstart

theorem getLast?_piecesOf {x : String} (h : p.split.2.getLast? = some x) :
    (piecesOf p.text.toList).getLast? = some x := by
  have hcons (s : List Char) : (piecesOf ('/' :: s)).getLast? = (piecesOf s).getLast? := by
    obtain ⟨y, ps, hps⟩ := List.exists_cons_of_ne_nil (pieces_ne_nil s)
    change ("" :: piecesOf s).getLast? = _
    rw [hps, List.getLast?_cons_cons]
  unfold split at h
  split at h
  case h_1 s hs => rw [hs, hcons, h]
  case h_2 => cases h
  case h_3 s hs =>
    have hdot : piecesOf ('.' :: '/' :: s) = "." :: piecesOf s := rfl
    obtain ⟨y, ps, hps⟩ := List.exists_cons_of_ne_nil (pieces_ne_nil s)
    rw [hs, hdot, ← h, hps, List.getLast?_cons_cons]
  case h_4 => exact h

theorem text_unsplit_prefix (h : qs <+: ps) :
    (unsplit start qs).text.toList <+: (unsplit start ps).text.toList := by
  have hjoin {qs ps : List String} (h : qs <+: ps) :
      (String.intercalate "/" qs).toList <+: (String.intercalate "/" ps).toList := by
    obtain ⟨rest, rfl⟩ := h
    induction qs with
    | nil => simp
    | cons x qs ih =>
      cases qs with
      | nil => cases rest <;> simp
      | cons y qs => simpa using ih
  cases start with
  | root => simpa [unsplit] using hjoin h
  | bare => exact hjoin h
  | here =>
    cases qs with
    | nil => cases ps <;> simp [unsplit]
    | cons x qs =>
      cases ps with
      | nil => simp at h
      | cons y ps => simpa [unsplit] using hjoin h

/-! ## The first parent -/

theorem parentsFrom_dropWhile (start : Start) (ps : List String) :
    parentsFrom start (ps.dropWhile isTrivial) = parentsFrom start ps := by
  induction ps with
  | nil => rfl
  | cons x ps ih =>
    by_cases hx : isTrivial x = true
    · rw [List.dropWhile_cons_of_pos hx, ih, parentsFrom, if_pos hx]
    · rw [List.dropWhile_cons_of_neg hx]

theorem parents_eq (p : Path) :
    p.parents = match p.split.2.reverse.dropWhile isTrivial with
      | [] => if p.start = .here then [⟨""⟩] else []
      | _ :: before =>
        unsplit p.start (before.dropWhile isTrivial).reverse :: parentsFrom p.start before := by
  rw [parents, ← parentsFrom_dropWhile]
  cases hdrop : p.split.2.reverse.dropWhile isTrivial with
  | nil => rfl
  | cons x before =>
    have hx : isTrivial x = false := by
      have hhead := List.head?_dropWhile_not isTrivial p.split.2.reverse
      rw [hdrop] at hhead
      simpa using hhead
    rw [parentsFrom, if_neg (by simp [hx])]
    rfl

theorem steps_eq_nil_of_parents_eq_nil (h : p.parents = []) : p.steps = [] := by
  rw [parents_eq] at h
  rw [steps_eq_reverse]
  cases hdrop : p.split.2.reverse.dropWhile isTrivial with
  | nil => rfl
  | cons x before => simp [hdrop] at h

structure IsParentOf (q p : Path) : Prop where
  parents : p.parents = q :: q.parents
  isAbsolute : q.isAbsolute = p.isAbsolute
  text_prefix : q.text.toList <+: p.text.toList
  steps : q.text = "" ∧ p.steps = [] ∨ ∃ c, p.steps = q.steps ++ [c]
  endsInStep : q.EndsInStep

theorem IsParentOf.steps_prefix (hq : q.IsParentOf p) : q.steps <+: p.steps := by
  rcases hq.steps with ⟨hempty, -⟩ | ⟨c, hc⟩
  · rw [Path.steps, hempty]
    exact List.nil_prefix
  · exact ⟨[c], hc.symm⟩

theorem isAbsolute_eq_of_start (h : q.start = p.start) : q.isAbsolute = p.isAbsolute := by
  rw [Bool.eq_iff_iff, ← start_eq_root_iff, ← start_eq_root_iff, h]

theorem text_unsplit_prefix_text (h : ps <+: p.split.2) :
    (unsplit p.start ps).text.toList <+: p.text.toList := by
  have hp : unsplit p.start p.split.2 = p := unsplit_split p
  have htext : (unsplit p.start ps).text.toList <+: _ := text_unsplit_prefix h
  rwa [hp] at htext

theorem isParentOf_unsplit_nil {c : Component} (hsteps : p.steps = [c])
    (hparents : p.parents = unsplit p.start [] :: parentsFrom p.start []) :
    (unsplit p.start []).IsParentOf p where
  parents := by
    rw [hparents]
    cases p.start <;> rfl
  isAbsolute := isAbsolute_eq_of_start (by cases p.start <;> rfl)
  text_prefix := text_unsplit_prefix_text List.nil_prefix
  steps := Or.inr ⟨c, by rw [hsteps]; cases p.start <;> rfl⟩
  endsInStep := Or.inl (by cases p.start <;> rfl)

theorem isParentOf_unsplit {c : Component} (hne : ps ≠ []) (hfirst : ps <+: p.split.2)
    (hlast : ∃ x, ps.getLast? = some x ∧ isTrivial x = false)
    (hsteps : p.steps = ps.filterMap Component.ofPiece? ++ [c])
    (hparents : p.parents = unsplit p.start ps :: parentsFrom p.start ps.reverse) :
    (unsplit p.start ps).IsParentOf p := by
  have hsplit : (unsplit p.start ps).split = (p.start, ps) := by
    refine split_unsplit hne (fun x hx => slash_not_mem_of_mem_split (hfirst.subset hx)) ?_
    intro hbare x hx
    refine isTrivial_eq_false_of_head? hbare (by simp [hsteps]) ?_
    obtain ⟨rest, hrest⟩ := hfirst
    rw [← hrest, List.head?_append, hx]
    rfl
  constructor
  · rw [hparents, Path.parents, hsplit]
  · refine isAbsolute_eq_of_start ?_
    rw [start, hsplit]
  · exact text_unsplit_prefix_text hfirst
  · refine Or.inr ⟨c, ?_⟩
    rw [hsteps, ← filterMap_split (unsplit p.start ps), hsplit]
  · refine Or.inr ?_
    rwa [hsplit]

theorem isParentOf_of_parents_eq (h : p.parents = q :: above) : q.IsParentOf p := by
  have hparents := parents_eq p
  cases hdrop : p.split.2.reverse.dropWhile isTrivial with
  | nil =>
    -- no step at all: what is dropped is a leading dot
    rw [hdrop] at hparents
    by_cases hhere : p.start = .here
    · have hq : q = ⟨""⟩ := by simp_all
      subst hq
      have hsteps : p.steps = [] := by rw [steps_eq_reverse, hdrop]; rfl
      refine ⟨by simp_all; rfl, ?_, List.nil_prefix, Or.inl ⟨rfl, hsteps⟩, Or.inl rfl⟩
      rw [Bool.eq_iff_iff, ← start_eq_root_iff, ← start_eq_root_iff, hhere]
      exact ⟨nofun, nofun⟩
    · simp_all
  | cons x before =>
    obtain ⟨hfirst, c, hsteps⟩ := exists_steps_eq hdrop
    rw [hdrop] at hparents
    simp only [← parentsFrom_dropWhile p.start before] at hparents
    obtain rfl : q = unsplit p.start (before.dropWhile isTrivial).reverse := by simp_all
    by_cases hne : before.dropWhile isTrivial = []
    · rw [hne] at hsteps hparents ⊢
      exact isParentOf_unsplit_nil hsteps hparents
    · refine isParentOf_unsplit (by simpa using hne) hfirst ?_ hsteps (by simpa using hparents)
      have hhead := List.head?_dropWhile_not isTrivial before
      rw [List.getLast?_reverse]
      cases hcons : before.dropWhile isTrivial with
      | nil => exact absurd hcons hne
      | cons y ys =>
        rw [hcons] at hhead
        exact ⟨y, rfl, hhead⟩

theorem parents_of_parents_eq (h : p.parents = q :: above) : q.parents = above := by
  rw [(isParentOf_of_parents_eq h).parents] at h
  exact (List.cons.inj h).2

/-- Every parent takes some of the first steps, from where the path starts. -/
theorem steps_prefix_of_mem_parents (h : q ∈ p.parents) :
    q.isAbsolute = p.isAbsolute ∧ q.steps <+: p.steps := by
  generalize habove : p.parents = above at h
  induction above generalizing p with
  | nil => cases h
  | cons r above ih =>
    have hr := isParentOf_of_parents_eq habove
    have hrp : r.steps <+: p.steps := by
      rcases hr.steps with ⟨hempty, -⟩ | ⟨c, hc⟩
      · rw [steps, hempty]
        exact List.nil_prefix
      · exact ⟨[c], hc.symm⟩
    rcases List.mem_cons.1 h with rfl | h
    · exact ⟨hr.isAbsolute, hrp⟩
    · obtain ⟨habs, hq⟩ := ih (parents_of_parents_eq habove) h
      exact ⟨habs.trans hr.isAbsolute, hq.trans hrp⟩

theorem isParentOf_of_parent? (h : p.parent? = some q) : q.IsParentOf p := by
  obtain ⟨above, habove⟩ := List.head?_eq_some_iff.1 h
  exact isParentOf_of_parents_eq habove

end Path

/-! ## Absolute paths

What is put below an absolute path is absolute, and so are its parents. Seen from any working
directory an absolute path is the same.
-/

namespace Path

variable {p q cwd cwd' : Path}

theorem isAbsolute_join (hp : p.isAbsolute = true) (q : Path) : (p.join q).isAbsolute = true := by
  have hslash : ∃ s, p.text.toList = '/' :: s := by
    simpa [isAbsolute, List.head?_eq_some_iff] using hp
  obtain ⟨s, hs⟩ := hslash
  unfold join
  split
  · assumption
  · split <;> simp [isAbsolute, hs]

theorem isAbsolute_div (hp : p.isAbsolute = true) (name : String) : (p / name).isAbsolute = true :=
  isAbsolute_join hp ⟨name⟩

theorem isAbsolute_of_mem_parents (hp : p.isAbsolute = true) (hq : q ∈ p.parents) :
    q.isAbsolute = true :=
  (steps_prefix_of_mem_parents hq).1.trans hp

theorem isAbsolute_of_parent? (hp : p.isAbsolute = true) (hq : p.parent? = some q) :
    q.isAbsolute = true :=
  isAbsolute_of_mem_parents hp (List.mem_of_head? hq)

/-! ## Seen from a working directory -/

theorem exists_components (hp : p.isAbsolute = true) : ∃ cs, p.components = .root :: cs :=
  List.head?_eq_some_iff.1 (isAbsolute_iff.1 hp)

theorem absolute_eq_of_isAbsolute (hp : p.isAbsolute = true) (cwd cwd' : Path) :
    absolute cwd p = absolute cwd' p := by
  obtain ⟨cs, hcs⟩ := exists_components hp
  rw [absolute, absolute, hcs]

theorem isAbsolute_absolute (hp : p.isAbsolute = true) (cwd : Path) :
    (absolute cwd p).isAbsolute = true := by
  rw [isAbsolute_iff, components_absolute (text_ne_empty_of_isAbsolute hp), if_pos hp]
  rfl

end Path

end CompileDriver
