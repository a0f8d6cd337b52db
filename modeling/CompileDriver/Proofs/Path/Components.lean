import CompileDriver.Path.Basic

/-! # Components of built paths

How the components of a path change when something is put below it, when its last component is
dropped or replaced, and when it is seen from a directory. Apart from its start, a path is a list
of steps: names and `..`.
-/

namespace CompileDriver

/-- What one step of a path can be: `..`, or a name that a piece can stand for. -/
def Component.IsStep : Component → Prop
  | parent => True
  | name s => '/' ∉ s.toList ∧ s ≠ "" ∧ s ≠ "." ∧ s ≠ ".."
  | _ => False

theorem Component.isStep_of_ofPiece? {piece : String} {c : Component} (h : '/' ∉ piece.toList)
    (hc : ofPiece? piece = some c) : c.IsStep := by
  unfold ofPiece? at hc
  split at hc
  · cases hc
  · next hne =>
    rw [not_or] at hne
    split at hc
    · cases hc
      trivial
    · next hparent =>
      cases hc
      exact ⟨h, hne.1, hne.2, hparent⟩

theorem Component.text_of_ofPiece? {piece : String} {c : Component} (h : ofPiece? piece = some c) :
    c.text = piece := by
  unfold ofPiece? at h
  split at h
  · cases h
  · split at h
    · next hparent => cases h; exact hparent.symm
    · cases h; rfl

theorem Component.IsStep.ofPiece?_text {c : Component} (h : c.IsStep) :
    ofPiece? c.text = some c := by
  cases c with
  | parent => rfl
  | name s => simp [ofPiece?, text, h.2.1, h.2.2.1, h.2.2.2]
  | root | here => exact h.elim

theorem Component.IsStep.slash_not_mem {c : Component} (h : c.IsStep) : '/' ∉ c.text.toList := by
  cases c with
  | parent => decide
  | name s => exact h.1
  | root | here => exact h.elim

theorem Component.IsStep.ne_root {c : Component} (h : c.IsStep) : c ≠ root := by
  rintro rfl
  exact h.elim

namespace Path

variable {cwd p q : Path} {c : Component} {cs : List Component} {s t : List Char}

/-! ## The start and the steps -/

def start (p : Path) : Start := p.split.1

def stepsIn (s : List Char) : List Component := (piecesOf s).filterMap Component.ofPiece?

def steps (p : Path) : List Component := stepsIn p.text.toList

@[simp] theorem stepsIn_nil : stepsIn [] = [] := rfl

theorem stepsIn_append (s t : List Char) : stepsIn (s ++ '/' :: t) = stepsIn s ++ stepsIn t := by
  simp [stepsIn, piecesOf, Text.pieces_append]

@[simp] theorem stepsIn_slash (s : List Char) : stepsIn ('/' :: s) = stepsIn s :=
  stepsIn_append [] s

theorem components_eq (p : Path) : p.components = p.start.components ++ p.steps := by
  unfold components start steps split
  split
  case h_1 s h => rw [h, stepsIn_slash]; rfl
  case h_2 h => rw [h]; rfl
  case h_3 s h => rw [h]; exact congrArg ([Component.here] ++ ·) (stepsIn_append ['.'] s).symm
  case h_4 => rfl

theorem isStep_of_mem_steps (h : c ∈ p.steps) : c.IsStep := by
  obtain ⟨piece, hpiece, hc⟩ := List.mem_filterMap.1 h
  obtain ⟨s, hs, rfl⟩ := List.mem_map.1 hpiece
  exact Component.isStep_of_ofPiece? (by simpa using Text.not_mem_of_mem_pieces hs) hc

theorem start_eq_of_append (hs : s ≠ []) (hp : p.text.toList = s)
    (hq : q.text.toList = s ++ '/' :: t) : q.start = p.start := by
  unfold start split
  rw [hp, hq]
  match s, hs with
  | [c], _ | c :: d :: s, _ => split <;> split <;> simp_all

theorem start_eq_root_iff : p.start = .root ↔ p.isAbsolute = true := by
  unfold start split isAbsolute
  split <;> simp_all
  next h => cases hs : p.text.toList <;> simp_all

theorem isAbsolute_iff : p.isAbsolute = true ↔ p.components.head? = some .root := by
  rw [← start_eq_root_iff, components_eq]
  cases h : p.start with
  | root => simp [Start.components]
  | here => simp [Start.components]
  | bare =>
    cases hs : p.steps with
    | nil => simp [Start.components]
    | cons c cs =>
      have hc : c.IsStep := isStep_of_mem_steps (hs ▸ List.mem_cons_self)
      simp [Start.components, hc.ne_root]

theorem text_ne_empty_of_isAbsolute (h : p.isAbsolute = true) : p.text ≠ "" := by
  intro htext
  simp [isAbsolute, htext] at h

/-! ## Putting one path below another -/

theorem endsInSlash_iff : p.endsInSlash = true ↔ ∃ s, p.text.toList = s ++ ['/'] := by
  simp [endsInSlash, List.getLast?_eq_some_iff]

theorem join_of_isAbsolute (hq : q.isAbsolute = true) : p.join q = q := by
  rw [join, if_pos hq]

theorem exists_join_text (hp : p.text ≠ "") (hq : q.isAbsolute = false) :
    ∃ s, (p.join q).text.toList = s ++ '/' :: q.text.toList ∧
      stepsIn s = p.steps ∧ (p.join q).start = p.start := by
  have hne : p.text.toList ≠ [] := by simpa using hp
  rw [join, if_neg (by simp [hq])]
  cases hslash : p.endsInSlash with
  | false =>
    rw [if_neg (by simp [hp])]
    have htext : (⟨p.text ++ "/" ++ q.text⟩ : Path).text.toList =
        p.text.toList ++ '/' :: q.text.toList := by simp
    exact ⟨_, htext, rfl, start_eq_of_append hne rfl htext⟩
  | true =>
    obtain ⟨s, hs⟩ := endsInSlash_iff.1 hslash
    rw [if_pos (Or.inr rfl)]
    have htext : (⟨p.text ++ q.text⟩ : Path).text.toList = s ++ '/' :: q.text.toList := by
      simp [hs]
    refine ⟨s, htext, by rw [steps, hs, stepsIn_append, stepsIn_nil, List.append_nil], ?_⟩
    by_cases hnil : s = []
    · subst hnil
      exact (start_eq_root_iff.2 (by simp [isAbsolute, hs])).trans
        (start_eq_root_iff.2 (by simp [isAbsolute, hs])).symm
    · have hsplit := start_eq_of_append (p := ⟨String.ofList s⟩) hnil (by simp) htext
      exact hsplit.trans (start_eq_of_append (p := ⟨String.ofList s⟩) hnil (by simp) hs).symm

theorem components_of_text_eq (hp : p.text = "") : p.components = [] := by
  rw [components, split, hp]
  rfl

theorem join_of_text_eq (hp : p.text = "") : p.join q = q := by
  unfold join
  split
  · rfl
  · simp [hp]

theorem steps_join (hq : q.isAbsolute = false) : (p.join q).steps = p.steps ++ q.steps := by
  by_cases hp : p.text = ""
  · rw [join_of_text_eq hp, steps, steps, hp]
    rfl
  · obtain ⟨s, htext, hs, -⟩ := exists_join_text hp hq
    rw [steps, htext, stepsIn_append, hs, steps, steps]

theorem start_join (hp : p.text ≠ "") (hq : q.isAbsolute = false) :
    (p.join q).start = p.start := by
  obtain ⟨_, -, -, hstart⟩ := exists_join_text hp hq
  exact hstart

theorem components_join (hp : p.text ≠ "") (hq : q.isAbsolute = false) :
    (p.join q).components = p.components ++ q.steps := by
  rw [components_eq, start_join hp hq, steps_join hq, components_eq p, List.append_assoc]

/-- Below any path, even the empty one, a path that is nothing but steps adds these. -/
theorem components_join_of_bare (hq : q.start = .bare) :
    (p.join q).components = p.components ++ q.components := by
  have habs : q.isAbsolute = false := by
    rw [Bool.eq_false_iff, ne_eq, ← start_eq_root_iff, hq]
    nofun
  by_cases hp : p.text = ""
  · rw [join_of_text_eq hp, components_of_text_eq hp, List.nil_append]
  · rw [components_join hp habs, components_eq q, hq]
    rfl

end Path

namespace Component.IsStep

variable {c : Component} {p : Path}

theorem start_text (h : c.IsStep) : (⟨c.text⟩ : Path).start = .bare := by
  cases c with
  | parent => rfl
  | name s =>
    unfold Path.start Path.split
    split
    case h_1 t ht => exact absurd (ht ▸ List.mem_cons_self) h.1
    case h_2 ht => exact absurd (String.toList_inj.1 ht) h.2.2.1
    case h_3 t ht => exact absurd (ht ▸ by simp) h.1
    case h_4 => rfl
  | root | here => exact h.elim

theorem components_text (h : c.IsStep) : (⟨c.text⟩ : Path).components = [c] := by
  rw [Path.components_eq, h.start_text, Path.steps, Path.stepsIn, Path.piecesOf,
    Text.pieces_of_not_mem h.slash_not_mem]
  simp [Path.Start.components, h.ofPiece?_text]

theorem components_div (h : c.IsStep) : (p / c.text).components = p.components ++ [c] := by
  rw [← h.components_text]
  exact Path.components_join_of_bare h.start_text

end Component.IsStep

namespace Path

variable {cwd p q : Path} {c : Component} {cs : List Component} {n f : String}

/-! ## Seen from a directory -/

theorem components_place (h : ∀ c ∈ cs, c.IsStep) :
    (absolute.place cs p).components = p.components ++ cs := by
  induction cs generalizing p with
  | nil => simp [absolute.place]
  | cons c cs ih =>
    have hc : c.IsStep := h c List.mem_cons_self
    have hcs : ∀ d ∈ cs, d.IsStep := fun d hd => h d (List.mem_cons_of_mem c hd)
    change (absolute.place cs (p / c.text)).components = _
    rw [ih hcs, hc.components_div, List.append_assoc, List.singleton_append]

theorem components_div_empty (p : Path) : (p / "").components = p.components := by
  have hdiv : (p / "").components = _ := components_join_of_bare (q := ⟨""⟩) rfl
  rw [hdiv, components_of_text_eq rfl, List.append_nil]

theorem exists_absolute_eq (cwd : Path) (hp : p.text ≠ "") :
    ∃ base, (p.isAbsolute = true ∧ (base = ⟨"/"⟩ ∨ base = ⟨"//"⟩) ∨
        p.isAbsolute = false ∧ base = cwd) ∧
      absolute cwd p = if p.endsInSlash then absolute.place p.steps base / ""
        else absolute.place p.steps base := by
  have habs := start_eq_root_iff (p := p)
  rw [absolute, if_neg hp, components_eq p]
  cases hstart : p.start with
  | root =>
    refine ⟨_, Or.inl ⟨habs.1 hstart, ?_⟩, rfl⟩
    split
    · exact Or.inr rfl
    · exact Or.inl rfl
  | here => exact ⟨cwd, Or.inr ⟨by simp [← Bool.not_eq_true, ← habs, hstart], rfl⟩, rfl⟩
  | bare =>
    refine ⟨cwd, Or.inr ⟨by simp [← Bool.not_eq_true, ← habs, hstart], rfl⟩, ?_⟩
    simp only [Start.components, List.nil_append]
    cases hsteps : p.steps with
    | nil => rfl
    | cons c cs =>
      have hstep : c.IsStep := isStep_of_mem_steps (hsteps ▸ List.mem_cons_self)
      cases c with
      | root | here => exact hstep.elim
      | parent | name s => rfl

theorem components_absolute (hp : p.text ≠ "") :
    (absolute cwd p).components =
      (if p.isAbsolute then [.root] else cwd.components) ++ p.steps := by
  obtain ⟨base, hbase, heq⟩ := exists_absolute_eq cwd hp
  have hsteps : (absolute cwd p).components = base.components ++ p.steps := by
    rw [heq, ← components_place fun c => isStep_of_mem_steps]
    split
    · exact components_div_empty _
    · rfl
  rw [hsteps]
  rcases hbase with ⟨habs, rfl | rfl⟩ | ⟨habs, rfl⟩ <;> rw [habs] <;> rfl

/-! ## Parents and file names -/

theorem filterMap_dropWhile_isTrivial (ps : List String) :
    (ps.dropWhile isTrivial).filterMap Component.ofPiece? = ps.filterMap Component.ofPiece? := by
  induction ps with
  | nil => rfl
  | cons x ps ih =>
    by_cases hx : isTrivial x = true
    · have hnone : Component.ofPiece? x = none := by simpa [isTrivial] using hx
      rw [List.dropWhile_cons_of_pos hx, ih, List.filterMap_cons_none hnone]
    · rw [List.dropWhile_cons_of_neg hx]

theorem filterMap_split (p : Path) : p.split.2.filterMap Component.ofPiece? = p.steps :=
  List.append_cancel_left (components_eq p)

theorem steps_eq_reverse (p : Path) : p.steps =
    ((p.split.2.reverse.dropWhile isTrivial).filterMap Component.ofPiece?).reverse := by
  rw [filterMap_dropWhile_isTrivial, List.filterMap_reverse, filterMap_split, List.reverse_reverse]

/-- What remains of the pieces, given last to first, when the last component is dropped. -/
theorem head?_parentsFrom (start : Start) (ps : List String) :
    (parentsFrom start ps).head? = match ps.dropWhile isTrivial with
      | [] => if start = .here then some ⟨""⟩ else none
      | _ :: before => some (unsplit start (before.dropWhile isTrivial).reverse) := by
  induction ps with
  | nil => unfold parentsFrom; split <;> simp_all
  | cons x ps ih =>
    by_cases hx : isTrivial x = true
    · rw [parentsFrom, if_pos hx, ih, List.dropWhile_cons_of_pos hx]
    · rw [parentsFrom, if_neg hx, List.dropWhile_cons_of_neg hx, List.head?_cons]

theorem pieces_ne_nil (s : List Char) : piecesOf s ≠ [] := by
  simp [piecesOf, Text.pieces_ne_nil]

theorem piecesOf_intercalate {ps : List String} (hne : ps ≠ [])
    (h : ∀ x ∈ ps, '/' ∉ x.toList) :
    piecesOf (String.intercalate "/" ps).toList = ps := by
  induction ps with
  | nil => exact absurd rfl hne
  | cons x ps ih =>
    have hx : '/' ∉ x.toList := h x List.mem_cons_self
    cases ps with
    | nil => simp [piecesOf, Text.pieces_of_not_mem hx]
    | cons y ps =>
      have ih := ih (List.cons_ne_nil y ps) fun z hz => h z (List.mem_cons_of_mem x hz)
      have htext : (String.intercalate "/" (x :: y :: ps)).toList =
          x.toList ++ '/' :: (String.intercalate "/" (y :: ps)).toList := by
        simp
      rw [htext, piecesOf, Text.pieces_append, Text.pieces_of_not_mem hx, List.singleton_append,
        List.map_cons, String.ofList_toList]
      exact congrArg (x :: ·) ih

theorem stepsIn_intercalate {ps : List String} (h : ∀ x ∈ ps, '/' ∉ x.toList) :
    stepsIn (String.intercalate "/" ps).toList = ps.filterMap Component.ofPiece? := by
  by_cases hne : ps = []
  · rw [hne]
    rfl
  · rw [stepsIn, piecesOf_intercalate hne h]

theorem start_intercalate {x : String} {ps : List String} (hx : '/' ∉ x.toList)
    (htrivial : isTrivial x = false) :
    (⟨String.intercalate "/" (x :: ps)⟩ : Path).start = .bare := by
  obtain ⟨c, hc⟩ := Option.isSome_iff_exists.1 (by simpa [isTrivial] using htrivial)
  have hbare : (⟨x⟩ : Path).start = .bare := by
    rw [← Component.text_of_ofPiece? hc]
    exact (Component.isStep_of_ofPiece? hx hc).start_text
  cases ps with
  | nil => simpa using hbare
  | cons y ps =>
    have hne : x.toList ≠ [] := by
      rintro hnil
      rw [String.toList_eq_nil_iff.1 hnil] at htrivial
      cases htrivial
    exact (start_eq_of_append (p := ⟨x⟩) hne rfl (by simp; rfl)).trans hbare

theorem components_unsplit {start : Start} {ps : List String} (h : ∀ x ∈ ps, '/' ∉ x.toList)
    (hbare : start = .bare → ∀ x, ps.head? = some x → isTrivial x = false) :
    (unsplit start ps).components = start.components ++ ps.filterMap Component.ofPiece? := by
  rw [← stepsIn_intercalate h, components_eq]
  match start, ps with
  | .root, ps =>
    have htext : (unsplit .root ps).text.toList = '/' :: (String.intercalate "/" ps).toList := by
      simp [unsplit]
    rw [start_eq_root_iff.2 (by simp [isAbsolute, htext]), steps, htext, stepsIn_slash]
  | .here, [] => rfl
  | .here, x :: ps =>
    have htext : (unsplit .here (x :: ps)).text.toList =
        ['.'] ++ '/' :: (String.intercalate "/" (x :: ps)).toList := by
      simp [unsplit]
    have hstart : (unsplit .here (x :: ps)).start = (⟨"."⟩ : Path).start :=
      start_eq_of_append (by simp) rfl htext
    rw [hstart, steps, htext, stepsIn_append]
    rfl
  | .bare, [] => rfl
  | .bare, x :: ps =>
    have hstart : (⟨String.intercalate "/" (x :: ps)⟩ : Path).start = .bare :=
      start_intercalate (h x List.mem_cons_self) (hbare rfl x rfl)
    exact congrArg (Start.components · ++ _) hstart

theorem slash_not_mem_of_mem_split {x : String} (hx : x ∈ p.split.2) : '/' ∉ x.toList := by
  have hpieces {s : List Char} (hx : x ∈ piecesOf s) : '/' ∉ x.toList := by
    obtain ⟨t, ht, rfl⟩ := List.mem_map.1 hx
    simpa using Text.not_mem_of_mem_pieces ht
  unfold split at hx
  split at hx
  case h_2 => cases hx
  all_goals exact hpieces hx

theorem isTrivial_iff {x : String} : isTrivial x = true ↔ x = "" ∨ x = "." := by
  unfold isTrivial Component.ofPiece?
  split
  · next h => simp [h]
  · next h => split <;> simp [h]

/-- Only the empty path begins with an empty piece and does not start anywhere else. -/
theorem steps_eq_nil_of_isTrivial {x : String} {ps : List String} (hp : p.start = .bare)
    (hsplit : p.split.2 = x :: ps) (hx : isTrivial x = true) : p.steps = [] := by
  have hpieces : Text.pieces '/' p.text.toList = (x :: ps).map String.toList := by
    unfold start split at hp
    unfold split at hsplit
    split at hp <;> simp_all [← hsplit, piecesOf]
  cases ps with
  | nil =>
    rw [← filterMap_split, hsplit, List.filterMap_cons_none (by simpa [isTrivial] using hx)]
    rfl
  | cons y ps =>
    -- a slash after the piece makes the path start at the root or at a dot
    have htext := Text.joinPieces_pieces '/' p.text.toList
    rw [hpieces] at htext
    unfold start split at hp
    rw [← htext] at hp
    rcases isTrivial_iff.1 hx with rfl | rfl <;> cases hp

theorem isTrivial_eq_false_of_head? {x : String} (hbare : p.start = .bare) (hsteps : p.steps ≠ [])
    (hx : p.split.2.head? = some x) : isTrivial x = false := by
  rw [Bool.eq_false_iff]
  intro htrivial
  obtain ⟨ps, hps⟩ := List.head?_eq_some_iff.1 hx
  exact hsteps (steps_eq_nil_of_isTrivial hbare hps htrivial)

theorem exists_steps_eq {x : String} {before : List String}
    (h : p.split.2.reverse.dropWhile isTrivial = x :: before) :
    (before.dropWhile isTrivial).reverse <+: p.split.2 ∧
      ∃ d, p.steps = (before.dropWhile isTrivial).reverse.filterMap Component.ofPiece? ++ [d] := by
  have hx : isTrivial x = false := by
    have hhead := List.head?_dropWhile_not isTrivial p.split.2.reverse
    rw [h] at hhead
    simpa using hhead
  obtain ⟨d, hd⟩ := Option.isSome_iff_exists.1 (by simpa [isTrivial] using hx)
  constructor
  · have hbefore : before.dropWhile isTrivial <:+ p.split.2.reverse :=
      (List.dropWhile_suffix isTrivial).trans
        ((List.suffix_cons x before).trans (h ▸ List.dropWhile_suffix isTrivial))
    simpa using List.reverse_prefix.2 hbefore
  · refine ⟨d, ?_⟩
    rw [steps_eq_reverse, h, List.filterMap_cons_some hd, List.reverse_cons,
      List.filterMap_reverse, filterMap_dropWhile_isTrivial]

/-- A path that does not end in the root has a parent, which has all components but the last. -/
theorem map_components_parent? (hp : p.components = cs ++ [c]) (hc : c ≠ .root) :
    p.parent?.map components = some cs := by
  rw [components_eq] at hp
  rw [parent?, parents, head?_parentsFrom]
  cases hdrop : p.split.2.reverse.dropWhile isTrivial with
  | nil =>
    -- no step, so the one component is a leading dot
    have hstart : p.start.components = cs ++ [c] := by
      rw [steps_eq_reverse, hdrop] at hp
      exact (List.append_nil _).symm.trans hp
    have hhere : p.start = .here ∧ cs = [] := by
      cases h : p.start <;> rw [h] at hstart <;> cases cs <;> simp_all [Start.components]
    have hsplit : p.split.1 = .here := hhere.1
    rw [hsplit, hhere.2]
    rfl
  | cons x before =>
    obtain ⟨⟨rest, hrest⟩, d, hsteps⟩ := exists_steps_eq hdrop
    have hunsplit : (unsplit p.start (before.dropWhile isTrivial).reverse).components = cs := by
      rw [components_unsplit]
      · rw [hsteps, ← List.append_assoc] at hp
        exact (List.append_inj' hp rfl).1
      · exact fun y hy => slash_not_mem_of_mem_split (hrest ▸ List.mem_append_left rest hy)
      · intro hbare y hy
        refine isTrivial_eq_false_of_head? hbare (by simp [hsteps]) ?_
        rw [← hrest, List.head?_append, hy]
        rfl
    exact congrArg some hunsplit

theorem mem_components (h : c ∈ p.components) : c = .root ∨ c = .here ∨ c.IsStep := by
  rw [components_eq] at h
  rcases List.mem_append.1 h with h | h
  · cases hstart : p.start <;> simp_all [Start.components]
  · exact Or.inr (Or.inr (isStep_of_mem_steps h))

theorem fileName?_eq_some_iff :
    p.fileName? = some n ↔ ∃ cs, p.components = cs ++ [.name n] := by
  have hname (c : Component) : c.name? = some n ↔ c = .name n := by
    cases c <;> simp [Component.name?]
  simp [fileName?, Option.bind_eq_some_iff, hname, List.getLast?_eq_some_iff]

theorem isStep_of_fileName? (h : p.fileName? = some n) : (Component.name n).IsStep := by
  obtain ⟨cs, hcs⟩ := fileName?_eq_some_iff.1 h
  have hmem : .name n ∈ p.components := hcs ▸ by simp
  simpa using mem_components hmem

/-- A new file name takes the place of the last component if that is a name. -/
theorem components_withFileName (hf : (Component.name f).IsStep) :
    (p.withFileName f).components =
      (if p.fileName? = none then p.components else p.components.dropLast) ++ [.name f] := by
  unfold withFileName
  cases hn : p.fileName? with
  | none => exact hf.components_div
  | some n =>
    obtain ⟨cs, hcs⟩ := fileName?_eq_some_iff.1 hn
    obtain ⟨q, hq, hqs⟩ := Option.map_eq_some_iff.1 (map_components_parent? hcs nofun)
    rw [if_neg nofun, hcs, List.dropLast_concat, hq, ← hqs]
    exact hf.components_div

theorem same_iff : p.same q = true ↔ p.components = q.components := by
  simp [same]

end Path

end CompileDriver
