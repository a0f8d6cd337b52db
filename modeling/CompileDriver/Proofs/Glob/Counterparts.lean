import CompileDriver.Proofs.Glob.Joined
import CompileDriver.Proofs.Glob.Walk
import CompileDriver.Proofs.Host.Answers

/-! # Following a pattern from two directories

From two directories that look alike, parts that do not lead up are followed in step: what is found
below one of them has a counterpart below the other one.
-/

namespace CompileDriver

open Procedure

def Call.IsShort : Call → Prop
  | status p | list p => p.text.utf8ByteSize ≤ FileSystem.longestPath
  | _ => True

instance : (c : Call) → Decidable c.IsShort
  | .status p | .list p =>
    inferInstanceAs (Decidable (p.text.utf8ByteSize ≤ FileSystem.longestPath))
  | .makeDirectory _ | .create _ | .write .. | .read _ | .spawn _ | .record _ | .recorded
  | .warn _ | .say _ => .isTrue trivial

def Path.Counterparts (p q a b : Path) : Prop :=
  ∃ ns, Path.Descends ns ∧ a = p.under ns ∧ b = q.under ns

/-- What `reply` says about paths below `p` is what `reply'` says about those below `q`. -/
structure Alike (reply reply' : (c : Call) → c.Answer) (p q : Path) : Prop where
  absolute : p.isAbsolute = true ∧ q.isAbsolute = true
  status : ∀ a b, p.Counterparts q a b → (Call.status a).IsShort → (Call.status b).IsShort →
    reply (.status a) = reply' (.status b)
  list : ∀ a b, p.Counterparts q a b → (Call.list a).IsShort → (Call.list b).IsShort →
    reply (.list a) = reply' (.list b)
  names : ∀ a b names, p.Counterparts q a b → (Call.list a).IsShort →
    reply (.list a) = .ok names → ∀ n ∈ names, (Component.name n.1).IsStep

namespace Path.Counterparts

variable {p q a b : Path} {n : String}

theorem refl (p q : Path) : p.Counterparts q p q := ⟨[], nofun, rfl, rfl⟩

theorem div (h : p.Counterparts q a b) (hslash : '/' ∉ n.toList) (hn : n ≠ "..") :
    p.Counterparts q (a / n) (b / n) := by
  obtain ⟨ns, hns, rfl, rfl⟩ := h
  refine ⟨ns ++ [n], ?_, (under_concat p ns n).symm, (under_concat q ns n).symm⟩
  intro m hm
  rcases List.mem_append.1 hm with hm | hm
  · exact hns m hm
  · rw [List.mem_singleton.1 hm]
    exact ⟨hslash, hn⟩

theorem isAbsolute (h : p.Counterparts q a b) (hp : p.isAbsolute = true ∧ q.isAbsolute = true) :
    a.isAbsolute = true ∧ b.isAbsolute = true := by
  obtain ⟨ns, hns, rfl, rfl⟩ := h
  exact ⟨isAbsolute_under hp.1 ns, isAbsolute_under hp.2 ns⟩

end Path.Counterparts

theorem Alike.inStep_status {reply reply' : (c : Call) → c.Answer} {p q a b : Path} {α β : Type}
    {R : α → β → Prop} {next : Except IoError PathStatus → Procedure α}
    {next' : Except IoError PathStatus → Procedure β} (h : Alike reply reply' p q)
    (hab : p.Counterparts q a b)
    (hnext : ∀ r, InStep reply reply' Call.IsShort R (next r) (next' r)) :
    InStep reply reply' Call.IsShort R (call (.status a) next) (call (.status b) next') := by
  refine .call fun ha hb => ?_
  rw [h.status a b hab ha hb]
  exact hnext _

namespace Glob

variable {reply reply' : (c : Call) → c.Answer} {p q : Path} {a b : Place} {part : List Token}
  {parts : List (List Token)} {n m : Nat} {name : String} {onlyDirectories : Bool}

/-! ## Parts that do not lead up -/

/-- A part that matches only names below a directory. -/
structure StaysBelow (part : List Token) : Prop where
  slash_not_mem : ∀ name, literal? part = some name → '/' ∉ name.toList
  not_parent : part.head? = some (.char '.') → tokensMatch part "..".toList = false

theorem StaysBelow.name_ne_parent (h : StaysBelow part) (hname : literal? part = some name) :
    name ≠ ".." := by
  rintro rfl
  have hmatch := h.not_parent
  rw [literal?_eq_some_iff.1 hname] at hmatch
  exact absurd (hmatch rfl) (by decide)

/-! ## What remains to be done -/

/-- A bound for how often one has to go down to follow `parts` from `p`. -/
def effort (p : Path) : List (List Token) → Nat
  | [] => 0
  | parts => FileSystem.longestPath + 1 - p.text.utf8ByteSize + parts.length

theorem effort_le_cons (p : Path) (part : List Token) (parts : List (List Token)) :
    effort p parts ≤ effort p (part :: parts) := by
  cases parts with
  | nil => exact Nat.zero_le _
  | cons next parts => simp [effort]

theorem effort_cons_le {rest : List (List Token)} (p : Path) (part : List Token)
    (h : rest.length ≤ parts.length) : effort p (part :: rest) ≤ effort p (part :: parts) := by
  simp only [effort, List.length_cons]
  omega

theorem effort_cons_pos (p : Path) (part : List Token) (parts : List (List Token)) :
    0 < effort p (part :: parts) :=
  Nat.succ_pos _

theorem effort_div_le (hslash : '/' ∉ name.toList) (part : List Token) :
    effort (p / name) parts ≤ effort p (part :: parts) := by
  have hsize := Path.utf8ByteSize_le_div p hslash
  cases parts with
  | nil => exact Nat.zero_le _
  | cons next parts =>
    simp only [effort, List.length_cons]
    omega

theorem effort_div_lt (hslash : '/' ∉ name.toList) (hempty : name ≠ "")
    (hshort : p.text.utf8ByteSize ≤ FileSystem.longestPath) :
    effort (p / name) (part :: parts) < effort p (part :: parts) := by
  have hsize := Path.utf8ByteSize_lt_div p hslash hempty
  simp only [effort]
  omega

/-! ## Counterparts -/

def PlacesMatch (p q : Path) (a b : Place) : Prop :=
  p.Counterparts q a.path b.path ∧ a.isDirectory = b.isDirectory

/-- Items that are counterparts and can be visited by going down fewer than `n` and `m` times. -/
inductive ItemsMatch (p q : Path) (n m : Nat) : Item → Item → Prop
  | place {a b : Place} {parts : List (List Token)} (hplaces : PlacesMatch p q a b)
      (hparts : ∀ part ∈ parts, StaysBelow part)
      (hname : parts ≠ [] → a.path.fileName? = b.path.fileName?)
      (hn : effort a.path parts < n) (hm : effort b.path parts < m) :
      ItemsMatch p q n m (.place a parts) (.place b parts)
  | unreadable {a b : Path} {e : IoError} (hn : 0 < n) (hm : 0 < m) :
      ItemsMatch p q n m (.unreadable a e) (.unreadable b e)

inductive FindingsMatch (p q : Path) : Finding → Finding → Prop
  | found {a b : Path} (h : p.Counterparts q a b) : FindingsMatch p q (.found a) (.found b)
  | unreadable {a b : Path} {e : IoError} :
      FindingsMatch p q (.unreadable a e) (.unreadable b e)

theorem forall₂_entriesBelow {names : List (String × Bool)}
    (hplaces : PlacesMatch p q a b) (habs : p.isAbsolute = true ∧ q.isAbsolute = true)
    (hnames : ∀ n ∈ names, (Component.name n.1).IsStep)
    (hparts : ∀ x ∈ part :: parts, StaysBelow x)
    (ha : a.path.text.utf8ByteSize ≤ FileSystem.longestPath)
    (hb : b.path.text.utf8ByteSize ≤ FileSystem.longestPath)
    (hn : effort a.path (part :: parts) ≤ n) (hm : effort b.path (part :: parts) ≤ m) :
    List.Forall₂ (ItemsMatch p q n m) (entriesBelow (part :: parts) a names)
      (entriesBelow (part :: parts) b names) := by
  obtain ⟨haabs, hbabs⟩ := hplaces.1.isAbsolute habs
  rw [entriesBelow, entriesBelow, List.forall₂_map_left_iff, List.forall₂_map_right_iff,
    List.forall₂_same]
  intro x hx
  have hstep := hnames x (List.mem_mergeSort.1 hx)
  have hname (c : Path) : (c / x.1).fileName? = some x.1 :=
    Path.fileName?_eq_some_iff.2 ⟨_, hstep.components_div⟩
  rw [entry_of_isAbsolute haabs, entry_of_isAbsolute hbabs]
  refine .place ⟨hplaces.1.div hstep.1 hstep.2.2.2, rfl⟩ hparts (fun _ => ?_) ?_ ?_
  · rw [hname, hname]
  · exact (effort_div_lt hstep.1 hstep.2.1 ha).trans_le hn
  · exact (effort_div_lt hstep.1 hstep.2.1 hb).trans_le hm

/-! ## In step -/

theorem dotsBelow_parent (hpart : StaysBelow part) (parts : List (List Token)) (a : Place) :
    dotsBelow part parts a ".." = done [] := by
  rw [dotsBelow, if_neg]
  rintro ⟨hdot, hmatch⟩
  rw [hpart.not_parent hdot] at hmatch
  cases hmatch

theorem inStep_itemsBelow (halike : Alike reply reply' p q) (hplaces : PlacesMatch p q a b)
    (hparts : ∀ part ∈ parts, StaysBelow part) (hn : 0 < n) (hm : 0 < m)
    (ha : effort a.path parts ≤ n) (hb : effort b.path parts ≤ m) :
    InStep reply reply' Call.IsShort (List.Forall₂ (ItemsMatch p q n m))
      (itemsBelow parts a) (itemsBelow parts b) := by
  induction parts generalizing a b with
  | nil => exact .done (.cons (.place hplaces hparts (absurd rfl) hn hm) .nil)
  | cons part parts ih =>
    obtain ⟨hpart, hrest⟩ := List.forall_mem_cons.1 hparts
    obtain ⟨haabs, hbabs⟩ := hplaces.1.isAbsolute halike.absolute
    -- where the part stands for a name that is known beforehand
    have hnamed (name : String) (hslash : '/' ∉ name.toList) (hname : name ≠ "..") (d : Bool) :
        InStep reply reply' Call.IsShort (List.Forall₂ (ItemsMatch p q n m))
          (itemsBelow parts ⟨a.path / name, d⟩) (itemsBelow parts ⟨b.path / name, d⟩) :=
      ih ⟨hplaces.1.div hslash hname, rfl⟩ hrest ((effort_div_le hslash part).trans ha)
        ((effort_div_le hslash part).trans hb)
    cases hliteral : literal? part with
    | some name =>
      have hslash := hpart.slash_not_mem name hliteral
      have hname := hpart.name_ne_parent hliteral
      rw [itemsBelow_of_literal hliteral, itemsBelow_of_literal hliteral, namedBelow, namedBelow,
        entry_of_isAbsolute haabs, entry_of_isAbsolute hbabs, hplaces.2]
      refine halike.inStep_status (hplaces.1.div hslash hname) fun r => ?_
      exact .ite (fun _ => hnamed name hslash hname _) fun _ => .done .nil
    | none =>
      rw [itemsBelow_of_wildcards hliteral, itemsBelow_of_wildcards hliteral, hplaces.2]
      refine .ite (fun _ => .call fun hashort hbshort => ?_) fun _ => .done .nil
      have hanswer := halike.list _ _ hplaces.1 hashort hbshort
      have hnames := fun names => halike.names _ _ names hplaces.1 hashort
      rw [hanswer] at hnames ⊢
      rcases hlist : reply' (.list b.path) with e | names
      · exact .done (.cons (.unreadable hn hm) .nil)
      have hhere : InStep reply reply' Call.IsShort (List.Forall₂ (ItemsMatch p q n m))
          (dotsBelow part parts a ".") (dotsBelow part parts b ".") := by
        by_cases hmatch : part.head? = some (.char '.') ∧ tokensMatch part ".".toList
        · rw [dotsBelow, dotsBelow, if_pos hmatch, if_pos hmatch]
          refine halike.inStep_status (hplaces.1.div (by decide) (by decide)) fun r => ?_
          exact hnamed "." (by decide) (by decide) _
        · rw [dotsBelow, dotsBelow, if_neg hmatch, if_neg hmatch]
          exact .done .nil
      have hinside := forall₂_entriesBelow hplaces halike.absolute (hnames names hlist) hparts
        hashort hbshort ha hb
      refine hhere.bind fun here here' hhere => ?_
      rw [dotsBelow_parent hpart, dotsBelow_parent hpart]
      exact .done (List.rel_append hhere hinside)

theorem inStep_collect {below below' : Item → Procedure (List Finding)} {xs ys : List Item}
    (hbelow : ∀ x y, ItemsMatch p q n m x y → InStep reply reply' Call.IsShort
      (List.Forall₂ (FindingsMatch p q)) (below x) (below' y))
    (h : List.Forall₂ (ItemsMatch p q n m) xs ys) :
    InStep reply reply' Call.IsShort (List.Forall₂ (FindingsMatch p q)) (collect below xs)
      (collect below' ys) := by
  induction h with
  | nil => exact .done .nil
  | cons hxy _ ih =>
    refine (hbelow _ _ hxy).bind fun first first' hfirst => ?_
    exact ih.bind fun others others' hothers => .done (List.rel_append hfirst hothers)

theorem forall₂_found (hplaces : PlacesMatch p q a b) (onlyDirectories : Bool) :
    List.Forall₂ (FindingsMatch p q)
      (if onlyDirectories && !a.isDirectory then [] else [.found a.path])
      (if onlyDirectories && !b.isDirectory then [] else [.found b.path]) := by
  rw [hplaces.2]
  split
  · exact .nil
  · exact .cons (.found hplaces.1) .nil

theorem inStep_visitNamed (onlyDirectories : Bool) {below below' : Item → Procedure (List Finding)}
    (halike : Alike reply reply' p q)
    (hbelow : ∀ x y, ItemsMatch p q n m x y → InStep reply reply' Call.IsShort
      (List.Forall₂ (FindingsMatch p q)) (below x) (below' y))
    (hplaces : PlacesMatch p q a b) (hname : a.path.fileName? = b.path.fileName?)
    (hparts : ∀ part ∈ parts, StaysBelow part) (hn : 0 < n) (hm : 0 < m)
    (ha : effort a.path parts ≤ n) (hb : effort b.path parts ≤ m) :
    InStep reply reply' Call.IsShort (List.Forall₂ (FindingsMatch p q))
      (visitNamed onlyDirectories below a parts) (visitNamed onlyDirectories below' b parts) := by
  cases parts with
  | nil => exact .done .nil
  | cons part parts =>
    rw [visitNamed, visitNamed, hname]
    cases b.path.fileName? with
    | none => exact .done .nil
    | some name =>
      refine .ite (fun _ => .done .nil) fun _ => .ite (fun _ => ?_) fun _ => ?_
      · exact .done (forall₂_found hplaces onlyDirectories)
      · refine (inStep_itemsBelow halike hplaces (List.forall_mem_cons.1 hparts).2 hn hm
          ((effort_le_cons _ part parts).trans ha)
          ((effort_le_cons _ part parts).trans hb)).bind fun xs ys h => ?_
        exact inStep_collect hbelow h

theorem inStep_visit_cons (halike : Alike reply reply' p q)
    (hbelow : ∀ x y, ItemsMatch p q n m x y → InStep reply reply' Call.IsShort
      (List.Forall₂ (FindingsMatch p q)) (visit onlyDirectories n x) (visit onlyDirectories m y))
    (hplaces : PlacesMatch p q a b) (hname : a.path.fileName? = b.path.fileName?)
    (hparts : ∀ x ∈ part :: parts, StaysBelow x)
    (hn : effort a.path (part :: parts) ≤ n) (hm : effort b.path (part :: parts) ≤ m) :
    InStep reply reply' Call.IsShort (List.Forall₂ (FindingsMatch p q))
      (visit onlyDirectories (n + 1) (.place a (part :: parts)))
      (visit onlyDirectories (m + 1) (.place b (part :: parts))) := by
  have hnpos := (effort_cons_pos a.path part parts).trans_le hn
  have hmpos := (effort_cons_pos b.path part parts).trans_le hm
  have hsuffix := List.dropWhile_suffix isRecursive (l := parts)
  have hna := (effort_cons_le a.path part hsuffix.length_le).trans hn
  have hmb := (effort_cons_le b.path part hsuffix.length_le).trans hm
  have hrest : ∀ x ∈ parts.dropWhile isRecursive, StaysBelow x :=
    fun x hx => hparts x (List.mem_cons_of_mem part (hsuffix.subset hx))
  have hafter := inStep_visitNamed onlyDirectories halike hbelow hplaces hname hrest hnpos hmpos
    ((effort_le_cons _ part _).trans hna) ((effort_le_cons _ part _).trans hmb)
  rw [visit_succ, visit_succ, hplaces.2]
  refine .ite (fun _ => .ite (fun _ => ?_) fun _ => hafter) fun _ =>
    inStep_visitNamed onlyDirectories halike hbelow hplaces hname hparts hnpos hmpos hn hm
  refine (inStep_itemsBelow halike hplaces (List.forall_mem_cons.2 ⟨hparts part List.mem_cons_self,
    hrest⟩) hnpos hmpos hna hmb).bind fun inside inside' hinside => ?_
  refine (InStep.ite (fun _ => .done (.cons (.found hplaces.1) .nil)) fun _ => hafter).bind
    fun first first' hfirst => ?_
  refine (inStep_collect hbelow hinside).bind fun others others' hothers => ?_
  exact .done (List.rel_append hfirst hothers)

/-- How often one may go down does not matter, as long as it is often enough. -/
theorem inStep_visit (onlyDirectories : Bool) (halike : Alike reply reply' p q) {x y : Item}
    (h : ItemsMatch p q n m x y) :
    InStep reply reply' Call.IsShort (List.Forall₂ (FindingsMatch p q))
      (visit onlyDirectories n x) (visit onlyDirectories m y) := by
  induction n generalizing m x y with
  | zero => cases h <;> omega
  | succ n ih =>
    cases m with
    | zero => cases h <;> omega
    | succ m =>
      cases h with
      | unreadable hn hm => exact .done (.cons .unreadable .nil)
      | @place a b parts hplaces hparts hname hn hm =>
        cases parts with
        | nil => exact .done (forall₂_found hplaces onlyDirectories)
        | cons part parts =>
          exact inStep_visit_cons halike (fun x y h => ih h) hplaces
            (hname (List.cons_ne_nil part parts)) hparts (Nat.le_of_lt_succ hn)
            (Nat.le_of_lt_succ hm)

/-! ## From the root -/

/-- Pieces that lead from the root through directories only. -/
structure IsWay (reply : (c : Call) → c.Answer) (before : List String) : Prop where
  slash_not_mem : ∀ n ∈ before, '/' ∉ n.toList
  directory : ∀ ns, ns <+: before → (Call.status ((⟨"/"⟩ : Path).under ns)).IsShort →
    reply (.status ((⟨"/"⟩ : Path).under ns)) = .ok .directory

theorem inStep_literals {β : Type} {R : List Item → β → Prop} {y : Procedure β}
    {before : List String} (habs : p.isAbsolute = true) (hslash : ∀ n ∈ before, '/' ∉ n.toList)
    (hdirs : ∀ ns, ns <+: before → (Call.status (p.under ns)).IsShort →
      reply (.status (p.under ns)) = .ok .directory)
    (h : InStep reply reply' Call.IsShort R (itemsBelow parts ⟨p.under before, true⟩) y) :
    InStep reply reply' Call.IsShort R (itemsBelow (before.map literalPart ++ parts) ⟨p, true⟩)
      y := by
  induction before generalizing p with
  | nil => exact h
  | cons n before ih =>
    obtain ⟨hn, hslash⟩ := List.forall_mem_cons.1 hslash
    rw [List.map_cons, List.cons_append, itemsBelow_of_literal (literal?_eq_some_iff.2 rfl),
      namedBelow, entry_of_isAbsolute habs]
    refine .call_left fun hshort => ?_
    have hanswer : reply (.status (p / n)) = .ok .directory :=
      hdirs [n] ⟨before, rfl⟩ hshort
    rw [hanswer, if_pos (by split <;> rfl)]
    refine ih (Path.isAbsolute_div habs _) hslash (fun ns hns => ?_) h
    exact hdirs (n :: ns) (List.cons_prefix_cons.2 ⟨rfl, hns⟩)

theorem inStep_isDirectory_root {before before' : List String} (hway : IsWay reply before)
    (hway' : IsWay reply' before') :
    InStep reply reply' Call.IsShort (fun d d' => d = true ∧ d' = true) (isDirectory ⟨"/"⟩)
      (isDirectory ⟨"/"⟩) := by
  refine .call fun hshort _ => .done ?_
  have hleft := hway.directory [] (List.nil_prefix) hshort
  have hright := hway'.directory [] (List.nil_prefix) hshort
  rw [Path.under_nil] at hleft hright
  rw [hleft, hright]
  exact ⟨rfl, rfl⟩

theorem effort_le_of_isAbsolute (hp : p.isAbsolute = true) (parts : List (List Token)) :
    effort p parts ≤ FileSystem.longestPath + parts.length := by
  have hsize : p.text.utf8ByteSize ≠ 0 := by simpa using Path.text_ne_empty_of_isAbsolute hp
  cases parts with
  | nil => exact Nat.zero_le _
  | cons part parts =>
    simp only [effort]
    omega

theorem inStep_yields {before before' : List String} (hway : IsWay reply before)
    (hway' : IsWay reply' before')
    (halike : Alike reply reply' ((⟨"/"⟩ : Path).under before) ((⟨"/"⟩ : Path).under before'))
    (hparts : ∀ part ∈ parts, StaysBelow part) (onlyDirectories : Bool) :
    InStep reply reply' Call.IsShort (List.Forall₂ (FindingsMatch ((⟨"/"⟩ : Path).under before)
      ((⟨"/"⟩ : Path).under before'))) (yields onlyDirectories (before.map literalPart ++ parts))
      (yields onlyDirectories (before'.map literalPart ++ parts)) := by
  refine (inStep_isDirectory_root hway hway').bind ?_
  rintro _ _ ⟨rfl, rfl⟩
  have hbound (before : List String) : FileSystem.longestPath + parts.length ≤
      FileSystem.longestPath + (before.map literalPart ++ parts).length := by
    simp
  have hpos (n : Nat) : 0 < FileSystem.longestPath + n := Nat.add_pos_left (by decide) n
  have hitems := inStep_itemsBelow halike (a := ⟨_, true⟩) (b := ⟨_, true⟩)
    ⟨Path.Counterparts.refl _ _, rfl⟩ hparts (hpos _) (hpos _)
    ((effort_le_of_isAbsolute halike.absolute.1 parts).trans (hbound before))
    ((effort_le_of_isAbsolute halike.absolute.2 parts).trans (hbound before'))
  refine (inStep_literals rfl hway.slash_not_mem hway.directory (.swap
    (inStep_literals rfl hway'.slash_not_mem hway'.directory hitems.swap))).bind fun xs ys h => ?_
  exact inStep_collect (fun x y hxy => inStep_visit onlyDirectories halike hxy) h

end Glob

end CompileDriver
