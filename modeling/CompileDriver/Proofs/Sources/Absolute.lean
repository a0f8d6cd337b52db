import CompileDriver.Proofs.Host.Confined
import CompileDriver.Proofs.Path.Parents
import CompileDriver.Proofs.Sources.Expansion

/-! # Sources below an absolute directory

Seen from an absolute directory, entries stand for absolute paths, and only absolute paths are asked
for on the way.
-/

namespace CompileDriver

open Procedure

namespace Glob

variable {part : List Token} {parts : List (List Token)} {p : Place}

def Item.IsAbsolute : Item → Prop
  | place p _ => p.path.isAbsolute = true
  | unreadable _ _ => True

def Finding.IsAbsolute : Finding → Prop
  | found p => p.isAbsolute = true
  | unreadable _ _ => True

/-- All of some items, or of some findings, lie at absolute paths. -/
abbrev Confines {α : Type} (IsAbsolute : α → Prop) : Procedure (List α) → Prop :=
  Procedure.Confined Call.IsAbsolute fun xs => ∀ x ∈ xs, IsAbsolute x

theorem confined_itemsBelow (parts : List (List Token)) (hp : p.path.isAbsolute = true) :
    Confines Item.IsAbsolute (itemsBelow parts p) := by
  induction parts generalizing p with
  | nil => exact List.forall_mem_singleton.2 hp
  | cons part parts ih =>
    cases hpart : literal? part with
    | some name =>
      have hentry : (entry p.path name).isAbsolute = true := by
        rw [entry_of_isAbsolute hp]
        exact Path.isAbsolute_div hp name
      rw [itemsBelow_of_literal hpart]
      exact ⟨hentry, fun r => .ite (fun _ => ih hentry) fun _ => nofun⟩
    | none =>
      have hdots (name : String) :
          Confines Item.IsAbsolute (dotsBelow part parts p name) := by
        have hname := Path.isAbsolute_div hp name
        exact .ite (fun _ => ⟨hname, fun _ => ih hname⟩) fun _ => nofun
      have hinside (names : List (String × Bool)) :
          ∀ x ∈ entriesBelow (part :: parts) p names, x.IsAbsolute := by
        intro x hx
        obtain ⟨n, -, rfl⟩ := List.mem_map.1 hx
        rw [Item.IsAbsolute, entry_of_isAbsolute hp]
        exact Path.isAbsolute_div hp n.1
      rw [itemsBelow_of_wildcards hpart]
      refine .ite (fun _ => ⟨hp, fun r => ?_⟩) fun _ => nofun
      rcases r with e | names
      · exact List.forall_mem_singleton.2 trivial
      · refine (hdots ".").bind fun here hhere => (hdots "..").bind fun up hup => ?_
        exact List.forall_mem_append.2 ⟨List.forall_mem_append.2 ⟨hup, hhere⟩, hinside names⟩

theorem confined_collect {visit : Item → Procedure (List Finding)}
    (hvisit : ∀ item, item.IsAbsolute → Confines Finding.IsAbsolute (visit item))
    {items : List Item} (hitems : ∀ item ∈ items, item.IsAbsolute) :
    Confines Finding.IsAbsolute (collect visit items) := by
  induction items with
  | nil => exact nofun
  | cons item items ih =>
    obtain ⟨hitem, hitems⟩ := List.forall_mem_cons.1 hitems
    refine (hvisit item hitem).bind fun first hfirst => (ih hitems).bind fun others hothers => ?_
    exact List.forall_mem_append.2 ⟨hfirst, hothers⟩

theorem isAbsolute_itself (c : Prop) [Decidable c] (hp : p.path.isAbsolute = true) :
    ∀ f ∈ (if c then [] else [Finding.found p.path]), f.IsAbsolute := by
  split
  · exact nofun
  · exact List.forall_mem_singleton.2 hp

theorem confined_visitNamed (onlyDirectories : Bool) {below : Item → Procedure (List Finding)}
    (hbelow : ∀ item, item.IsAbsolute → Confines Finding.IsAbsolute (below item))
    (hp : p.path.isAbsolute = true) (parts : List (List Token)) :
    Confines Finding.IsAbsolute (visitNamed onlyDirectories below p parts) := by
  cases parts with
  | nil => exact nofun
  | cons part parts =>
    rw [visitNamed]
    cases p.path.fileName? with
    | none => exact nofun
    | some name =>
      refine .ite (fun _ => nofun) fun _ => .ite (fun _ => isAbsolute_itself _ hp) fun _ => ?_
      exact (confined_itemsBelow parts hp).bind fun _ => confined_collect hbelow

theorem confined_visit (onlyDirectories : Bool) (depth : Nat) (item : Item)
    (hitem : item.IsAbsolute) :
    Confines Finding.IsAbsolute (visit onlyDirectories depth item) := by
  induction depth generalizing item with
  | zero => exact nofun
  | succ depth ih =>
    rcases item with ⟨p, _ | ⟨part, parts⟩⟩ | ⟨p, e⟩
    · exact isAbsolute_itself _ hitem
    · have hnamed := confined_visitNamed onlyDirectories ih hitem
      rw [visit_succ]
      refine .ite (fun _ => .ite (fun _ => ?_) fun _ => hnamed _) fun _ => hnamed _
      refine (confined_itemsBelow _ hitem).bind fun inside hinside => ?_
      refine Confined.bind (Q := fun fs => ∀ f ∈ fs, f.IsAbsolute) ?_ fun first hfirst => ?_
      · exact .ite (fun _ => List.forall_mem_singleton.2 hitem) fun _ => hnamed _
      · refine (confined_collect ih hinside).bind fun others hothers => ?_
        exact List.forall_mem_append.2 ⟨hfirst, hothers⟩
    · exact List.forall_mem_singleton.2 trivial

theorem confined_findings {pattern : Path} {yields : Procedure (List Finding)}
    (hpattern : pattern.isAbsolute = true) (hyields : findings pattern = .ok yields) :
    Confines Finding.IsAbsolute yields := by
  unfold findings at hyields
  obtain ⟨_, -, hyields⟩ := bind_eq_ok_iff.1 hyields
  obtain ⟨parts, -, hyields⟩ := bind_eq_ok_iff.1 hyields
  rw [if_pos hpattern] at hyields
  rw [← Except.ok.inj hyields]
  have hroot : (⟨"/"⟩ : Path).isAbsolute = true := rfl
  refine Confined.bind (Q := fun _ => True) ⟨hroot, fun _ => trivial⟩ fun _ _ => ?_
  exact (confined_itemsBelow parts hroot).bind fun _ => confined_collect (confined_visit _ _)

end Glob

namespace Sources

variable {base : Path}

def AreAbsolute (ps : List Path) : Prop := ∀ p ∈ ps, p.isAbsolute = true

theorem confined_regularFiles {fs : List Glob.Finding} (hfs : ∀ f ∈ fs, f.IsAbsolute) :
    (regularFiles fs).Confined Call.IsAbsolute AreAbsolute := by
  induction fs with
  | nil => exact nofun
  | cons f fs ih =>
    rw [List.forall_mem_cons] at hfs
    cases f with
    | found p =>
      refine Confined.bind (Q := fun _ => True) ⟨hfs.1, fun _ => trivial⟩ fun keep _ => ?_
      refine (ih hfs.2).bind fun ps hps => ?_
      change AreAbsolute (if keep then p :: ps else ps)
      split
      · exact List.forall_mem_cons.2 ⟨hfs.1, hps⟩
      · exact hps
    | unreadable p e => exact ⟨trivial, fun _ => ih hfs.2⟩

theorem confined_expandEntry (hbase : base.isAbsolute = true) (entry : String) :
    (expandEntry base entry).Confined Call.IsAbsolute (InSuccess AreAbsolute) := by
  have hentry := Path.isAbsolute_div hbase entry
  refine .ite (fun _ => ?_) fun _ => ?_
  · cases hyields : Glob.findings (base / entry) with
    | error e => trivial
    | ok yields =>
      refine (Glob.confined_findings hentry hyields).bind fun fs hfs => ?_
      refine (confined_regularFiles hfs).bind fun ps hps p hp => hps p ?_
      exact (List.mergeSort_perm ps Path.le).mem_iff.1 hp
  · exact List.forall_mem_singleton.2 hentry

theorem confined_expandEntries (hbase : base.isAbsolute = true) (entries : List String) :
    (expandEntries base entries).Confined Call.IsAbsolute (InSuccess AreAbsolute) := by
  induction entries with
  | nil => exact nofun
  | cons entry entries ih =>
    refine (confined_expandEntry hbase entry).andThen fun ps hps => ih.andThen fun qs hqs => ?_
    exact List.forall_mem_append.2 ⟨hps, hqs⟩

theorem confined_expand (hbase : base.isAbsolute = true) (entries : List String) :
    (expand base entries).Confined Call.IsAbsolute (InSuccess AreAbsolute) :=
  (confined_expandEntries hbase entries).andThen fun _ hps p hp => hps p ((distinct_sublist _).subset hp)

end Sources

end CompileDriver
