import CompileDriver.Glob.Walk
import CompileDriver.Proofs.FileSystem.Extension
import CompileDriver.Proofs.Host.Answers
import CompileDriver.Proofs.Path.Components

/-! # Following a pattern

The parts of a pattern are followed one after the other. No step looks at the contents of files.
-/

namespace CompileDriver

open Procedure

namespace Procedure

theorem shallow_isFile (p : Path) : (isFile p).CallsOnly Call.IsShallow :=
  ⟨trivial, fun _ => trivial⟩

theorem shallow_isDirectory (p : Path) : (isDirectory p).CallsOnly Call.IsShallow :=
  ⟨trivial, fun _ => trivial⟩

end Procedure

namespace Glob

variable {part : List Token} {parts : List (List Token)} {place : Place}

/-! ## Steps -/

theorem entry_of_isAbsolute {p : Path} (hp : p.isAbsolute = true) (name : String) :
    entry p name = p / name := by
  rw [entry, if_neg]
  rw [Path.same_iff]
  intro hsame
  rw [Path.isAbsolute_iff, hsame] at hp
  cases hp

/-- The items below the entry `name` that a part without wildcards spells. -/
def namedBelow (parts : List (List Token)) (place : Place) (name : String) :
    Procedure (List Item) :=
  call (.status (entry place.path name)) fun r =>
    if (if name = "." ∨ name = ".." then place.isDirectory else r.toOption.isSome) then
      itemsBelow parts ⟨entry place.path name, r.toOption == some .directory⟩
    else done []

/-- The items below `.` or `..`, which only parts that begin with a dot match. -/
def dotsBelow (part : List Token) (parts : List (List Token)) (place : Place) (name : String) :
    Procedure (List Item) :=
  if part.head? = some (.char '.') ∧ tokensMatch part name.toList then
    call (.status (place.path / name)) fun r =>
      itemsBelow parts ⟨place.path / name, r.toOption == some .directory⟩
  else done []

def entriesBelow (parts : List (List Token)) (place : Place) (names : List (String × Bool)) :
    List Item :=
  (names.mergeSort fun a b => a.1 ≤ b.1).map fun n => .place ⟨entry place.path n.1, n.2⟩ parts

theorem itemsBelow_of_literal {name : String} (hname : literal? part = some name) :
    itemsBelow (part :: parts) place = namedBelow parts place name := by
  rw [itemsBelow, hname]
  rfl

theorem itemsBelow_of_wildcards (hpart : literal? part = none) :
    itemsBelow (part :: parts) place = if place.isDirectory then
      call (.list place.path) fun
        | .error e => done [.unreadable place.path e]
        | .ok names => (dotsBelow part parts place ".").bind fun here =>
          (dotsBelow part parts place "..").bind fun up =>
            done (up ++ here ++ entriesBelow (part :: parts) place names)
      else done [] := by
  rw [itemsBelow, hpart]
  rfl

/-- What comes of a place whose own name is compared with the first part. -/
def visitNamed (onlyDirectories : Bool) (below : Item → Procedure (List Finding)) (p : Place) :
    List (List Token) → Procedure (List Finding)
  | [] => done []
  | part :: parts =>
    match p.path.fileName? with
    | none => done []
    | some name =>
      if !tokensMatch part name.toList then done []
      else if parts.isEmpty then
        done (if onlyDirectories && !p.isDirectory then [] else [.found p.path])
      else (itemsBelow parts p).bind (collect below)

theorem visit_succ (onlyDirectories : Bool) (depth : Nat) (p : Place) :
    visit onlyDirectories (depth + 1) (.place p (part :: parts)) =
      let rest := parts.dropWhile isRecursive
      if isRecursive part then
        if p.isDirectory then
          (itemsBelow (part :: rest) p).bind fun inside =>
            (if rest.isEmpty then done [.found p.path]
              else visitNamed onlyDirectories (visit onlyDirectories depth) p rest).bind
                fun first => (collect (visit onlyDirectories depth) inside).bind
                  fun others => done (first ++ others)
        else visitNamed onlyDirectories (visit onlyDirectories depth) p rest
      else visitNamed onlyDirectories (visit onlyDirectories depth) p (part :: parts) := by
  rw [visit]
  rfl

/-! ## Calls -/

theorem shallow_itemsBelow (parts : List (List Token)) (place : Place) :
    (itemsBelow parts place).CallsOnly Call.IsShallow := by
  induction parts generalizing place with
  | nil => trivial
  | cons part parts ih =>
    cases hpart : literal? part with
    | some name =>
      rw [itemsBelow_of_literal hpart]
      exact ⟨trivial, fun r => (ih _).ite trivial⟩
    | none =>
      have hdots (name : String) : (dotsBelow part parts place name).CallsOnly Call.IsShallow := by
        exact CallsOnly.ite ⟨trivial, fun _ => ih _⟩ trivial
      rw [itemsBelow_of_wildcards hpart]
      refine CallsOnly.ite ⟨trivial, fun r => ?_⟩ trivial
      rcases r with e | names
      · trivial
      · exact (hdots ".").bind fun _ => (hdots "..").bind fun _ => trivial

theorem shallow_collect {visit : Item → Procedure (List Finding)}
    (hvisit : ∀ item, (visit item).CallsOnly Call.IsShallow) (items : List Item) :
    (collect visit items).CallsOnly Call.IsShallow := by
  induction items with
  | nil => trivial
  | cons item items ih => exact (hvisit item).bind fun _ => ih.bind fun _ => trivial

theorem shallow_visitNamed (onlyDirectories : Bool) {below : Item → Procedure (List Finding)}
    (hbelow : ∀ item, (below item).CallsOnly Call.IsShallow) (p : Place)
    (parts : List (List Token)) :
    (visitNamed onlyDirectories below p parts).CallsOnly Call.IsShallow := by
  cases parts with
  | nil => trivial
  | cons part parts =>
    rw [visitNamed]
    cases p.path.fileName? with
    | none => trivial
    | some name =>
      have hrest := (shallow_itemsBelow parts p).bind (shallow_collect hbelow)
      refine CallsOnly.ite (.done []) (CallsOnly.ite (.done _) hrest)

theorem shallow_visit (onlyDirectories : Bool) (depth : Nat) (item : Item) :
    (visit onlyDirectories depth item).CallsOnly Call.IsShallow := by
  induction depth generalizing item with
  | zero => trivial
  | succ depth ih =>
    rcases item with ⟨p, _ | ⟨part, parts⟩⟩ | ⟨p, e⟩
    · trivial
    · have hnamed := shallow_visitNamed onlyDirectories ih p
      rw [visit_succ]
      refine CallsOnly.ite (CallsOnly.ite ?_ (hnamed _)) (hnamed _)
      refine (shallow_itemsBelow _ p).bind fun inside => ?_
      exact (CallsOnly.ite (.done _) (hnamed _)).bind fun _ =>
        (shallow_collect ih inside).bind fun _ => trivial
    · trivial

theorem shallow_findings {pattern : Path} {yields : Procedure (List Finding)}
    (hyields : findings pattern = .ok yields) : yields.CallsOnly Call.IsShallow := by
  unfold findings at hyields
  obtain ⟨_, -, hyields⟩ := bind_eq_ok_iff.1 hyields
  obtain ⟨parts, -, hyields⟩ := bind_eq_ok_iff.1 hyields
  rw [← Except.ok.inj hyields]
  exact (shallow_isDirectory _).bind fun _ => (shallow_itemsBelow parts _).bind
    (shallow_collect (shallow_visit _ _))

end Glob

end CompileDriver
