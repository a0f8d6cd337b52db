import CompileDriver.Proofs.FileSystem.Interference

/-! # Paths that are spelled with a last dot

A path such as `new/.` leads through the directory above it and then takes one last step. A request
to make it finds out what is in the way of the directory above. Where that exists, the last step has
to lead to a directory.
-/

namespace CompileDriver

open FileSystem

namespace Path

variable {fs : FileSystem} {cwd l : Location} {p q : Path} {c : Component}

instance : DecidablePred EndsInStepOrSlash := fun p =>
  decidable_of_iff (p.steps = [] ∨
      (withoutLastSlashes (FileSystem.steps p)).getLast?.any (!isTrivial ·) = true)
    (by simp [EndsInStepOrSlash, Option.any_eq_true])

/-- The path is spelled with a last dot, and nothing lies where it ends. -/
def EndsInMissingDot (fs : FileSystem) (cwd : Location) (p : Path) : Prop :=
  ¬ p.EndsInStepOrSlash ∧ fs.node? (p.destination cwd) = none

instance (fs : FileSystem) (cwd : Location) : DecidablePred (EndsInMissingDot fs cwd) :=
  fun _ => inferInstanceAs (Decidable (_ ∧ _))

/-- A path that a request can carry and that is spelled with a last dot leads through `q` and then
takes the step `c`. -/
structure EndsInDot (p q : Path) (c : Component) : Prop where
  dot : ¬ p.EndsInStepOrSlash
  parent : q.IsParentOf p
  steps : p.steps = q.steps ++ [c]
  checked : checkPath p = .ok ()

theorem text_ne_empty_of_not_endsInStepOrSlash (hp : ¬ p.EndsInStepOrSlash) : p.text ≠ "" := by
  intro hempty
  refine hp (Or.inl ?_)
  rw [steps, hempty]
  rfl

theorem exists_endsInDot (hp : ¬ p.EndsInStepOrSlash) (hcheck : checkPath p = .ok ()) :
    ∃ q c, EndsInDot p q c := by
  have hsteps : p.steps ≠ [] := fun hnil => hp (Or.inl hnil)
  obtain ⟨q, above, habove⟩ := List.exists_cons_of_ne_nil fun hnil =>
    hsteps (steps_eq_nil_of_parents_eq_nil hnil)
  have hq := isParentOf_of_parents_eq habove
  obtain ⟨c, hc⟩ := hq.steps.resolve_left fun hnil => hsteps hnil.2
  exact ⟨q, c, hp, hq, hc, hcheck⟩

theorem passes_cases (hq : q.IsParentOf p) (hl : p.Passes cwd l) :
    q.Passes cwd l ∨ l = p.destination cwd := by
  obtain ⟨cs, hcs, rfl⟩ := hl
  rcases hq.steps with ⟨-, hnil⟩ | ⟨c, hc⟩
  · rw [hnil, List.prefix_nil] at hcs
    rw [destination, hnil, hcs]
    exact Or.inr rfl
  · rw [hc, List.prefix_concat_iff] at hcs
    rcases hcs with rfl | hcs
    · rw [destination, hc]
      exact Or.inr rfl
    · rw [← startOf_of_isParentOf hq]
      exact Or.inl ⟨cs, hcs, rfl⟩

namespace EndsInDot

theorem isStep (hp : EndsInDot p q c) : c.IsStep :=
  isStep_of_mem_steps (p := p) (by simp [hp.steps])

theorem destination_eq (hp : EndsInDot p q c) :
    p.destination cwd = c.next (q.destination cwd) := by
  rw [destination, destination, hp.steps, startOf_of_isParentOf hp.parent, List.foldl_append]
  rfl

theorem passes (hp : EndsInDot p q c) (hl : q.Passes cwd l) : p.Passes cwd l :=
  passes_of_isParentOf hp.parent hl

theorem follow_eq (hp : EndsInDot p q c) :
    fs.follow (.directory (startOf cwd p)) (p.steps.map Component.text) =
      fs.follow (.directory (startOf cwd q)) (q.steps.map Component.text) >>= fun t =>
        fs.follow t [c.text] := by
  rw [hp.steps, List.map_append, follow_append, startOf_of_isParentOf hp.parent]
  rfl

end EndsInDot

end Path

namespace FileSystem

variable {fs gs : FileSystem} {cwd l : Location} {p q : Path} {c : Component}
  {cs ds : List Component} {b : Bool} {e : IoError} {D F : Location → Prop}

/-! ## The directory above -/

theorem checkPath_of_checkDirectory (hne : p.text ≠ "")
    (hway : fs.checkDirectory cwd p = .ok ()) : checkPath p = .ok () := by
  rw [checkDirectory, if_neg hne] at hway
  obtain ⟨_, hcheck, -⟩ := bind_eq_ok_iff.1 hway
  exact hcheck

theorem checkWay_of_append (h : fs.checkWay b l (cs ++ ds) = .ok ()) :
    fs.checkWay b l cs = .ok () := by
  induction cs generalizing l b with
  | nil => rfl
  | cons c cs ih =>
    cases c with
    | root | here | parent => exact ih h
    | name s =>
      rw [List.cons_append, checkWay_name] at h
      rw [checkWay_name]
      by_cases hlong : longestName < s.utf8ByteSize
      · rw [if_pos hlong] at h
        cases h
      · rw [if_neg hlong] at h ⊢
        cases hn : fs.node? (l ++ [s]) with
        | none =>
          rw [hn] at h
          exact ih h
        | some n =>
          rw [hn] at h
          cases n with
          | directory => exact ih h
          | file f => cases h

theorem checkDirectory_of_isParentOf (hq : q.IsParentOf p) (hcheck : checkPath p = .ok ())
    (hway : fs.checkDirectory cwd p = .ok ()) : fs.checkDirectory cwd q = .ok () := by
  rw [checkDirectory_eq_checkWay (Or.inr hcheck)] at hway
  rw [checkDirectory_eq_checkWay (checkPath_of_isParentOf hq hcheck), startOf_of_isParentOf hq]
  obtain ⟨ds, hds⟩ := hq.steps_prefix
  rw [← hds] at hway
  exact checkWay_of_append hway

theorem checkWay_ne_notFound : fs.checkWay b l cs ≠ .error .notFound := by
  induction cs generalizing l b with
  | nil => nofun
  | cons c cs ih =>
    cases c with
    | root | here | parent => exact ih
    | name s =>
      rw [checkWay_name]
      split
      · nofun
      · split
        · exact ih
        · split <;> nofun
        · exact ih

theorem checkDirectory_ne_notFound : fs.checkDirectory cwd p ≠ .error .notFound := by
  by_cases hempty : p.text = ""
  · rw [checkDirectory, if_pos hempty]
    intro hok
    cases hok
  · rw [checkDirectory, if_neg hempty]
    have hne := checkPath_ne_notFound hempty
    generalize checkPath p = check at hne ⊢
    cases check with
    | error e => exact hne
    | ok _ => exact checkWay_ne_notFound

theorem exists_checkDirectory_error (h : ChangesOnly D F fs gs) (hF : ∀ l, p.Passes cwd l → ¬ F l)
    (hway : fs.checkDirectory cwd p = .error e) : ∃ e', gs.checkDirectory cwd p = .error e' := by
  have hagrees := agrees_checkDirectory h hF
  rw [hway] at hagrees
  generalize gs.checkDirectory cwd p = way at hagrees
  cases hagrees with
  | error _ => exact ⟨_, rfl⟩

/-- Where something is in the way of the directory above, a request for the path misses something,
or it finds out what is in the way. -/
theorem makeDirectory_of_obstacle (hp : p.EndsInDot q c)
    (hway : fs.checkDirectory cwd q = .error e) :
    (fs.makeDirectory cwd p = .error .notFound ∧
        fs.checkDirectory cwd p = fs.checkDirectory cwd q) ∨
      ∃ e', fs.makeDirectory cwd p = .error e' ∧ fs.checkDirectory cwd p = .error e' ∧
        e' ≠ .notFound := by
  rw [makeDirectory_of_endsInDot hp.dot hp.checked]
  cases ht : fs.follow (.directory (startOf cwd p)) (p.steps.map Component.text) with
  | error e' =>
    by_cases he' : e' = .notFound
    · subst he'
      rw [checkDirectory_of_missing hp.parent hp.steps hp.checked ht, hway]
      exact Or.inl ⟨rfl, rfl⟩
    · refine Or.inr ⟨e', rfl, ?_, he'⟩
      rw [checkDirectory_eq_checkWay (Or.inr hp.checked), checkWay_eq_of_follow
        (fun _ => Path.isStep_of_mem_steps) (by simpa [ht] using he'), ht]
  | ok t =>
    -- where a path leads somewhere, the directory above exists
    rw [hp.follow_eq] at ht
    obtain ⟨u, hu, hlast⟩ := bind_eq_ok_iff.1 ht
    rw [checkDirectory_eq_checkWay (checkPath_of_isParentOf hp.parent hp.checked),
      checkWay_eq_of_follow (fun _ => Path.isStep_of_mem_steps) (by simp [hu]), hu] at hway
    cases u with
    | directory l => cases hway
    | file l f => cases hlast
    | free l name => cases hway

/-- A request that misses nothing on the way finds the directory above, if nothing is in the way of
that. -/
theorem hasDirectory_above (hp : p.EndsInDot q c) (hway : fs.checkDirectory cwd q = .ok ())
    (hm : fs.makeDirectory cwd p = .error e) (he : e ≠ .notFound) : fs.HasDirectory cwd q := by
  have hcheck := checkPath_of_isParentOf hp.parent hp.checked
  refine Classical.or_iff_not_imp_left.2 fun hempty => ?_
  rw [status_eq_directory_iff_follow (hcheck.resolve_left hempty)]
  rw [makeDirectory_of_endsInDot hp.dot hp.checked, hp.follow_eq] at hm
  rw [checkDirectory_eq_checkWay hcheck] at hway
  by_cases hmissing : fs.follow (.directory (startOf cwd q)) (q.steps.map Component.text) =
      .error .notFound
  · rw [hmissing] at hm
    cases hm
    exact absurd rfl he
  · rw [checkWay_eq_of_follow (fun _ => Path.isStep_of_mem_steps) hmissing] at hway
    cases ht : fs.follow (.directory (startOf cwd q)) (q.steps.map Component.text) with
    | error e' =>
      rw [ht] at hway
      cases hway
    | ok t =>
      rw [ht] at hm hway
      cases t with
      | directory l => exact ⟨l, rfl⟩
      | file l f => cases hway
      | free l name =>
        cases hm
        exact absurd rfl he

/-! ## The last step -/

/-- Refuse the last step of a path that is spelled with a last dot: from the directory above, it has
to lead to a directory. -/
def checkLast (fs : FileSystem) (l : Location) : Component → Except IoError Unit
  | .name s =>
    if longestName < s.utf8ByteSize then .error .nameTooLong
    else match fs.node? (l ++ [s]) with
      | some .directory => .ok ()
      | some (.file _) => .error .notADirectory
      | none => .error .notFound
  | _ => .ok ()

theorem checkLast_eq_follow (hp : p.EndsInDot q c) (habove : fs.HasDirectory cwd q) :
    fs.checkLast (q.destination cwd) c =
      match fs.follow (.directory (startOf cwd p)) (p.steps.map Component.text) with
      | .ok (.directory _) => .ok ()
      | .ok (.file ..) => .error .notADirectory
      | .ok (.free ..) => .error .notFound
      | .error e => .error e := by
  have hfollow : fs.follow (.directory (startOf cwd p)) (p.steps.map Component.text) =
      fs.follow (.directory (q.destination cwd)) [c.text] := by
    rw [hp.follow_eq, follow_of_hasDirectory habove]
    rfl
  rw [hfollow]
  cases c with
  | root | here => exact hp.isStep.elim
  | parent => rfl
  | name s =>
    rw [Component.text, follow_name hp.isStep, checkLast]
    by_cases hlong : longestName < s.utf8ByteSize
    · rw [if_pos hlong, if_pos hlong]
    · rw [if_neg hlong, if_neg hlong, lookUp]
      cases fs.node? (q.destination cwd ++ [s]) with
      | none => rfl
      | some n => cases n <;> rfl

theorem status_eq_directory_iff_checkLast (hp : p.EndsInDot q c)
    (habove : fs.HasDirectory cwd q) :
    fs.status cwd p = .ok .directory ↔ fs.checkLast (q.destination cwd) c = .ok () := by
  rw [status_eq_directory_iff_follow hp.checked, checkLast_eq_follow hp habove]
  rcases fs.follow (.directory (startOf cwd p)) (p.steps.map Component.text) with e | t
  · simp
  · cases t <;> simp

theorem checkLast_of_makeDirectory (hp : p.EndsInDot q c) (habove : fs.HasDirectory cwd q)
    (hm : fs.makeDirectory cwd p = .error e) :
    fs.checkLast (q.destination cwd) c = .ok () ∨
      fs.checkLast (q.destination cwd) c = .error e := by
  rw [makeDirectory_of_endsInDot hp.dot hp.checked] at hm
  obtain rfl := Except.error.inj hm
  rw [checkLast_eq_follow hp habove]
  rcases fs.follow (.directory (startOf cwd p)) (p.steps.map Component.text) with e' | t
  · exact Or.inr rfl
  · cases t with
    | directory l => exact Or.inl rfl
    | file l f => exact Or.inr rfl
    | free l name => exact Or.inr rfl

theorem checkLast_of_checkDirectory (hp : p.EndsInDot q c) (habove : fs.HasDirectory cwd q)
    (hway : fs.checkDirectory cwd p = .ok ())
    (hdir : fs.node? (p.destination cwd) = some .directory) :
    fs.checkLast (q.destination cwd) c = .ok () := by
  have hisStep : ∀ d ∈ q.steps ++ [c], d.IsStep := fun d hd =>
    Path.isStep_of_mem_steps (hp.steps ▸ hd)
  rw [checkDirectory_eq_checkWay (Or.inr hp.checked), hp.steps, ← startOf_of_isParentOf hp.parent,
    (checkWay_of_follow_directory hisStep (follow_of_hasDirectory habove)).2] at hway
  rw [hp.destination_eq] at hdir
  cases c with
  | root | here | parent => rfl
  | name s =>
    change fs.node? (q.destination cwd ++ [s]) = some .directory at hdir
    rw [checkWay_name] at hway
    rw [checkLast, hdir]
    split at hway
    · cases hway
    · next hshort => rw [if_neg hshort]

theorem checkLast_eq_notFound_iff : fs.checkLast l c = .error .notFound ↔
    ∃ s, c = .name s ∧ ¬ longestName < s.utf8ByteSize ∧ fs.node? (l ++ [s]) = none := by
  constructor
  · intro h
    cases c with
    | root | here | parent => cases h
    | name s =>
      rw [checkLast] at h
      split at h
      · cases h
      · next hshort =>
        refine ⟨s, rfl, hshort, ?_⟩
        cases hn : fs.node? (l ++ [s]) with
        | none => rfl
        | some n =>
          rw [hn] at h
          cases n <;> cases h
  · rintro ⟨s, rfl, hshort, hnone⟩
    rw [checkLast, if_neg hshort, hnone]

theorem checkLast_of_changesOnly (h : ChangesOnly D F fs gs) (hF : ¬ F (c.next l))
    (hne : fs.checkLast l c ≠ .error .notFound) : gs.checkLast l c = fs.checkLast l c := by
  cases c with
  | root | here | parent => rfl
  | name s =>
    rcases h.node?_cases hF with hsame | ⟨hnone, -⟩
    · change gs.node? (l ++ [s]) = fs.node? (l ++ [s]) at hsame
      rw [checkLast, checkLast, hsame]
    · rw [checkLast, checkLast]
      by_cases hlong : longestName < s.utf8ByteSize
      · rw [if_pos hlong, if_pos hlong]
      · exact absurd (checkLast_eq_notFound_iff.2 ⟨s, rfl, hlong, hnone⟩) hne

end FileSystem

end CompileDriver
