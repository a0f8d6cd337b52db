import CompileDriver.Proofs.FileSystem.Frame

/-! # What stands in the way of directories

Only files and names that are too long keep a directory from being made with the directories above
it. What is in the way is known before anything is made, and new directories take no part in it,
except that a file may be met earlier and be reported as no directory instead of as existing.
-/

namespace CompileDriver

/-- A path that ends in a step or in slashes after it, and not in a dot, if it has any step. -/
def Path.EndsInStepOrSlash (p : Path) : Prop :=
  p.steps = [] ∨ ∃ x, (FileSystem.withoutLastSlashes (FileSystem.steps p)).getLast? = some x ∧
    isTrivial x = false

theorem Path.EndsInStep.orSlash {p : Path} (hp : p.EndsInStep) : p.EndsInStepOrSlash := by
  refine hp.imp_right fun ⟨x, hlast, hx⟩ => ⟨x, ?_, hx⟩
  obtain ⟨qs, hqs, hempty⟩ := FileSystem.exists_withoutLastSlashes_append (FileSystem.steps p)
  have hsteps : (FileSystem.steps p).getLast? = some x := Path.getLast?_piecesOf hlast
  rw [hqs, List.getLast?_append] at hsteps
  cases hend : qs.getLast? with
  | none => rwa [hend] at hsteps
  | some y =>
    rw [hend] at hsteps
    cases hsteps
    rw [hempty x (List.mem_of_getLast? hend)] at hx
    cases hx

namespace FileSystem

variable {fs gs : FileSystem} {cwd k l : Location} {p : Path} {ps : List String} {x : String}
  {c : Component} {cs ds : List Component} {b b' : Bool} {D F : Location → Prop}

/-! ## Following steps -/

theorem follow_cons (t : Target) (x : String) (ps : List String) :
    fs.follow t (x :: ps) = fs.follow t [x] >>= fun u => fs.follow u ps :=
  follow_append t [x] ps

theorem follow_of_filterMap_eq_nil (h : ps.filterMap Component.ofPiece? = []) :
    fs.follow (.directory k) ps = .ok (.directory k) := by
  refine follow_of_forall_trivial fun x hx => ?_
  rw [← Path.isTrivial_iff, Path.isTrivial, Option.isNone_iff_eq_none]
  exact List.filterMap_eq_nil_iff.1 h x hx

theorem filterMap_map_text (hcs : ∀ c ∈ cs, c.IsStep) :
    (cs.map Component.text).filterMap Component.ofPiece? = cs := by
  induction cs with
  | nil => rfl
  | cons c cs ih =>
    obtain ⟨hc, hrest⟩ := List.forall_mem_cons.1 hcs
    rw [List.map_cons, List.filterMap_cons_some hc.ofPiece?_text, ih hrest]

theorem follow_name {s : String} (hs : (Component.name s).IsStep) :
    fs.follow (.directory l) (s :: ps) =
      if longestName < s.utf8ByteSize then .error .nameTooLong
      else fs.follow (fs.lookUp l s) ps := by
  rw [follow, if_neg (not_or.2 ⟨hs.2.1, hs.2.2.1⟩), if_neg hs.2.2.2]

theorem follow_eq_follow_text {t : Target} (hlast : ps.getLast? = some x)
    (hx : Path.isTrivial x = false) :
    fs.follow t ps = fs.follow t ((ps.filterMap Component.ofPiece?).map Component.text) := by
  induction ps generalizing t with
  | nil => cases hlast
  | cons y ps ih =>
    cases ps with
    | nil =>
      obtain rfl : y = x := by simpa using hlast
      obtain ⟨c, hc⟩ := Option.isSome_iff_exists.1 (by simpa [Path.isTrivial] using hx)
      rw [List.filterMap_cons_some hc, List.filterMap_nil, List.map_singleton,
        Component.text_of_ofPiece? hc]
    | cons z ps =>
      rw [List.getLast?_cons_cons] at hlast
      cases hy : Component.ofPiece? y with
      | none =>
        have htrivial : y = "" ∨ y = "." := Path.isTrivial_iff.1 (by simp [Path.isTrivial, hy])
        -- there is a step left, so both sides fail the same way after a file or a free name
        obtain ⟨u, us, hus⟩ : ∃ u us,
            ((z :: ps).filterMap Component.ofPiece?).map Component.text = u :: us := by
          obtain ⟨c, hc⟩ := Option.isSome_iff_exists.1 (by simpa [Path.isTrivial] using hx)
          have hmem := List.mem_filterMap.2 ⟨x, List.mem_of_getLast? hlast, hc⟩
          exact List.exists_cons_of_ne_nil (by simpa using List.ne_nil_of_mem hmem)
        rw [List.filterMap_cons_none hy]
        cases t with
        | directory l => rw [follow, if_pos htrivial, ih hlast]
        | file l f => rw [hus]; rfl
        | free l name => rw [hus]; rfl
      | some c =>
        rw [List.filterMap_cons_some hy, List.map_cons, Component.text_of_ofPiece? hy, follow_cons,
          follow_cons t y (List.map _ _)]
        exact congrArg (fs.follow t [y] >>= ·) (funext fun u => ih hlast)

theorem follow_withoutLastSlashes_steps (hp : p.EndsInStepOrSlash) :
    fs.follow (.directory k) (withoutLastSlashes (steps p)) =
      fs.follow (.directory k) (p.steps.map Component.text) := by
  have hsteps : (withoutLastSlashes (steps p)).filterMap Component.ofPiece? = p.steps :=
    filterMap_withoutLastSlashes _
  rcases hp with hnil | ⟨x, hlast, hx⟩
  · rw [hnil]
    exact follow_of_filterMap_eq_nil (hsteps.trans hnil)
  · rw [follow_eq_follow_text hlast hx, hsteps]

theorem follow_singleton_of_trivial {t : Target} (hx : Path.isTrivial x = true) :
    fs.follow t [x] = fs.follow t ["."] := by
  cases t with
  | directory l =>
    rw [follow_of_forall_trivial (by simpa using Path.isTrivial_iff.1 hx),
      follow_of_forall_trivial (by decide)]
  | file l f => rfl
  | free l name => rfl

theorem follow_concat_of_trivial (hx : Path.isTrivial x = true) :
    fs.follow (.directory k) (ps ++ [x]) =
      fs.follow (.directory k) (((ps ++ [x]).filterMap Component.ofPiece?).map Component.text) >>=
        fun t => fs.follow t ["."] := by
  have hfilter {y : String} (qs : List String) (hy : Path.isTrivial y = true) :
      (qs ++ [y]).filterMap Component.ofPiece? = qs.filterMap Component.ofPiece? := by
    have hnone : Component.ofPiece? y = none := by simpa [Path.isTrivial] using hy
    simp [hnone]
  have hlast (r : Except IoError Target) :
      (r >>= fun t => fs.follow t [x]) = r >>= fun t => fs.follow t ["."] :=
    congrArg (r >>= ·) (funext fun t => follow_singleton_of_trivial hx)
  rw [follow_append, hlast, hfilter ps hx]
  induction ps using List.reverseRecOn with
  | nil => rfl
  | append_singleton ps y ih =>
    cases hy : Path.isTrivial y with
    | false => rw [follow_eq_follow_text List.getLast?_concat hy]
    | true =>
      rw [hfilter ps hy, ← ih, follow_append]
      cases fs.follow (.directory k) ps with
      | error e => rfl
      | ok t =>
        change (fs.follow t [y] >>= fun t => fs.follow t ["."]) = fs.follow t ["."]
        rw [follow_singleton_of_trivial hy]
        cases t with
        | directory l =>
          rw [follow_of_forall_trivial (by decide)]
          exact follow_of_forall_trivial (by decide)
        | file l f => rfl
        | free l name => rfl

theorem follow_eq_directory_iff :
    fs.follow (.directory k) ps = .ok (.directory l) ↔
      fs.follow (.directory k) ((ps.filterMap Component.ofPiece?).map Component.text) =
        .ok (.directory l) := by
  rcases List.eq_nil_or_concat ps with rfl | ⟨qs, x, rfl⟩
  · exact Iff.rfl
  · rw [List.concat_eq_append]
    cases hx : Path.isTrivial x with
    | false => rw [follow_eq_follow_text List.getLast?_concat hx]
    | true =>
      rw [follow_concat_of_trivial hx]
      cases fs.follow (.directory k)
          (((qs ++ [x]).filterMap Component.ofPiece?).map Component.text) with
      | error e => exact Iff.rfl
      | ok t =>
        change fs.follow t ["."] = _ ↔ _
        cases t with
        | directory m => rw [follow_of_forall_trivial (by decide)]
        | file m f => exact iff_of_false nofun nofun
        | free m name => exact iff_of_false nofun nofun

/-! ## What is in the way -/

/-- Refuse steps from the directory `l` to a directory that cannot be made with those above it. The
system meets a file before the last step, unless a directory before it is `missing`: then it meets
the file only in the place of the directory to be made. -/
def checkWay (fs : FileSystem) : Bool → Location → List Component → Except IoError Unit
  | _, _, [] => .ok ()
  | missing, l, .name s :: cs =>
    if longestName < s.utf8ByteSize then .error .nameTooLong
    else match fs.node? (l ++ [s]) with
      | some .directory => checkWay fs missing (l ++ [s]) cs
      | some (.file _) =>
        .error (if missing = true ∨ cs = [] then .alreadyExists else .notADirectory)
      | none => checkWay fs true (l ++ [s]) cs
  | missing, l, c :: cs => checkWay fs missing (c.next l) cs

/-- Refuse a directory that cannot be made with those above it. -/
def checkDirectory (fs : FileSystem) (cwd : Location) (p : Path) : Except IoError Unit :=
  if p.text = "" then .ok ()
  else do
    checkPath p
    fs.checkWay false (startOf cwd p) p.steps

theorem checkWay_name {s : String} : fs.checkWay b l (.name s :: cs) =
    if longestName < s.utf8ByteSize then .error .nameTooLong
    else match fs.node? (l ++ [s]) with
      | some .directory => fs.checkWay b (l ++ [s]) cs
      | some (.file _) => .error (if b = true ∨ cs = [] then .alreadyExists else .notADirectory)
      | none => fs.checkWay true (l ++ [s]) cs := by
  rw [checkWay]

/-- What a system finds that follows the steps itself, unless it misses something on the way. -/
theorem checkWay_eq_of_follow (hcs : ∀ c ∈ cs, c.IsStep)
    (hfound : fs.follow (.directory l) (cs.map Component.text) ≠ .error .notFound) :
    fs.checkWay false l cs =
      match fs.follow (.directory l) (cs.map Component.text) with
      | .ok (.file ..) => .error .alreadyExists
      | .ok _ => .ok ()
      | .error e => .error e := by
  induction cs generalizing l with
  | nil => rfl
  | cons c cs ih =>
    obtain ⟨hc, hrest⟩ := List.forall_mem_cons.1 hcs
    cases c with
    | root | here => exact hc.elim
    | parent => exact ih hrest hfound
    | name s =>
      rw [List.map_cons, Component.text, follow_name hc] at hfound ⊢
      rw [checkWay_name]
      by_cases hlong : longestName < s.utf8ByteSize
      · rw [if_pos hlong, if_pos hlong]
      · rw [if_neg hlong] at hfound ⊢
        rw [if_neg hlong]
        unfold lookUp at hfound ⊢
        cases hn : fs.node? (l ++ [s]) with
        | none =>
          rw [hn] at hfound
          cases cs with
          | nil => rfl
          | cons d ds => exact absurd rfl hfound
        | some n =>
          rw [hn] at hfound
          cases n with
          | directory => exact ih hrest hfound
          | file f => cases cs <;> rfl

theorem checkWay_eq_true_or (hcs : ∀ c ∈ cs, c.IsStep) :
    fs.checkWay false l cs = fs.checkWay true l cs ∨
      fs.follow (.directory l) (cs.map Component.text) = .error .notADirectory := by
  induction cs generalizing l with
  | nil => exact Or.inl rfl
  | cons c cs ih =>
    obtain ⟨hc, hrest⟩ := List.forall_mem_cons.1 hcs
    cases c with
    | root | here => exact hc.elim
    | parent => exact ih hrest
    | name s =>
      rw [List.map_cons, Component.text, follow_name hc, checkWay_name, checkWay_name]
      by_cases hlong : longestName < s.utf8ByteSize
      · rw [if_pos hlong, if_pos hlong]
        exact Or.inl rfl
      · rw [if_neg hlong, if_neg hlong, if_neg hlong, lookUp]
        cases fs.node? (l ++ [s]) with
        | none => exact Or.inl rfl
        | some n =>
          cases n with
          | directory => exact ih hrest
          | file f =>
            cases cs with
            | nil => exact Or.inl rfl
            | cons d ds => exact Or.inr rfl

theorem checkWay_append : fs.checkWay true l (cs ++ ds) =
    fs.checkWay true l cs >>= fun _ => fs.checkWay true (cs.foldl Component.next l) ds := by
  induction cs generalizing l with
  | nil => rfl
  | cons c cs ih =>
    cases c with
    | root | here | parent => exact ih
    | name s =>
      rw [List.cons_append, checkWay_name, checkWay_name, List.foldl_cons]
      by_cases hlong : longestName < s.utf8ByteSize
      · rw [if_pos hlong, if_pos hlong]
        rfl
      · rw [if_neg hlong, if_neg hlong]
        cases fs.node? (l ++ [s]) with
        | none => exact ih
        | some n =>
          cases n with
          | directory => exact ih
          | file f => rfl

/-- Whether something is missing before the last step does not count for that step. -/
theorem checkWay_singleton : fs.checkWay b l [c] = fs.checkWay true l [c] := by
  cases c with
  | root | here | parent => rfl
  | name s =>
    rw [checkWay_name, checkWay_name]
    cases fs.node? (l ++ [s]) with
    | none => rfl
    | some n => cases n <;> simp [checkWay]

theorem follow_singleton_ne_notFound (hc : c.IsStep) :
    fs.follow (.directory l) [c.text] ≠ .error .notFound := by
  intro h
  cases c with
  | root | here => exact hc.elim
  | parent => cases h
  | name s =>
    rw [Component.text, follow_name hc, follow] at h
    split at h <;> cases h

theorem checkWay_of_follow_notFound (hcs : ∀ d ∈ cs ++ [c], d.IsStep)
    (hmissing : fs.follow (.directory l) ((cs ++ [c]).map Component.text) = .error .notFound) :
    fs.checkWay false l (cs ++ [c]) = fs.checkWay false l cs >>= fun _ =>
      fs.checkWay true (cs.foldl Component.next l) [c] := by
  have hwhole : fs.checkWay false l (cs ++ [c]) = fs.checkWay true l (cs ++ [c]) := by
    have hor : fs.checkWay false l (cs ++ [c]) = _ ∨ _ := checkWay_eq_true_or hcs
    refine hor.resolve_right fun h => ?_
    rw [hmissing] at h
    cases h
  have habove : fs.checkWay false l cs = fs.checkWay true l cs := by
    have hor : fs.checkWay false l cs = _ ∨ _ :=
      checkWay_eq_true_or fun d hd => hcs d (List.mem_append_left _ hd)
    refine hor.resolve_right fun h => ?_
    rw [List.map_append, follow_append, h] at hmissing
    cases hmissing
  rw [hwhole, habove, checkWay_append]

theorem checkWay_of_follow_directory {m : Location} (hcs : ∀ d ∈ cs ++ [c], d.IsStep)
    (habove : fs.follow (.directory l) (cs.map Component.text) = .ok (.directory m)) :
    fs.follow (.directory l) ((cs ++ [c]).map Component.text) ≠ .error .notFound ∧
      fs.checkWay false l (cs ++ [c]) = fs.checkWay true m [c] := by
  have hfollow : fs.follow (.directory l) ((cs ++ [c]).map Component.text) =
      fs.follow (.directory m) ([c].map Component.text) := by
    rw [List.map_append, follow_append, habove]
    rfl
  have hc : ∀ d ∈ [c], d.IsStep := fun d hd => hcs d (List.mem_append_right cs hd)
  have hfound : fs.follow (.directory m) ([c].map Component.text) ≠ .error .notFound :=
    follow_singleton_ne_notFound (hc c List.mem_cons_self)
  refine ⟨hfollow ▸ hfound, ?_⟩
  rw [checkWay_eq_of_follow hcs (hfollow ▸ hfound), hfollow, ← checkWay_eq_of_follow hc hfound,
    checkWay_singleton]

/-! ## New directories -/

/-- From `fs` to `gs`, all that changes is that directories come into being. -/
abbrev AddsDirectories (fs gs : FileSystem) : Prop :=
  ChangesOnly (fun _ => True) (fun _ => False) fs gs

theorem AddsDirectories.le (h : fs.AddsDirectories gs) : fs ≤ gs := by
  intro l n hn
  rcases h.node?_cases id with hsame | ⟨hnone, -⟩
  · exact hsame.trans hn
  · simp [hn] at hnone

/-- New directories on the way change at most how a file in the way is reported. -/
theorem checkWay_of_changesOnly (h : ChangesOnly D F fs gs)
    (hF : ∀ ds, ds <+: cs → ¬ F (ds.foldl Component.next l)) (hb : b' = true → b = true) :
    gs.checkWay b' l cs = fs.checkWay b l cs ∨
      (gs.checkWay b' l cs = .error .notADirectory ∧ b' = false ∧
        fs.checkWay b l cs = .error .alreadyExists) := by
  induction cs generalizing l b b' with
  | nil => exact Or.inl rfl
  | cons c cs ih =>
    have hrest : ∀ ds, ds <+: cs → ¬ F (ds.foldl Component.next (c.next l)) := fun ds hds =>
      hF (c :: ds) (List.cons_prefix_cons.2 ⟨rfl, hds⟩)
    cases c with
    | root | here | parent => exact ih hrest hb
    | name s =>
      rw [checkWay_name, checkWay_name]
      by_cases hlong : longestName < s.utf8ByteSize
      · rw [if_pos hlong, if_pos hlong]
        exact Or.inl rfl
      · rw [if_neg hlong, if_neg hlong]
        rcases h.node?_cases (hrest [] List.nil_prefix) with hsame | ⟨hnone, hnew⟩
        · change gs.node? (l ++ [s]) = fs.node? (l ++ [s]) at hsame
          rw [hsame]
          cases fs.node? (l ++ [s]) with
          | none =>
            have hor : gs.checkWay true (l ++ [s]) cs = fs.checkWay true (l ++ [s]) cs ∨ _ :=
              ih hrest id
            exact Or.inl (hor.resolve_right nofun)
          | some n =>
            cases n with
            | directory => exact ih hrest hb
            | file f => cases b' <;> cases b <;> by_cases hcs : cs = [] <;> simp_all
        · change fs.node? (l ++ [s]) = none at hnone
          change gs.node? (l ++ [s]) = some .directory at hnew
          rw [hnone, hnew]
          exact ih (b := true) hrest fun _ => rfl

/-- Where nothing lies and nothing leads back, no file is in the way. -/
theorem checkWay_ne_alreadyExists (hl : fs.node? l = none) (hcs : Component.parent ∉ cs) :
    fs.checkWay b l cs ≠ .error .alreadyExists := by
  induction cs generalizing l b with
  | nil => nofun
  | cons c cs ih =>
    obtain ⟨hc, hrest⟩ := not_or.1 (List.mem_cons.not.1 hcs)
    cases c with
    | parent => exact absurd rfl hc
    | root | here => exact ih hl hrest
    | name s =>
      have hs : fs.node? (l ++ [s]) = none := by
        cases hn : fs.node? (l ++ [s]) with
        | none => rfl
        | some n =>
          have hdir := node?_dropLast fs hn
          rw [List.dropLast_concat, hl] at hdir
          cases hdir
      rw [checkWay_name, hs]
      split
      · nofun
      · exact ih hs hrest

theorem checkWay_eq_of_changesOnly (h : ChangesOnly D F fs gs)
    (hF : ∀ ds, ds <+: cs → ¬ F (ds.foldl Component.next l)) (hcs : Component.parent ∉ cs) :
    gs.checkWay b l cs = fs.checkWay b l cs := by
  induction cs generalizing l with
  | nil => rfl
  | cons c cs ih =>
    obtain ⟨hc, hrest⟩ := not_or.1 (List.mem_cons.not.1 hcs)
    have hF' : ∀ ds, ds <+: cs → ¬ F (ds.foldl Component.next (c.next l)) := fun ds hds =>
      hF (c :: ds) (List.cons_prefix_cons.2 ⟨rfl, hds⟩)
    cases c with
    | parent => exact absurd rfl hc
    | root | here => exact ih hF' hrest
    | name s =>
      rw [checkWay_name, checkWay_name]
      by_cases hlong : longestName < s.utf8ByteSize
      · rw [if_pos hlong, if_pos hlong]
      · rw [if_neg hlong, if_neg hlong]
        have hsame {b' : Bool} (hnone : fs.node? (l ++ [s]) = none) :
            gs.checkWay b' (l ++ [s]) cs = fs.checkWay true (l ++ [s]) cs := by
          rcases checkWay_of_changesOnly h hF' fun _ => rfl with heq | ⟨-, -, hfile⟩
          · exact heq
          · exact absurd hfile (checkWay_ne_alreadyExists hnone hrest)
        rcases h.node?_cases (hF' [] List.nil_prefix) with hkept | ⟨hnone, hnew⟩
        · change gs.node? (l ++ [s]) = fs.node? (l ++ [s]) at hkept
          rw [hkept]
          cases hn : fs.node? (l ++ [s]) with
          | none => exact hsame hn
          | some n =>
            cases n with
            | directory => exact ih hF' hrest
            | file f => rfl
        · change fs.node? (l ++ [s]) = none at hnone
          change gs.node? (l ++ [s]) = some .directory at hnew
          rw [hnone, hnew]
          exact hsame hnone

end FileSystem

end CompileDriver
