import CompileDriver.Proofs.Glob.Counterparts
import CompileDriver.Proofs.Sources.Expansion

/-! # Moved source directories

The sources below a directory stay the same when everything below it is moved to another directory,
as long as neither directory has wildcards in its own name.
-/

namespace CompileDriver

open Procedure

instance : Std.ReflCmp (compare : Component → Component → Ordering) :=
  inferInstanceAs (Std.ReflCmp (compareLex (compareOn Component.rank) (compareOn Component.text)))

/-- `q` is seen from `moved` as `p` is seen from `base`, without a step up. -/
def Path.Moved (base moved p q : Path) : Prop :=
  ∃ cs, Component.parent ∉ cs ∧ p.components = base.components ++ cs ∧
    q.components = moved.components ++ cs

namespace Path.Moved

variable {base moved p p' q q' : Path}

theorem of_counterparts {b m : Path} (h : b.Counterparts m p q)
    (habs : b.isAbsolute = true ∧ m.isAbsolute = true) (hb : b.components = base.components)
    (hm : m.components = moved.components) : base.Moved moved p q := by
  obtain ⟨ns, hns, rfl, rfl⟩ := h
  refine ⟨ns.filterMap Component.ofPiece?, fun hparent => ?_, ?_, ?_⟩
  · obtain ⟨n, hn, hpiece⟩ := List.mem_filterMap.1 hparent
    exact (hns n hn).2 (Component.text_of_ofPiece? hpiece).symm
  · rw [components_under habs.1 hns.slash_not_mem, hb]
  · rw [components_under habs.2 hns.slash_not_mem, hm]

theorem le_eq (h : base.Moved moved p q) (h' : base.Moved moved p' q') : p.le p' = q.le q' := by
  obtain ⟨cs, -, hp, hq⟩ := h
  obtain ⟨cs', -, hp', hq'⟩ := h'
  rw [le, le, hp, hq, hp', hq', FileSystem.compare_append, FileSystem.compare_append]

theorem same_eq (h : base.Moved moved p q) (h' : base.Moved moved p' q') :
    p.same p' = q.same q' := by
  obtain ⟨cs, -, hp, hq⟩ := h
  obtain ⟨cs', -, hp', hq'⟩ := h'
  rw [Bool.eq_iff_iff, same_iff, same_iff, hp, hq, hp', hq', List.append_cancel_left_eq,
    List.append_cancel_left_eq]

end Path.Moved

namespace Sources

variable {base moved b m : Path} {ps qs : List Path} {entry : String} {entries : List String}
  {reply reply' : (c : Call) → c.Answer}

theorem forall₂_sorted (h : List.Forall₂ (base.Moved moved) ps qs) :
    List.Forall₂ (base.Moved moved) (sorted ps) (sorted qs) := by
  obtain ⟨zs, hzs, rfl, rfl⟩ : ∃ zs : List (Path × Path), (∀ z ∈ zs, base.Moved moved z.1 z.2) ∧
      ps = zs.map Prod.fst ∧ qs = zs.map Prod.snd := by
    refine ⟨ps.zip qs, fun z hz => (List.forall₂_iff_zip.1 h).2 hz, ?_, ?_⟩
    · rw [List.map_fst_zip h.length_eq.le]
    · rw [List.map_snd_zip h.length_eq.ge]
  have hle : ∀ y ∈ zs, ∀ z ∈ zs, y.1.le z.1 = y.2.le z.2 :=
    fun y hy z hz => (hzs y hy).le_eq (hzs z hz)
  have hleft : sorted (zs.map Prod.fst) = (zs.mergeSort fun y z => y.1.le z.1).map Prod.fst :=
    (List.map_mergeSort (f := Prod.fst) (s := Path.le) fun y _ z _ => rfl).symm
  have hright : sorted (zs.map Prod.snd) = (zs.mergeSort fun y z => y.1.le z.1).map Prod.snd :=
    (List.map_mergeSort hle).symm
  rw [hleft, hright, List.forall₂_map_left_iff, List.forall₂_map_right_iff, List.forall₂_same]
  exact fun z hz => hzs z (List.mem_mergeSort.1 hz)

theorem forall₂_distinct (h : List.Forall₂ (base.Moved moved) ps qs) :
    List.Forall₂ (base.Moved moved) (distinct ps) (distinct qs) := by
  induction h with
  | nil => exact .nil
  | cons hpq _ ih =>
    refine .cons hpq (List.rel_filter ?_ ih)
    intro p q h
    exact iff_of_eq (congrArg (fun b => (!b) = true) (hpq.same_eq h))

/-! ## Entries that do not lead out -/

/-- Whether a piece of a pattern can stand for `..`; only those that begin with a dot can. -/
def matchesParent (piece : List Char) : Bool :=
  match Glob.tokens piece with
  | .ok part => part.head? == some (.char '.') && Glob.tokensMatch part "..".toList
  | .error _ => false

/-- An entry that does not lead out of the directory that it is seen from. -/
structure StaysInside (entry : String) : Prop where
  relative : (⟨entry⟩ : Path).isAbsolute = false
  parent_not_mem : Component.parent ∉ (⟨entry⟩ : Path).steps
  not_matchesParent : ∀ piece ∈ Text.pieces '/' entry.toList, matchesParent piece = false

instance (entry : String) : Decidable (StaysInside entry) :=
  decidable_of_iff ((⟨entry⟩ : Path).isAbsolute = false ∧
    Component.parent ∉ (⟨entry⟩ : Path).steps ∧
    ∀ piece ∈ Text.pieces '/' entry.toList, matchesParent piece = false)
    ⟨fun ⟨h, h', h''⟩ => ⟨h, h', h''⟩, fun ⟨h, h', h''⟩ => ⟨h, h', h''⟩⟩

theorem exists_of_mem_mapM {s : List (List Char)} {parts : List (List Glob.Token)}
    {part : List Glob.Token} (h : s.mapM Glob.tokens = .ok parts) (hpart : part ∈ parts) :
    ∃ piece ∈ s, Glob.tokens piece = .ok part := by
  induction s generalizing parts with
  | nil =>
    cases h
    cases hpart
  | cons piece s ih =>
    rw [List.mapM_cons] at h
    obtain ⟨first, hfirst, h⟩ := bind_eq_ok_iff.1 h
    obtain ⟨rest, hrest, h⟩ := bind_eq_ok_iff.1 h
    cases h
    rcases List.mem_cons.1 hpart with rfl | hpart
    · exact ⟨piece, List.mem_cons_self, hfirst⟩
    · obtain ⟨other, hother, htokens⟩ := ih hrest hpart
      exact ⟨other, List.mem_cons_of_mem piece hother, htokens⟩

theorem StaysInside.staysBelow (h : StaysInside entry) {parts : List (List Glob.Token)}
    (hparts : Glob.partsBelow entry.toList = .ok parts) : ∀ part ∈ parts, Glob.StaysBelow part := by
  intro part hpart
  obtain ⟨piece, hpiece, htokens⟩ := exists_of_mem_mapM hparts hpart
  have hmem : piece ∈ Text.pieces '/' entry.toList := by
    split at hpiece
    · exact (List.dropLast_prefix _).subset hpiece
    · exact hpiece
  constructor
  · intro name hname
    rw [Glob.literal?_eq_some_iff.1 hname] at htokens
    rw [Glob.eq_of_readTokens_eq_map_char htokens]
    exact Text.not_mem_of_mem_pieces hmem
  · intro hdot
    have hnot := h.not_matchesParent piece hmem
    rw [matchesParent, htokens] at hnot
    simpa [hdot] using hnot

theorem isPlain_of_isPattern_eq_false {s : String} (h : isPattern s = false) :
    Glob.IsPlain s.toList := by
  intro c hc
  have hnot := List.any_eq_false.1 h c hc
  simp only [Bool.or_eq_true, beq_iff_eq, not_or] at hnot
  exact ⟨hnot.1.2, hnot.1.1, hnot.2⟩

/-! ## Results that correspond -/

/-- What comes of the same entry, or of the same entries, in two directories. -/
inductive Corresponds (base moved : Path) :
    Except GlobFailure (List Path) → Except GlobFailure (List Path) → Prop
  | ok {ps qs : List Path} (h : List.Forall₂ (base.Moved moved) ps qs) :
      Corresponds base moved (.ok ps) (.ok qs)
  | error {f g : GlobFailure} (hentry : f.entry = g.entry)
      (hmistake : f.error.mistake = g.error.mistake) :
      Corresponds base moved (.error f) (.error g)

theorem Corresponds.lies_below {ps : List Path} {r : Except GlobFailure (List Path)}
    (h : Corresponds base moved (.ok ps) r) :
    ∀ p ∈ ps, ∃ cs, Component.parent ∉ cs ∧ p.components = base.components ++ cs := by
  cases h with
  | ok hpq =>
    have hboth := hpq.imp fun p q (hmoved : base.Moved moved p q) =>
      And.intro (hmoved.imp fun cs h => And.intro h.1 h.2.1) hmoved
    exact ((List.forall₂_and_left _ _).1 hboth).1

theorem Corresponds.of_regularFiles {ps qs : List Path} (h : List.Forall₂ (b.Counterparts m) ps qs)
    (habs : b.isAbsolute = true ∧ m.isAbsolute = true) (hb : b.components = base.components)
    (hm : m.components = moved.components) :
    Corresponds base moved (.ok (sorted ps)) (.ok (sorted qs)) :=
  .ok (forall₂_sorted (h.imp fun _ _ hpq => .of_counterparts hpq habs hb hm))

theorem inStep_andThen {x y : Procedure (Except GlobFailure (List Path))}
    {f g : List Path → Procedure (Except GlobFailure (List Path))}
    (hxy : InStep reply reply' Call.IsShort (Corresponds base moved) x y)
    (hfg : ∀ ps qs, List.Forall₂ (base.Moved moved) ps qs →
      InStep reply reply' Call.IsShort (Corresponds base moved) (f ps) (g qs)) :
    InStep reply reply' Call.IsShort (Corresponds base moved) (x.andThen f) (y.andThen g) := by
  refine hxy.bind fun r r' hr => ?_
  cases hr with
  | ok h => exact hfg _ _ h
  | error hentry hmistake => exact .done (.error hentry hmistake)

/-! ## Looking at files in step -/

theorem inStep_isFile (halike : Alike reply reply' b m) {p q : Path} (h : b.Counterparts m p q) :
    InStep reply reply' Call.IsShort Eq (isFile p) (isFile q) := by
  refine halike.inStep_status h fun r => .done ?_
  rcases r with e | s
  · rfl
  · cases s <;> rfl

theorem inStep_regularFiles (halike : Alike reply reply' b m) {fs gs : List Glob.Finding}
    (h : List.Forall₂ (Glob.FindingsMatch b m) fs gs) :
    InStep reply reply' Call.IsShort (List.Forall₂ (b.Counterparts m)) (regularFiles fs)
      (regularFiles gs) := by
  induction h with
  | nil => exact .done .nil
  | cons hfg _ ih =>
    cases hfg with
    | unreadable => exact .call fun _ _ => ih
    | found h =>
      refine (inStep_isFile halike h).bind ?_
      rintro keep _ rfl
      refine ih.bind fun ps qs hrest => .done ?_
      cases keep with
      | true => exact .cons h hrest
      | false => exact hrest

theorem inStep_expandEntry_of_plain (hentry : StaysInside entry) (hplain : isPattern entry = false)
    (habs : base.isAbsolute = true ∧ moved.isAbsolute = true) :
    InStep reply reply' Call.IsShort (Corresponds base moved) (expandEntry base entry)
      (expandEntry moved entry) := by
  have hmoved : base.Moved moved (base / entry) (moved / entry) :=
    ⟨(⟨entry⟩ : Path).steps, hentry.parent_not_mem,
      Path.components_join (Path.text_ne_empty_of_isAbsolute habs.1) hentry.relative,
      Path.components_join (Path.text_ne_empty_of_isAbsolute habs.2) hentry.relative⟩
  rw [expandEntry, expandEntry, hplain]
  exact .done (.ok (.cons hmoved .nil))

/-! ## Two directories -/

/-- Below the directory `moved` in `gs` lies what lies below the directory `base` in `fs`, with
names that paths can spell. -/
structure Relocated (cwd : Location) (fs : FileSystem) (base : Path) (gs : FileSystem)
    (moved : Path) : Prop where
  absolute : base.isAbsolute = true ∧ moved.isAbsolute = true
  status : fs.status cwd base = .ok .directory ∧ gs.status cwd moved = .ok .directory
  sameBelow : fs.SameBelow (base.destination cwd) gs (moved.destination cwd)
  plainNames : fs.HasPlainNames (base.destination cwd)

variable {h : Host} {fs gs : FileSystem} {before before' : List String} {k l : Location}

theorem isWay_seen (hp : fs.LeadsTo base k) (hbefore : base.IsReachedBy before) :
    Glob.IsWay (h.seen fs) before where
  slash_not_mem := hbefore.slash_not_mem
  directory _ hns hshort := FileSystem.status_of_prefix hp hbefore hns hshort

theorem alike_seen {p q : Path} (hp : fs.LeadsTo p k) (hq : gs.LeadsTo q l)
    (hsame : fs.SameBelow k gs l) (hnames : fs.HasPlainNames k) :
    Alike (h.seen fs) (h.seen gs) p q where
  absolute := ⟨hp.absolute, hq.absolute⟩
  status a b hab ha hb := by
    obtain ⟨ns, hns, rfl, rfl⟩ := hab
    exact FileSystem.status_under hp hq hsame hns ha hb
  list a b hab ha hb := by
    obtain ⟨ns, hns, rfl, rfl⟩ := hab
    exact FileSystem.list_under hp hq hsame hns ha hb
  names a b names hab ha hlist := by
    obtain ⟨ns, hns, rfl, rfl⟩ := hab
    exact FileSystem.isStep_of_list_under hp hnames hns ha hlist

theorem Relocated.leadsTo (hmove : Relocated h.directory fs base gs moved) :
    fs.LeadsTo base (base.destination h.directory) ∧
      gs.LeadsTo moved (moved.destination h.directory) :=
  ⟨FileSystem.leadsTo_of_status hmove.absolute.1 hmove.status.1,
    FileSystem.leadsTo_of_status hmove.absolute.2 hmove.status.2⟩

theorem inStep_expandEntry (hmove : Relocated h.directory fs base gs moved)
    (hentry : StaysInside entry)
    (hplain : isPattern entry = true → isPattern base.text = false ∧ isPattern moved.text = false) :
    InStep (h.seen fs) (h.seen gs) Call.IsShort (Corresponds base moved) (expandEntry base entry)
      (expandEntry moved entry) := by
  cases hpattern : isPattern entry with
  | false => exact inStep_expandEntry_of_plain hentry hpattern hmove.absolute
  | true =>
    obtain ⟨hbplain, hmplain⟩ := hplain hpattern
    have hne : entry ≠ "" := by
      rintro rfl
      cases hpattern
    obtain ⟨n, before, hbefore, hbase⟩ := Glob.exists_findings_div hmove.absolute.1
      (isPlain_of_isPattern_eq_false hbplain) hentry.relative hne
    obtain ⟨m, before', hbefore', hmoved⟩ := Glob.exists_findings_div hmove.absolute.2
      (isPlain_of_isPattern_eq_false hmplain) hentry.relative hne
    rw [expandEntry, expandEntry, hpattern, hbase, hmoved]
    rcases Glob.readTokens_position n m (some '/') entry.toList with
      ⟨ts, hn, hm⟩ | ⟨e, e', hn, hm, hmistake⟩
    · rw [hn, hm]
      cases hparts : Glob.partsBelow entry.toList with
      | error e => exact .done (.error rfl rfl)
      | ok parts =>
        obtain ⟨hleads, hleads'⟩ := hmove.leadsTo
        have halike := alike_seen (h := h) (FileSystem.leadsTo_under_root hleads hbefore)
          (FileSystem.leadsTo_under_root hleads' hbefore') hmove.sameBelow hmove.plainNames
        have hyields := Glob.inStep_yields (isWay_seen hleads hbefore)
          (isWay_seen hleads' hbefore') halike (hentry.staysBelow hparts)
          (⟨entry⟩ : Path).endsInSlash
        refine hyields.bind fun found found' hfound => ?_
        refine (inStep_regularFiles halike hfound).bind fun ps qs hpq => .done ?_
        exact .of_regularFiles hpq halike.absolute (hbefore.components_under hmove.absolute.1)
          (hbefore'.components_under hmove.absolute.2)
    · rw [hn, hm]
      exact .done (.error rfl hmistake)

theorem inStep_expandEntries (hmove : Relocated h.directory fs base gs moved)
    (hentries : ∀ e ∈ entries, StaysInside e)
    (hplain : ∀ e ∈ entries, isPattern e = true →
      isPattern base.text = false ∧ isPattern moved.text = false) :
    InStep (h.seen fs) (h.seen gs) Call.IsShort (Corresponds base moved)
      (expandEntries base entries) (expandEntries moved entries) := by
  induction entries with
  | nil => exact .done (.ok .nil)
  | cons entry entries ih =>
    obtain ⟨hentry, hentries⟩ := List.forall_mem_cons.1 hentries
    obtain ⟨hfirstPlain, hplain⟩ := List.forall_mem_cons.1 hplain
    refine inStep_andThen (inStep_expandEntry hmove hentry hfirstPlain) fun ps qs hfirst => ?_
    exact inStep_andThen (ih hentries hplain) fun ps' qs' hrest =>
      .done (.ok (List.rel_append hfirst hrest))

theorem inStep_expand (hmove : Relocated h.directory fs base gs moved)
    (hentries : ∀ e ∈ entries, StaysInside e)
    (hplain : ∀ e ∈ entries, isPattern e = true →
      isPattern base.text = false ∧ isPattern moved.text = false) :
    InStep (h.seen fs) (h.seen gs) Call.IsShort (Corresponds base moved) (expand base entries)
      (expand moved entries) :=
  inStep_andThen (inStep_expandEntries hmove hentries hplain) fun _ _ hpq =>
    .done (.ok (forall₂_distinct hpq))

/-- The sources that entries stand for lie below the directory that they are seen from, and when
everything below it is moved to another directory, they move along, in the same order. A pattern
needs directories without wildcards of their own: it is put below them as it is. -/
theorem expand_relocated {w v : World} (hmove : Relocated h.directory w.files base v.files moved)
    (hentries : ∀ e ∈ entries, StaysInside e)
    (hplain : ∀ e ∈ entries, isPattern e = true →
      isPattern base.text = false ∧ isPattern moved.text = false)
    (hshort : ∀ c ∈ (expand base entries).calls (h.seen w.files), c.IsShort)
    (hshort' : ∀ c ∈ (expand moved entries).calls (h.seen v.files), c.IsShort) :
    (∀ ps, ((expand base entries).run h w).1 = .ok ps →
      ∀ p ∈ ps, ∃ cs, Component.parent ∉ cs ∧ p.components = base.components ++ cs) ∧
    Corresponds base moved ((expand base entries).run h w).1
      ((expand moved entries).run h v).1 := by
  have hlooking (base : Path) :=
    (shallow_expand base entries).mono fun _ => Call.IsShallow.isLooking
  rw [((hlooking base).run_looking w).1, ((hlooking moved).run_looking v).1]
  have hcorresponds := inStep_expand hmove hentries hplain hshort hshort'
  refine ⟨fun ps hps => ?_, hcorresponds⟩
  rw [hps] at hcorresponds
  exact hcorresponds.lies_below

/-- A file that matches and a path that does not exist. -/
theorem expand_relocated_two_entries :
    let h : Host := ⟨[], fun _ fs => (.error .notFound, fs)⟩
    let files (d : String) := ((FileSystem.empty.put [d] .directory).put [d, "x.c"]
      (.file ⟨.empty, false⟩))
    let entries := ["*.c", "y/z.c"]
    ((expand ⟨"/a"⟩ entries).run h { files := files "a" }).1 = .ok [⟨"/a/x.c"⟩, ⟨"/a/y/z.c"⟩] ∧
      Corresponds ⟨"/a"⟩ ⟨"/b b"⟩ ((expand ⟨"/a"⟩ entries).run h { files := files "a" }).1
        ((expand ⟨"/b b"⟩ entries).run h { files := files "b b" }).1 := by
  intro h files entries
  have hnode (d : String) (m : Location) (hd : FileSystem.empty.hasRoomAt [d] = true)
      (hx : (FileSystem.empty.put [d] .directory).hasRoomAt [d, "x.c"] = true) :
      (files d).node? ([d] ++ m) = if m = ["x.c"] then some (.file ⟨.empty, false⟩)
        else if m = [] then some .directory else none := by
    have hempty : FileSystem.empty.node? ([d] ++ m) = none := by
      simp [FileSystem.empty, FileSystem.node?]
    rw [FileSystem.node?_put hx, FileSystem.node?_put hd, hempty]
    simp
  have hleft (m : Location) := hnode "a" m (by decide +kernel) (by decide +kernel)
  have hright (m : Location) := hnode "b b" m (by decide +kernel) (by decide +kernel)
  have hmove : Relocated h.directory (files "a") ⟨"/a"⟩ (files "b b") ⟨"/b b"⟩ := by
    refine ⟨by decide, by decide +kernel, fun m => ?_, fun m name hname => ?_⟩
    · exact (hright m).trans (hleft m).symm
    · have hx : m ++ [name] = ["x.c"] := by
        by_contra hne
        have hnone := hleft (m ++ [name])
        rw [if_neg hne, if_neg (List.concat_ne_nil name m), ← List.append_assoc] at hnone
        exact hname hnone
      obtain ⟨rfl, rfl⟩ : m = [] ∧ name = "x.c" := by simpa [List.append_eq_singleton_iff] using hx
      exact ⟨by decide, by decide, by decide, by decide⟩
  refine ⟨by decide +kernel, (expand_relocated hmove ?_ ?_ ?_ ?_).2⟩
  · decide
  · decide
  · decide +kernel
  · decide +kernel

/-- A directory whose name is a pattern for another name is not searched itself. -/
theorem expand_misses_directory_with_brackets :
    let h : Host := ⟨[], fun _ fs => (.error .notFound, fs)⟩
    let files (d : String) := ((FileSystem.empty.put [d] .directory).put [d, "x.c"]
      (.file ⟨.empty, false⟩))
    (files "[a]").status [] ⟨"/[a]"⟩ = .ok .directory ∧
      ((expand ⟨"/a"⟩ ["*.c"]).run h { files := files "a" }).1 = .ok [⟨"/a/x.c"⟩] ∧
      ((expand ⟨"/[a]"⟩ ["*.c"]).run h { files := files "[a]" }).1 = .ok [] := by
  decide +kernel

end Sources

end CompileDriver
