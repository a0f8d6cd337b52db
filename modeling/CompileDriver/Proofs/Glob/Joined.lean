import CompileDriver.Glob.Walk
import CompileDriver.Proofs.FileSystem.Subtree
import CompileDriver.Proofs.Glob.Pattern
import CompileDriver.Proofs.Text.Cutting

/-! # Patterns below a directory

A pattern that is put below a directory without wildcards is followed piece by piece to that
directory, and then as if it began there.
-/

namespace CompileDriver

open Procedure

namespace Path

variable {p : Path} {before : List String}

/-- The pieces that lead from the root to an absolute path; a slash at its end counts for
nothing. -/
def IsReachedBy (p : Path) (before : List String) : Prop :=
  FileSystem.steps p = "" :: before ∨ FileSystem.steps p = "" :: before ++ [""]

theorem IsReachedBy.mem_steps (h : p.IsReachedBy before) {n : String} (hn : n ∈ before) :
    n ∈ FileSystem.steps p := by
  rcases h with h | h <;> rw [h] <;> simp [hn]

theorem IsReachedBy.slash_not_mem (h : p.IsReachedBy before) : ∀ n ∈ before, '/' ∉ n.toList := by
  intro n hn
  obtain ⟨s, hs, rfl⟩ := List.mem_map.1 (h.mem_steps hn)
  simpa using Text.not_mem_of_mem_pieces hs

theorem IsReachedBy.components_under (h : p.IsReachedBy before) (habs : p.isAbsolute = true) :
    ((⟨"/"⟩ : Path).under before).components = p.components := by
  rw [Path.components_under rfl h.slash_not_mem, components_eq p, start_eq_root_iff.2 habs]
  change [Component.root] ++ _ = [Component.root] ++ (FileSystem.steps p).filterMap _
  rcases h with h | h <;> rw [h] <;> simp [Component.ofPiece?]

theorem exists_text_div {e : String} (habs : p.isAbsolute = true)
    (he : (⟨e⟩ : Path).isAbsolute = false) :
    ∃ s, (p / e).text.toList = s ++ '/' :: e.toList ∧
      (p.text.toList = s ∨ p.text.toList = s ++ ['/']) := by
  change ∃ s, (p.join ⟨e⟩).text.toList = _ ∧ _
  rw [join, if_neg (by simp [he])]
  by_cases hslash : p.endsInSlash = true
  · obtain ⟨s, hs⟩ := endsInSlash_iff.1 hslash
    refine ⟨s, ?_, Or.inr hs⟩
    rw [if_pos (Or.inr hslash), String.toList_append, hs]
    simp
  · refine ⟨p.text.toList, ?_, Or.inl rfl⟩
    rw [if_neg (by simp [text_ne_empty_of_isAbsolute habs, hslash])]
    simp

/-- The pieces of a path that is put below an absolute path, apart from the empty one before the
first slash. -/
theorem exists_pieces_div {e : String} (habs : p.isAbsolute = true)
    (he : (⟨e⟩ : Path).isAbsolute = false) :
    ∃ s rest before, (p / e).text.toList = s ++ '/' :: e.toList ∧ s ⊆ p.text.toList ∧
      (p / e).text.toList = '/' :: rest ∧
      Text.pieces '/' rest = before ++ Text.pieces '/' e.toList ∧ (∀ t ∈ before, t ⊆ s) ∧
      p.IsReachedBy (before.map String.ofList) := by
  obtain ⟨s, hs, hp⟩ := exists_text_div habs he
  obtain ⟨rest, hrest⟩ : ∃ rest, s ++ '/' :: e.toList = '/' :: rest := by
    cases s with
    | nil => exact ⟨e.toList, rfl⟩
    | cons c s =>
      rw [isAbsolute] at habs
      rcases hp with h | h <;> rw [h] at habs <;> simp_all
  have hpieces : Text.pieces '/' s ++ Text.pieces '/' e.toList = [] :: Text.pieces '/' rest := by
    rw [← Text.pieces_append, hrest]
    simp [Text.pieces]
  obtain ⟨before, hbefore, hafter⟩ : ∃ before, Text.pieces '/' s = [] :: before ∧
      Text.pieces '/' rest = before ++ Text.pieces '/' e.toList := by
    rcases List.append_eq_cons_iff.1 hpieces with ⟨hnil, -⟩ | ⟨before, hs, hrest⟩
    · exact absurd hnil (Text.pieces_ne_nil '/' s)
    · exact ⟨before, hs, hrest⟩
  refine ⟨s, rest, before, hs, ?_, hs.trans hrest, hafter, fun t ht c hc => ?_, ?_⟩
  · intro c hc
    rcases hp with h | h <;> simp [h, hc]
  · exact Text.mem_of_mem_pieces (by rw [hbefore]; exact List.mem_cons_of_mem [] ht) hc
  · rw [IsReachedBy, FileSystem.steps, piecesOf]
    rcases hp with h | h
    · left
      rw [h, hbefore]
      rfl
    · right
      rw [h, Text.pieces_append, hbefore]
      simp [Text.pieces]

end Path

namespace FileSystem

variable {fs : FileSystem} {k : Location} {p : Path} {before : List String} {cwd : Location}

theorem follow_of_isReachedBy (hp : fs.LeadsTo p k) (h : p.IsReachedBy before) :
    fs.follow (.directory []) before = .ok (.directory k) := by
  have hfollow := hp.follow_steps
  rcases h with h | h
  · rw [h, follow, if_pos (Or.inl rfl)] at hfollow
    exact hfollow
  · rw [h, List.cons_append, follow, if_pos (Or.inl rfl), follow_append] at hfollow
    obtain ⟨t, ht, hlast⟩ := bind_eq_ok_iff.1 hfollow
    cases t with
    | directory l =>
      rw [follow, if_pos (Or.inl rfl)] at hlast
      cases hlast
      exact ht
    | file l f => cases hlast
    | free l name => cases hlast

theorem leadsTo_under_root (hp : fs.LeadsTo p k) (h : p.IsReachedBy before) :
    fs.LeadsTo ((⟨"/"⟩ : Path).under before) k where
  absolute := Path.isAbsolute_under rfl before
  nul_not_mem hnul := by
    rcases (Path.nul_mem_under h.slash_not_mem).1 hnul with hroot | ⟨n, hn, hmem⟩
    · exact absurd hroot (by decide)
    · obtain ⟨s, hs, rfl⟩ := List.mem_map.1 (h.mem_steps hn)
      rw [String.toList_ofList] at hmem
      exact hp.nul_not_mem (Text.mem_of_mem_pieces hs hmem)
  follow_steps := by
    rw [follow_steps_under rfl h.slash_not_mem, follow_append, ← follow_of_isReachedBy hp h]
    rfl

theorem status_of_prefix {ns : List String} (hp : fs.LeadsTo p k) (h : p.IsReachedBy before)
    (hns : ns <+: before) (hshort : ((⟨"/"⟩ : Path).under ns).text.utf8ByteSize ≤ longestPath) :
    fs.status cwd ((⟨"/"⟩ : Path).under ns) = .ok .directory := by
  have hslash : ∀ n ∈ ns, '/' ∉ n.toList := fun n hn => h.slash_not_mem n (hns.subset hn)
  have habs : ((⟨"/"⟩ : Path).under ns).isAbsolute = true := Path.isAbsolute_under rfl ns
  obtain ⟨rest, hrest⟩ := hns
  have hfollow := follow_of_isReachedBy hp h
  rw [← hrest, follow_append] at hfollow
  obtain ⟨t, ht, hrest⟩ := bind_eq_ok_iff.1 hfollow
  have hnul := (leadsTo_under_root hp h).nul_not_mem
  rw [Path.nul_mem_under h.slash_not_mem, ← ‹ns ++ rest = before›] at hnul
  have hcheck : checkPath ((⟨"/"⟩ : Path).under ns) = .ok () := by
    rw [checkPath, if_neg, if_neg (Path.text_ne_empty_of_isAbsolute habs), if_neg hshort.not_gt]
    rw [List.contains_iff_mem, Path.nul_mem_under hslash]
    rintro (hroot | ⟨n, hn, hmem⟩)
    · exact hnul (Or.inl hroot)
    · exact hnul (Or.inr ⟨n, List.mem_append_left rest hn, hmem⟩)
  refine status_eq_directory_iff.2 ⟨hcheck, ?_⟩
  rw [startOf, if_pos habs, follow_steps_under rfl hslash, follow_append]
  cases t with
  | directory l => exact ⟨l, ht⟩
  | file l f => cases rest <;> cases hrest
  | free l name => cases rest <;> cases hrest

end FileSystem

namespace Glob

variable {base : Path} {entry : String}

def partsBelow (s : List Char) : Except PatternError (List (List Token)) :=
  let names := Text.pieces '/' s
  (if names.getLast? = some [] then names.dropLast else names).mapM tokens

theorem mapM_tokens_of_plain {names : List (List Char)} (h : ∀ s ∈ names, IsPlain s) :
    names.mapM tokens = .ok (names.map (·.map .char)) := by
  induction names with
  | nil => rfl
  | cons s names ih =>
    obtain ⟨hs, hnames⟩ := List.forall_mem_cons.1 h
    rw [List.mapM_cons, tokens, tokens_of_plain hs, ih hnames]
    rfl

theorem parts_append {rest t : List Char} {before : List (List Char)} (ht : t ≠ [])
    (hpieces : Text.pieces '/' rest = before ++ Text.pieces '/' t)
    (hplain : ∀ s ∈ before, IsPlain s) :
    parts ('/' :: rest) = (partsBelow t).map (before.map (·.map .char) ++ ·) := by
  have hrest : rest ≠ [] := by
    rintro rfl
    have hlast : Text.pieces '/' t = [[]] := by
      have hne := Text.pieces_ne_nil '/' t
      cases before with
      | nil => exact hpieces.symm
      | cons s before => simp_all [Text.pieces]
    have hjoin := Text.joinPieces_pieces '/' t
    rw [hlast] at hjoin
    exact ht hjoin.symm
  have hlast : (before ++ Text.pieces '/' t).getLast? = (Text.pieces '/' t).getLast? := by
    rw [List.getLast?_append_of_ne_nil _ (Text.pieces_ne_nil '/' t)]
  rw [parts, partsBelow, List.head?_cons, if_pos rfl, List.tail_cons, if_neg hrest, hpieces]
  simp only [hlast, List.dropLast_append_of_ne_nil (Text.pieces_ne_nil '/' t)]
  split
  · rw [List.mapM_append, mapM_tokens_of_plain hplain]
    cases (Text.pieces '/' t).dropLast.mapM tokens <;> rfl
  · rw [List.mapM_append, mapM_tokens_of_plain hplain]
    cases (Text.pieces '/' t).mapM tokens <;> rfl

def yields (onlyDirectories : Bool) (parts : List (List Token)) : Procedure (List Finding) :=
  (isDirectory ⟨"/"⟩).bind fun isDirectory =>
    (itemsBelow parts ⟨⟨"/"⟩, isDirectory⟩).bind <|
      collect (visit onlyDirectories (FileSystem.longestPath + parts.length))

/-- A pattern below a directory without wildcards has a part for each piece of that directory. -/
theorem exists_findings_div (habs : base.isAbsolute = true) (hplain : IsPlain base.text.toList)
    (he : (⟨entry⟩ : Path).isAbsolute = false) (hne : entry ≠ "") :
    ∃ position before, base.IsReachedBy before ∧ findings (base / entry) = (do
      let _ ← readTokens position (some '/') 0 entry.toList
      let parts ← partsBelow entry.toList
      .ok (yields (⟨entry⟩ : Path).endsInSlash (before.map literalPart ++ parts))) := by
  obtain ⟨s, rest, before, hs, hsbase, hrest, hpieces, hbefore, hreached⟩ :=
    Path.exists_pieces_div habs he
  have hsplain : IsPlain s := fun c hc => hplain c (hsbase hc)
  have hparts : before.map (·.map Token.char) = (before.map String.ofList).map literalPart := by
    simp [literalPart]
  have hendsInSlash : (base / entry).endsInSlash = (⟨entry⟩ : Path).endsInSlash := by
    rw [Path.endsInSlash, hs, List.getLast?_append_of_ne_nil _ (List.cons_ne_nil _ _),
      List.getLast?_cons_of_ne_nil (by simpa using hne)]
    rfl
  have hisAbsolute : (base / entry).isAbsolute = true := by
    rw [Path.isAbsolute, hrest]
    rfl
  refine ⟨0 + s.length + 1, before.map String.ofList, hreached, ?_⟩
  have htokens : tokens (base / entry).text.toList =
      (readTokens (0 + s.length + 1) (some '/') 0 entry.toList).map
        (s.map Token.char ++ Token.char '/' :: ·) := by
    rw [hs, tokens, readTokens_append_slash hsplain]
  rw [findings, htokens, hrest, parts_append (by simpa using hne) hpieces
    (fun t ht c hc => hsplain c (hbefore t ht hc)), hendsInSlash, hisAbsolute, hparts]
  cases readTokens (0 + s.length + 1) (some '/') 0 entry.toList with
  | error e => rfl
  | ok ts => cases partsBelow entry.toList <;> rfl

end Glob

end CompileDriver
