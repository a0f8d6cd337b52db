import CompileDriver.Text.Basic
import Mathlib.Data.List.TakeWhile

/-! # Texts that are cut and trimmed

A text is cut where a separator stands for the first time, and trimmed where blank characters end.
In each case there is only one place to cut. Cut at each separator, it loses nothing but these.
-/

namespace CompileDriver

theorem dropWhile_eq_iff {α : Type} {p : α → Bool} {s t : List α} :
    s.dropWhile p = t ↔
      ∃ a, s = a ++ t ∧ (∀ c ∈ a, p c = true) ∧ ∀ c, t.head? = some c → p c = false := by
  constructor
  · rintro rfl
    refine ⟨s.takeWhile p, List.takeWhile_append_dropWhile.symm, fun c => List.mem_takeWhile_imp, ?_⟩
    intro c hc
    have hnot := List.head?_dropWhile_not p s
    rw [hc] at hnot
    exact hnot
  · rintro ⟨a, rfl, ha, ht⟩
    rw [List.dropWhile_append_of_pos ha]
    cases t with
    | nil => rfl
    | cons c t => rw [List.dropWhile_cons_of_neg (by simp [ht c rfl])]

namespace Text

variable {c sep : Char} {s t a b : List Char}

theorem mem_joinPieces_iff {ps : List (List Char)} (hc : c ≠ sep) :
    c ∈ joinPieces sep ps ↔ ∃ t ∈ ps, c ∈ t := by
  induction ps with
  | nil => simp [joinPieces]
  | cons p ps ih => cases ps <;> simp_all [joinPieces]

theorem exists_mem_pieces_iff (hc : c ≠ sep) : (∃ t ∈ pieces sep s, c ∈ t) ↔ c ∈ s := by
  rw [← mem_joinPieces_iff hc, joinPieces_pieces]

theorem mem_of_mem_pieces (ht : t ∈ pieces sep s) (hc : c ∈ t) : c ∈ s := by
  refine (exists_mem_pieces_iff ?_).1 ⟨t, ht, hc⟩
  rintro rfl
  exact not_mem_of_mem_pieces ht hc

theorem cutAt_eq_some_iff : cutAt sep s = some (a, b) ↔ s = a ++ sep :: b ∧ sep ∉ a := by
  induction s generalizing a with
  | nil => simp [cutAt]
  | cons c s ih =>
    rw [cutAt]
    by_cases hc : c = sep
    · rw [if_pos hc]
      constructor
      · rintro ⟨⟩
        exact ⟨congrArg (· :: _) hc, List.not_mem_nil⟩
      · rintro ⟨hs, ha⟩
        cases a with
        | nil => rw [(List.cons.inj hs).2]
        | cons d a => exact absurd (by simp [← (List.cons.inj hs).1, hc]) ha
    · rw [if_neg hc, Option.map_eq_some_iff]
      constructor
      · rintro ⟨⟨a', b'⟩, hcut, heq⟩
        cases heq
        obtain ⟨rfl, ha'⟩ := ih.1 hcut
        exact ⟨rfl, List.not_mem_cons_of_ne_of_not_mem (Ne.symm hc) ha'⟩
      · rintro ⟨hs, ha⟩
        cases a with
        | nil => exact absurd (List.cons.inj hs).1 hc
        | cons d a =>
          obtain ⟨rfl, rfl⟩ := List.cons.inj hs
          exact ⟨_, ih.2 ⟨rfl, fun h => ha (List.mem_cons_of_mem c h)⟩, rfl⟩

theorem not_mem_of_cutAt_eq_none (h : cutAt sep s = none) : sep ∉ s := by
  induction s with
  | nil => exact List.not_mem_nil
  | cons c s ih =>
    by_cases hc : c = sep
    · rw [cutAt, if_pos hc] at h
      cases h
    · rw [cutAt, if_neg hc, Option.map_eq_none_iff] at h
      exact List.not_mem_cons_of_ne_of_not_mem (Ne.symm hc) (ih h)

/-- `t` is what is left of `s` when the blank characters at both ends are removed. -/
def Trims (s t : List Char) : Prop :=
  ∃ a b, s = a ++ (t ++ b) ∧ (∀ c ∈ a, isBlank c = true) ∧ (∀ c ∈ b, isBlank c = true) ∧
    (∀ c, t.head? = some c → isBlank c = false) ∧ ∀ c, t.getLast? = some c → isBlank c = false

theorem trimStart_eq_iff : trimStart s = t ↔
    ∃ a, s = a ++ t ∧ (∀ c ∈ a, isBlank c = true) ∧ ∀ c, t.head? = some c → isBlank c = false :=
  dropWhile_eq_iff

theorem trimEnd_eq_iff : trimEnd s = t ↔
    ∃ b, s = t ++ b ∧ (∀ c ∈ b, isBlank c = true) ∧
      ∀ c, t.getLast? = some c → isBlank c = false := by
  rw [trimEnd, List.reverse_eq_iff, dropWhile_eq_iff]
  constructor
  · rintro ⟨b, hs, hb, ht⟩
    refine ⟨b.reverse, ?_, ?_, ?_⟩
    · simpa using congrArg List.reverse hs
    · simpa using hb
    · simpa using ht
  · rintro ⟨b, rfl, hb, ht⟩
    exact ⟨b.reverse, by simp, by simpa using hb, by simpa using ht⟩

theorem trims_iff : Trims s t ↔ trim s = t := by
  constructor
  · rintro ⟨a, b, rfl, ha, hb, hhead, hlast⟩
    cases t with
    | nil =>
      have hnil : trimStart (a ++ ([] ++ b)) = [] := by
        rw [trimStart, List.dropWhile_eq_nil_iff]
        simpa [or_imp, forall_and] using ⟨ha, hb⟩
      rw [trim, hnil]
      rfl
    | cons c t =>
      have hstart : trimStart (a ++ (c :: t ++ b)) = c :: t ++ b :=
        trimStart_eq_iff.2 ⟨a, rfl, ha, hhead⟩
      rw [trim, hstart]
      exact trimEnd_eq_iff.2 ⟨b, rfl, hb, hlast⟩
  · rintro rfl
    obtain ⟨a, hs, ha, hhead⟩ := trimStart_eq_iff.1 (Eq.refl (trimStart s))
    obtain ⟨b, hstart, hb, hlast⟩ := trimEnd_eq_iff.1 (Eq.refl (trim s))
    rw [hstart] at hs hhead
    refine ⟨a, b, hs, ha, hb, fun c hc => hhead c ?_, hlast⟩
    rw [List.head?_append, hc, Option.some_or]

end Text

end CompileDriver
