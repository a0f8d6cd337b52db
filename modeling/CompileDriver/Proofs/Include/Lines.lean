import CompileDriver.Include
import Mathlib.Data.List.Forall2

/-! # Lines that stay in place

Removing comments deletes characters and no line feed. So the text that is searched has the lines of
the source, each with some characters less, and a header is named in the line that it comes from.
-/

namespace CompileDriver.Include

variable {s t : List Char} {inside : Bool}

/-! ## Deleted characters -/

theorem removeBlocks_sublist (inside : Bool) (s : List Char) :
    (removeBlocks inside s).Sublist s := by
  fun_induction removeBlocks inside s with
  | case1 => exact .slnil
  | case2 s _ ih => exact (ih.cons _).cons _
  | case3 => exact .refl _
  | case4 c s _ ih => exact ih.cons_cons c
  | case5 s ih => exact (ih.cons _).cons _
  | case6 s _ ih => exact ih.cons_cons '\n'
  | case7 c s _ _ ih => exact ih.cons c

theorem removeLineComments_sublist (inside : Bool) (s : List Char) :
    (removeLineComments inside s).Sublist s := by
  fun_induction removeLineComments inside s with
  | case1 => exact .slnil
  | case2 s ih => exact (ih.cons _).cons _
  | case3 c s _ ih => exact ih.cons_cons c
  | case4 s ih => exact ih.cons_cons '\n'
  | case5 c s _ ih => exact ih.cons c

theorem withoutComments_sublist (s : List Char) : (withoutComments s).Sublist s :=
  (removeLineComments_sublist false _).trans (removeBlocks_sublist false s)

/-! ## Kept line feeds -/

theorem count_removeBlocks (inside : Bool) (s : List Char) :
    (removeBlocks inside s).count '\n' = s.count '\n' := by
  fun_induction removeBlocks inside s with
  | case1 => rfl
  | case2 s _ ih => simpa using ih
  | case3 => rfl
  | case4 c s _ ih => simp [List.count_cons, ih]
  | case5 s ih => simpa using ih
  | case6 s _ ih => simpa using ih
  | case7 c s _ hc ih => simpa [hc] using ih

theorem count_removeLineComments (inside : Bool) (s : List Char) :
    (removeLineComments inside s).count '\n' = s.count '\n' := by
  fun_induction removeLineComments inside s with
  | case1 => rfl
  | case2 s ih => simpa using ih
  | case3 c s _ ih => simp [List.count_cons, ih]
  | case4 s ih => simpa using ih
  | case5 c s hc ih => simpa [hc] using ih

theorem count_withoutComments (s : List Char) :
    (withoutComments s).count '\n' = s.count '\n' := by
  rw [withoutComments, count_removeLineComments, count_removeBlocks]

/-! ## Lines -/

theorem exists_lines_cons {c : Char} (hc : c ≠ '\n') (s : List Char) :
    ∃ line lines, Text.lines s = line :: lines ∧ Text.lines (c :: s) = (c :: line) :: lines := by
  obtain ⟨line, lines, hlines⟩ := List.exists_cons_of_ne_nil (Text.pieces_ne_nil '\n' s)
  refine ⟨line, lines, hlines, ?_⟩
  rw [Text.lines, Text.pieces, if_neg hc, hlines, Text.consFirst]

theorem forall₂_lines_of_sublist (hst : s.Sublist t) (hcount : s.count '\n' = t.count '\n') :
    List.Forall₂ List.Sublist (Text.lines s) (Text.lines t) := by
  induction hst with
  | slnil => exact .cons .slnil .nil
  | @cons s t c hst ih =>
    have hc : c ≠ '\n' := by
      rintro rfl
      have hle := hst.count_le '\n'
      rw [hcount, List.count_cons_self] at hle
      omega
    obtain ⟨line, lines, hlines, hcons⟩ := exists_lines_cons hc t
    rw [List.count_cons_of_ne hc] at hcount
    have ih := ih hcount
    rw [hlines, List.forall₂_cons_right_iff] at ih
    obtain ⟨left, lefts, hleft, hrest, hlefts⟩ := ih
    rw [hlefts, hcons]
    exact .cons (hleft.cons c) hrest
  | @cons_cons s t c hst ih =>
    by_cases hc : c = '\n'
    · subst hc
      simp only [List.count_cons_self, Nat.add_right_cancel_iff] at hcount
      exact .cons .slnil (ih hcount)
    · rw [List.count_cons_of_ne hc, List.count_cons_of_ne hc] at hcount
      obtain ⟨line, lines, hlines, hcons⟩ := exists_lines_cons hc t
      obtain ⟨left, lefts, hlefts, hcons'⟩ := exists_lines_cons hc s
      have ih := ih hcount
      rw [hlines, hlefts] at ih
      rw [hcons, hcons']
      obtain ⟨hleft, hrest⟩ := List.forall₂_cons.1 ih
      exact .cons (hleft.cons_cons c) hrest

theorem exists_places_filterMap {α β : Type} (f : α → Option β) (as : List α) :
    ∃ places : List ℕ, places.Pairwise (· < ·) ∧
      List.Forall₂ (fun k b => ∃ a, as[k]? = some a ∧ f a = some b) places (as.filterMap f) := by
  induction as with
  | nil => exact ⟨[], .nil, .nil⟩
  | cons a as ih =>
    obtain ⟨places, hplaces, hfound⟩ := ih
    have hplaces' : (places.map Nat.succ).Pairwise (· < ·) :=
      List.pairwise_map.2 (hplaces.imp Nat.succ_lt_succ)
    have hfound' : List.Forall₂ (fun k b => ∃ a', (a :: as)[k]? = some a' ∧ f a' = some b)
        (places.map Nat.succ) (as.filterMap f) := by
      rw [List.forall₂_map_left_iff]
      exact hfound
    cases ha : f a with
    | none =>
      rw [List.filterMap_cons_none ha]
      exact ⟨_, hplaces', hfound'⟩
    | some b =>
      rw [List.filterMap_cons_some ha]
      refine ⟨0 :: places.map Nat.succ, .cons ?_ hplaces', .cons ⟨a, rfl, ha⟩ hfound'⟩
      simp

/-! ## Headers in their lines -/

/-- The text that is searched has as many line feeds as the source, and each of its lines is left of
the line with the same number. So the headers are named in lines of the source whose numbers
increase. -/
theorem scan_in_place (source : String) :
    (withoutComments source.toList).count '\n' = source.toList.count '\n' ∧
    List.Forall₂ List.Sublist (Text.lines (withoutComments source.toList))
      (Text.lines source.toList) ∧
    ∃ numbers : List ℕ, numbers.Pairwise (· < ·) ∧
      List.Forall₂ (fun k header => ∃ line left, (Text.lines source.toList)[k]? = some line ∧
        (Text.lines (withoutComments source.toList))[k]? = some left ∧ left.Sublist line ∧
          directive? left = some header) numbers (scan source) := by
  have hcount := count_withoutComments source.toList
  have hlines := forall₂_lines_of_sublist (withoutComments_sublist source.toList) hcount
  refine ⟨hcount, hlines, ?_⟩
  obtain ⟨numbers, hincrease, hfound⟩ :=
    exists_places_filterMap directive? (Text.lines (withoutComments source.toList))
  refine ⟨numbers, hincrease, hfound.imp ?_⟩
  rintro k header ⟨left, hleft, hheader⟩
  obtain ⟨hk, rfl⟩ := List.getElem?_eq_some_iff.1 hleft
  have hk' : k < (Text.lines source.toList).length := hlines.length_eq ▸ hk
  exact ⟨_, _, List.getElem?_eq_getElem hk', hleft, hlines.get hk hk', hheader⟩

end CompileDriver.Include
