import Mathlib.Data.List.Basic

/-! Sorting by a total preorder keeps alike elements in their order, and nothing else is left to
choose: two lists in order are equal if the elements like any one of them are the same in both,
one after the other. -/
namespace TableQuery.StableSort
open Std
variable {α : Type} {cmp : α → α → Ordering}

def alike (cmp : α → α → Ordering) (a : α) (l : List α) : List α :=
  l.filter fun b => cmp a b = .eq

theorem mem_alike {a b : α} {l : List α} : b ∈ alike cmp a l ↔ b ∈ l ∧ cmp a b = .eq := by
  rw [alike, List.mem_filter, decide_eq_true_iff]

theorem alike_cons_of_eq {a b : α} (h : cmp a b = .eq) (l : List α) :
    alike cmp a (b :: l) = b :: alike cmp a l :=
  List.filter_cons_of_pos (decide_eq_true h)

theorem alike_cons_of_ne {a b : α} (h : cmp a b ≠ .eq) (l : List α) :
    alike cmp a (b :: l) = alike cmp a l :=
  List.filter_cons_of_neg (by rwa [decide_eq_true_iff])

variable [TransCmp cmp]

theorem isLE_total (a b : α) : ((cmp a b).isLE || (cmp b a).isLE) = true := by
  have hswap : cmp b a = (cmp a b).swap := OrientedCmp.eq_swap
  rw [hswap]
  cases cmp a b <;> rfl

theorem pairwise_mergeSort (l : List α) :
    (l.mergeSort fun a b => (cmp a b).isLE).Pairwise fun a b => (cmp a b).isLE :=
  List.pairwise_mergeSort (fun _ _ _ => TransCmp.isLE_trans) isLE_total l

theorem alike_mergeSort (a : α) (l : List α) :
    alike cmp a (l.mergeSort fun a b => (cmp a b).isLE) = alike cmp a l := by
  have hpairwise : (alike cmp a l).Pairwise fun b c => (cmp b c).isLE = true := by
    refine List.pairwise_of_forall_mem_list ?_
    intro b hb c hc
    rw [← TransCmp.congr_left (mem_alike.1 hb).2, (mem_alike.1 hc).2]
    rfl
  have hsublist : (alike cmp a l).Sublist (l.mergeSort fun a b => (cmp a b).isLE) :=
    List.sublist_mergeSort (fun _ _ _ => TransCmp.isLE_trans) isLE_total hpairwise
      List.filter_sublist
  have halike : (alike cmp a l).Sublist (alike cmp a (l.mergeSort fun a b => (cmp a b).isLE)) := by
    have h := hsublist.filter fun b => cmp a b = .eq
    rwa [alike, List.filter_filter, funext fun _ => Bool.and_self _] at h
  have hperm : (alike cmp a (l.mergeSort fun a b => (cmp a b).isLE)).Perm (alike cmp a l) :=
    (List.mergeSort_perm l _).filter _
  exact (halike.eq_of_length hperm.length_eq.symm).symm

/-- Alike elements come out one after the other only if they were so before. -/
theorem sublist_of_mergeSort {a b : α} {l : List α} (hab : cmp a b = .eq)
    (h : [a, b].Sublist (l.mergeSort fun a b => (cmp a b).isLE)) : [a, b].Sublist l := by
  have hpair : alike cmp a [a, b] = [a, b] := by
    rw [alike_cons_of_eq ReflCmp.compare_self, alike_cons_of_eq hab]
    rfl
  have halike : (alike cmp a [a, b]).Sublist (alike cmp a l) := by
    rw [← alike_mergeSort a l]
    exact h.filter _
  rw [hpair] at halike
  exact halike.trans List.filter_sublist

/-- The head of a list in order is least among the elements. -/
theorem isLE_head {a b : α} {l : List α} (h : (a :: l).Pairwise fun a b => (cmp a b).isLE)
    (hb : b ∈ a :: l) : (cmp a b).isLE := by
  cases List.mem_cons.1 hb with
  | inl he =>
    have hself : cmp a a = .eq := ReflCmp.compare_self
    rw [he, hself]
    rfl
  | inr hb => exact (List.pairwise_cons.1 h).1 b hb

theorem mem_iff_of_alike {l m : List α} (h : ∀ a, alike cmp a l = alike cmp a m) (b : α) :
    b ∈ l ↔ b ∈ m := by
  have hself : cmp b b = .eq := ReflCmp.compare_self
  have hiff : b ∈ alike cmp b l ↔ b ∈ alike cmp b m := by rw [h]
  simpa only [mem_alike, hself, and_true] using hiff

theorem eq_of_alike {l m : List α} (hl : l.Pairwise fun a b => (cmp a b).isLE)
    (hm : m.Pairwise fun a b => (cmp a b).isLE) (h : ∀ a, alike cmp a l = alike cmp a m) :
    l = m := by
  induction l generalizing m with
  | nil =>
    cases m with
    | nil => rfl
    | cons b m => exact absurd ((mem_iff_of_alike h b).2 List.mem_cons_self) List.not_mem_nil
  | cons a l ih =>
    cases m with
    | nil => exact absurd ((mem_iff_of_alike h a).1 List.mem_cons_self) List.not_mem_nil
    | cons b m =>
      -- Each head is in the other list, and so they are alike.
      have hb := (mem_iff_of_alike h b).2 List.mem_cons_self
      have ha := (mem_iff_of_alike h a).1 List.mem_cons_self
      have hab : cmp a b = .eq := OrientedCmp.isLE_antisymm (isLE_head hl hb) (isLE_head hm ha)
      have hfirst := h a
      rw [alike_cons_of_eq ReflCmp.compare_self, alike_cons_of_eq hab, List.cons.injEq] at hfirst
      obtain ⟨rfl, -⟩ := hfirst
      have htail : ∀ c, alike cmp c l = alike cmp c m := by
        intro c
        have hc := h c
        by_cases hca : cmp c a = .eq
        · rw [alike_cons_of_eq hca, alike_cons_of_eq hca, List.cons.injEq] at hc
          exact hc.2
        · rwa [alike_cons_of_ne hca, alike_cons_of_ne hca] at hc
      rw [ih (List.pairwise_cons.1 hl).2 (List.pairwise_cons.1 hm).2 htail]

end TableQuery.StableSort
