import Mathlib.Data.List.Basic

/-! Lists with every element where it was seen first, and nowhere else. -/
namespace TableQuery.FirstSeen

theorem compare_succ_succ (m n : Nat) : compare (m + 1) (n + 1) = compare m n := by
  simp only [Nat.compare_eq_ite_lt, Nat.add_lt_add_iff_right]

theorem compare_zero_succ (n : Nat) : compare 0 (n + 1) = .lt :=
  Nat.compare_eq_lt.2 (Nat.succ_pos n)

theorem compare_succ_zero (n : Nat) : compare (n + 1) 0 = .gt :=
  Nat.compare_eq_gt.2 (Nat.succ_pos n)

/-- Leaving out elements of no interest keeps the order of first occurrences. -/
theorem compare_findIdx_filter {α : Type} (keep p q : α → Bool) (l : List α) :
    compare ((l.filter keep).findIdx p) ((l.filter keep).findIdx q) =
      compare (l.findIdx fun a => keep a && p a) (l.findIdx fun a => keep a && q a) := by
  induction l with
  | nil => rfl
  | cons a l ih =>
    cases hk : keep a with
    | true =>
      cases hp : p a <;> cases hq : q a <;>
        simp [List.findIdx_cons, hk, hp, hq, compare_succ_succ, compare_zero_succ,
          compare_succ_zero, ih]
    | false => simp [List.findIdx_cons, hk, compare_succ_succ, ih]

section
variable {α : Type} [BEq α] [LawfulBEq α]

theorem findIdx_eq_filter_lt {a b c : α} {l : List α} (hb : b ≠ a) (hc : c ≠ a)
    (h : (l.filter (!· == a)).findIdx (· == b) < (l.filter (!· == a)).findIdx (· == c)) :
    l.findIdx (· == b) < l.findIdx (· == c) := by
  have hkeep {d : α} (hd : d ≠ a) : (fun x => !(x == a) && x == d) = (· == d) := by
    funext x
    by_cases hx : x = d
    · simp [hx, hd]
    · simp [hx]
  have hcompare := compare_findIdx_filter (!· == a) (· == b) (· == c) l
  rw [hkeep hb, hkeep hc, Nat.compare_eq_lt.2 h] at hcompare
  exact Nat.compare_eq_lt.1 hcompare.symm

/-- Distinct elements stand in the order in which they were seen first. -/
theorem pairwise_eraseDups (l : List α) :
    l.eraseDups.Pairwise fun a b => l.findIdx (· == a) < l.findIdx (· == b) :=
  match l with
  | [] => by simp
  | a :: l => by
    have hne {b : α} (hb : b ∈ (l.filter (!· == a)).eraseDups) : b ≠ a := by
      rw [List.mem_eraseDups, List.mem_filter] at hb
      simpa using hb.2
    have hidx {b : α} (hb : b ≠ a) : (a :: l).findIdx (· == b) = l.findIdx (· == b) + 1 := by
      simp [List.findIdx_cons, beq_false_of_ne hb.symm]
    rw [List.eraseDups_cons, List.pairwise_cons]
    constructor
    · intro b hb
      rw [hidx (hne hb), List.findIdx_cons, beq_self_eq_true]
      exact Nat.succ_pos _
    · have ih := pairwise_eraseDups (l.filter (!· == a))
      refine ih.imp_of_mem ?_
      intro b c hb hc hlt
      rw [hidx (hne hb), hidx (hne hc)]
      exact Nat.succ_lt_succ (findIdx_eq_filter_lt (hne hb) (hne hc) hlt)
termination_by l.length
decreasing_by exact Nat.lt_succ_of_le (List.length_filter_le _ _)

theorem eraseDups_of_nodup {l : List α} (h : l.Nodup) : l.eraseDups = l := by
  induction l with
  | nil => rfl
  | cons a l ih =>
    obtain ⟨ha, hl⟩ := List.nodup_cons.1 h
    have hkeep : l.filter (!· == a) = l := by
      rw [List.filter_eq_self]
      intro b hb
      have hne : b ≠ a := fun he => ha (he ▸ hb)
      simpa using hne
    rw [List.eraseDups_cons, hkeep, ih hl]

/-- Only the first occurrence counts. -/
theorem eraseDups_append_cons_of_mem {a : α} {l : List α} (h : a ∈ l) (m : List α) :
    (l ++ a :: m).eraseDups = (l ++ m).eraseDups := by
  rw [List.eraseDups_append, List.eraseDups_append]
  simp [List.removeAll, h]

end

end TableQuery.FirstSeen
