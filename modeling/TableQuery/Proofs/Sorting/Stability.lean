import TableQuery.Proofs.Sorting.Comparison
import TableQuery.Proofs.StableSort
import Mathlib.Data.List.OfFn
import Mathlib.Data.List.Sigma
import Mathlib.Data.Fintype.EquivFin

/-! Sorting gives the one arrangement of the rows that is in order and keeps rows in their
places where no term tells them apart. The proof sorts rows tagged with their places, of
which no two are alike. -/
namespace TableQuery.SortTerm
open Std List

/-- `place` says where in `rows` each row of `out` comes from. -/
structure IsStableSort (ts : List SortTerm) (rows out : List Row)
    (place : Fin out.length → Fin rows.length) : Prop where
  bijective : place.Bijective
  same : ∀ i : Fin out.length, out[i] = rows[place i]
  ordered : ∀ i j : Fin out.length, i < j →
    verdict? ts out[i] out[j] = none ∨ verdict? ts out[i] out[j] = some .lt
  stable : ∀ i j : Fin out.length, i < j →
    (∀ t ∈ ts, t.compare out[i] out[j] = .eq) → place i < place j

def tagCompare (ts : List SortTerm) (p q : Row × Nat) : Ordering :=
  (compareAll ts p.1 q.1).then (Ord.compare p.2 q.2)

instance (ts : List SortTerm) : OrientedCmp (tagCompare ts) where
  eq_swap {p q} := by
    rw [tagCompare, tagCompare, compareAll_swap ts p.1 q.1, Ordering.swap_then,
      Ordering.swap_swap, Nat.compare_swap]

theorem zipIdxLE_eq (ts : List SortTerm) (p q : Row × Nat) :
    zipIdxLE (fun a b => (compareAll ts a b).isLE) p q = (tagCompare ts p q).isLE := by
  simp only [zipIdxLE, tagCompare, compareAll_swap ts p.1 q.1]
  cases compareAll ts p.1 q.1 with
  | lt => rfl
  | eq => rw [Bool.eq_iff_iff]; simp [Nat.isLE_compare]
  | gt => rfl

theorem tagCompare_eq_lt {ts : List SortTerm} {p q : Row × Nat} (hne : p.2 ≠ q.2)
    (hle : (tagCompare ts p q).isLE) : tagCompare ts p q = .lt := by
  cases h : tagCompare ts p q with
  | lt => rfl
  | eq => exact absurd (Nat.compare_eq_eq.1 (Ordering.then_eq_eq.1 h).2) hne
  | gt => simp [h] at hle

/-- The rows tagged with their places, in order: without the tags they are the sorted rows. -/
theorem exists_tagged (ts : List SortTerm) (rows : List Row) :
    ∃ tagged : List (Row × Nat), tagged.Perm rows.zipIdx ∧
      (tagged.Pairwise fun p q => tagCompare ts p q = .lt) ∧
      tagged.map Prod.fst = sort ts rows := by
  let le : Row → Row → Bool := fun a b => (compareAll ts a b).isLE
  have htrans (a b c : Row) : le a b → le b c → le a c := TransCmp.isLE_trans
  have htotal (a b : Row) : le a b || le b a := StableSort.isLE_total a b
  have hperm := mergeSort_perm rows.zipIdx (zipIdxLE le)
  have hdistinct : ((rows.zipIdx.mergeSort (zipIdxLE le)).map Prod.snd).Nodup :=
    (hperm.map Prod.snd).nodup_iff.2 (nodup_zipIdx_map_snd rows)
  have hsorted := pairwise_mergeSort (zipIdxLE_trans htrans) (zipIdxLE_total htotal) rows.zipIdx
  refine ⟨_, hperm, ?_, mergeSort_zipIdx⟩
  refine ((pairwise_map.1 hdistinct).and hsorted).imp ?_
  intro p q h
  exact tagCompare_eq_lt h.1 (by rw [← zipIdxLE_eq]; exact h.2)

theorem map_fst_eq_sort {ts : List SortTerm} {rows : List Row} {tagged : List (Row × Nat)}
    (hperm : tagged.Perm rows.zipIdx)
    (horder : tagged.Pairwise fun p q => tagCompare ts p q = .lt) :
    tagged.map Prod.fst = sort ts rows := by
  obtain ⟨sorted, hp, ho, hs⟩ := exists_tagged ts rows
  have he : tagged = sorted := by
    refine Perm.eq_of_pairwise ?_ horder ho (hperm.trans hp.symm)
    intro p q _ _ hpq hqp
    exact absurd hqp (OrientedCmp.not_lt_of_lt hpq)
  rw [he, hs]

namespace IsStableSort
variable {ts : List SortTerm} {rows out : List Row} {place : Fin out.length → Fin rows.length}

def tagged (out : List Row) (place : Fin out.length → Fin rows.length) : List (Row × Nat) :=
  ofFn fun i => (out[i], (place i).val)

theorem map_fst_tagged : (tagged out place).map Prod.fst = out := by
  simp [tagged, map_ofFn, Function.comp_def, ofFn_getElem]

theorem nodup_tagged (h : IsStableSort ts rows out place) : (tagged out place).Nodup := by
  rw [tagged, nodup_ofFn]
  intro i j he
  exact h.bijective.1 (Fin.ext (congrArg Prod.snd he))

theorem tagged_perm (h : IsStableSort ts rows out place) :
    (tagged out place).Perm rows.zipIdx := by
  have hz : rows.zipIdx.Nodup := (nodup_zipIdx_map_snd rows).of_map
  rw [perm_ext_iff_of_nodup h.nodup_tagged hz]
  intro p
  rw [tagged, mem_ofFn, mem_zipIdx_iff_getElem?, getElem?_eq_some_iff]
  constructor
  · intro hex
    obtain ⟨i, rfl⟩ := hex
    exact ⟨(place i).isLt, (h.same i).symm⟩
  · intro hex
    obtain ⟨hlt, hrow⟩ := hex
    obtain ⟨i, hi⟩ := h.bijective.2 ⟨p.2, hlt⟩
    refine ⟨i, Prod.ext ((h.same i).trans ?_) (congrArg Fin.val hi)⟩
    simpa only [hi, Fin.getElem_fin] using hrow

theorem tagged_pairwise (h : IsStableSort ts rows out place) :
    (tagged out place).Pairwise fun p q => tagCompare ts p q = .lt := by
  rw [tagged, pairwise_ofFn]
  intro i j hij
  have hle := compareAll_isLE_iff.2 (h.ordered i j hij)
  simp only [tagCompare]
  cases hc : compareAll ts out[i] out[j] with
  | lt => rfl
  | eq => exact Nat.compare_eq_lt.2 (h.stable i j hij (compareAll_eq_eq_iff.1 hc))
  | gt =>
    rw [hc] at hle
    cases hle

end IsStableSort

/-- The tags of rows in order say where each row comes from. -/
theorem isStableSort_of_tagged {ts : List SortTerm} {rows : List Row}
    {tagged : List (Row × Nat)} (hperm : tagged.Perm rows.zipIdx)
    (horder : tagged.Pairwise fun p q => tagCompare ts p q = .lt) :
    ∃ place, IsStableSort ts rows (tagged.map Prod.fst) place := by
  have hlen : (tagged.map Prod.fst).length = tagged.length := length_map _
  let source (i : Fin (tagged.map Prod.fst).length) : Row × Nat := tagged.get (i.cast hlen)
  have hfst (i) : (tagged.map Prod.fst)[i] = (source i).1 := by simp [source]
  have hsource (i) : ∃ h : (source i).2 < rows.length, rows[(source i).2] = (source i).1 := by
    have hmem := hperm.mem_iff.1 (get_mem tagged (i.cast hlen))
    rwa [mem_zipIdx_iff_getElem?, getElem?_eq_some_iff] at hmem
  have hdistinct : (tagged.map Prod.snd).Nodup :=
    (hperm.map Prod.snd).nodup_iff.2 (nodup_zipIdx_map_snd rows)
  have hne {i j} (hij : i < j) : (source i).2 ≠ (source j).2 :=
    pairwise_iff_get.1 (pairwise_map.1 hdistinct) _ _ hij
  have hlt {i j} (hij : i < j) : tagCompare ts (source i) (source j) = .lt :=
    pairwise_iff_get.1 horder _ _ hij
  refine ⟨fun i => ⟨(source i).2, (hsource i).1⟩, ?_, ?_, ?_, ?_⟩
  · refine (Fintype.bijective_iff_injective_and_card _).2 ⟨?_, by simp [hperm.length_eq]⟩
    intro i j hij
    rcases Nat.lt_trichotomy i j with h | h | h
    · exact absurd (congrArg Fin.val hij) (hne h)
    · exact Fin.ext h
    · exact absurd (congrArg Fin.val hij).symm (hne h)
  · intro i
    rw [hfst]
    exact (hsource i).2.symm
  · intro i j hij
    rw [hfst, hfst, ← compareAll_isLE_iff]
    exact (Ordering.isLE_then_iff_and.1 (Ordering.isLE_of_eq_lt (hlt hij))).1
  · intro i j hij halike
    have heq : compareAll ts (source i).1 (source j).1 = .eq := by
      rw [← hfst, ← hfst]
      exact compareAll_eq_eq_iff.2 halike
    have h := hlt hij
    rw [tagCompare, heq] at h
    exact Nat.compare_eq_lt.1 h

/-- Sorting is the one stable sort. -/
theorem isStableSort_iff (ts : List SortTerm) (rows out : List Row) :
    (∃ place, IsStableSort ts rows out place) ↔ out = sort ts rows := by
  constructor
  · intro hex
    obtain ⟨place, h⟩ := hex
    rw [← map_fst_eq_sort h.tagged_perm h.tagged_pairwise, IsStableSort.map_fst_tagged]
  · intro he
    subst he
    obtain ⟨tagged, hperm, horder, hout⟩ := exists_tagged ts rows
    rw [← hout]
    exact isStableSort_of_tagged hperm horder

end TableQuery.SortTerm
