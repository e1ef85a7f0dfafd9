import Mathlib.Data.List.Nodup
import TableQuery.Proofs.Grouping.Partition

/-! The keys of a grouping in another order, or some of them named again. The classes are those of
the set of keys, each with its rows as they came, and so no more than the order of the groups can
change. -/
namespace TableQuery.Grouping

def classes (keys : List String) (rows : List Row) : List (List Row) :=
  (nested keys rows).map (members keys rows)

theorem group_eq_classes (columns : List Column) (keys : List String) (rows : List Row) :
    group columns keys rows = (classes keys rows).filterMap (collapse columns) := by
  rw [group_eq_nested, classes, List.filterMap_map]
  rfl

theorem summaries_classes (columns : List Column) (keys : List String) (rows : List Row) :
    List.Forall₂ (IsSummary columns) (classes keys rows) (group columns keys rows) :=
  List.forall₂_map_left_iff.2 (isPartition_group columns keys rows).summaries

theorem signature_eq_iff {keys : List String} {a b : Row} :
    signature keys a = signature keys b ↔ ∀ key ∈ keys, keyOf key a = keyOf key b :=
  List.map_inj_left

theorem mem_members {keys : List String} {rows : List Row} {row : Row} {c : List Value} :
    row ∈ members keys rows c ↔ row ∈ rows ∧ signature keys row = c := by
  rw [members, List.mem_filter, beq_iff_eq]

/-- A class holds the rows that agree with one row on every key, and no others. -/
theorem mem_classes {keys : List String} {rows group : List Row} :
    group ∈ classes keys rows ↔
      ∃ row ∈ rows, group = rows.filter fun r => ∀ key ∈ keys, keyOf key r = keyOf key row := by
  have hmembers : ∀ row, members keys rows (signature keys row) =
      rows.filter fun r => ∀ key ∈ keys, keyOf key r = keyOf key row := by
    intro row
    refine List.filter_congr fun r _ => ?_
    rw [Bool.eq_iff_iff, beq_iff_eq, decide_eq_true_iff, signature_eq_iff]
  rw [classes, List.mem_map]
  constructor
  · intro hex
    obtain ⟨c, hc, rfl⟩ := hex
    obtain ⟨row, hrow, rfl⟩ := mem_nested.1 hc
    exact ⟨row, hrow, hmembers row⟩
  · intro hex
    obtain ⟨row, hrow, rfl⟩ := hex
    exact ⟨signature keys row, mem_nested.2 ⟨row, hrow, rfl⟩, hmembers row⟩

theorem nodup_classes (keys : List String) (rows : List Row) : (classes keys rows).Nodup := by
  refine List.Nodup.map_on ?_ (nodup_nested keys rows)
  intro c hc d _ hcd
  obtain ⟨row, hrow, hsignature⟩ := mem_nested.1 hc
  have hmem : row ∈ members keys rows c := mem_members.2 ⟨hrow, hsignature⟩
  rw [hcd] at hmem
  exact hsignature.symm.trans (mem_members.1 hmem).2

theorem classes_perm {keys others : List String} (h : ∀ key, key ∈ keys ↔ key ∈ others)
    (rows : List Row) : (classes keys rows).Perm (classes others rows) := by
  rw [List.perm_ext_iff_of_nodup (nodup_classes keys rows) (nodup_classes others rows)]
  intro group
  rw [mem_classes, mem_classes]
  simp only [h]

/-- Two lists of the same keys give the same groups, each with the same first row and the same
aggregates, if perhaps in another order. -/
theorem group_perm_of_mem_iff (columns : List Column) {keys others : List String}
    (h : ∀ key, key ∈ keys ↔ key ∈ others) (rows : List Row) :
    (group columns keys rows).Perm (group columns others rows) ∧
      (classes keys rows).Perm (classes others rows) ∧
      List.Forall₂ (IsSummary columns) (classes keys rows) (group columns keys rows) ∧
      List.Forall₂ (IsSummary columns) (classes others rows) (group columns others rows) := by
  have hclasses := classes_perm h rows
  refine ⟨?_, hclasses, summaries_classes columns keys rows, summaries_classes columns others rows⟩
  rw [group_eq_classes, group_eq_classes]
  exact hclasses.filterMap _

/-- Four groups, of which the second and the last change places. -/
theorem group_perm_of_key_named_again :
    let columns := [⟨"v", "sum(v)", some .sum⟩, ⟨"v", "top", some .maximum⟩]
    let rows := [Row.ofList [("a", .int 1), ("b", .text "x"), ("v", .int 5)],
      Row.ofList [("a", .int 2), ("b", .text "y"), ("v", .text "7")],
      Row.ofList [("b", .text "y"), ("a", .int 1)],
      Row.ofList [("a", .int 1), ("b", .text "x"), ("v", .bool true)],
      Row.ofList [("b", .text "x"), ("a", .float (.infinity false))]]
    (∀ key, key ∈ ["a", "b"] ↔ key ∈ ["b", "a", "b"]) ∧
      (group columns ["a", "b"] rows).Perm (group columns ["b", "a", "b"] rows) ∧
      (classes ["a", "b"] rows).Perm (classes ["b", "a", "b"] rows) ∧
      List.Forall₂ (IsSummary columns) (classes ["a", "b"] rows) (group columns ["a", "b"] rows) ∧
      List.Forall₂ (IsSummary columns) (classes ["b", "a", "b"] rows)
        (group columns ["b", "a", "b"] rows) := by
  intro columns rows
  have hkeys : ∀ key, key ∈ ["a", "b"] ↔ key ∈ ["b", "a", "b"] := by
    intro key
    simp only [List.mem_cons, List.not_mem_nil, or_false]
    tauto
  exact ⟨hkeys, group_perm_of_mem_iff columns hkeys rows⟩

end TableQuery.Grouping
