import Mathlib.Algebra.Order.BigOperators.Group.List
import Mathlib.Algebra.Order.Ring.Nat
import TableQuery.Grouping
import TableQuery.Proofs.FirstSeen

/-! The classes of rows that agree under every key of a list. Grouping by one key after the
other meets them in the order in which the values of the keys were seen first. -/
namespace TableQuery.Grouping
open FirstSeen

def keyOf (key : String) (row : Row) : Value := (row.value key).groupKey

def signature (keys : List String) (row : Row) : List Value := keys.map fun key => keyOf key row

def members (keys : List String) (rows : List Row) (c : List Value) : List Row :=
  rows.filter (signature keys · == c)

/-- For one key after the other, the place of the first row that agrees with the class on the
keys so far. -/
def seen (keys : List String) (rows : List Row) (c : List Value) : List Nat :=
  (List.range keys.length).map fun n =>
    rows.findIdx fun row => signature (keys.take (n + 1)) row == c.take (n + 1)

def nested : List String → List Row → List (List Value)
  | [], rows => if rows.isEmpty then [] else [[]]
  | key :: keys, rows => (rows.map (keyOf key)).eraseDups.flatMap fun v =>
      (nested keys (rows.filter (keyOf key · == v))).map (v :: ·)

/-- The bucket of each value of `f`, in the order in which the values were seen first. -/
theorem buckets_eq {β : Type} [DecidableEq β] (f : Row → β) (rows : List Row) :
    buckets (fun a b => f a == f b) rows =
      (rows.map f).eraseDups.map fun v => rows.filter (f · == v) :=
  match rows with
  | [] => by simp [buckets]
  | row :: rows => by
    have hhead : (row :: rows).filter (f · == f row) = row :: rows.filter (f row == f ·) := by
      simp [Bool.beq_comm]
    have htail : rows.filter (fun r => !f row == f r) = rows.filter ((!· == f row) ∘ f) := by
      refine List.filter_congr fun r _ => ?_
      simp [Bool.beq_comm]
    rw [buckets, List.map_cons, List.eraseDups_cons, List.map_cons, hhead, htail,
      List.filter_map, buckets_eq f (rows.filter _)]
    congr 1
    refine List.map_congr_left fun v hv => ?_
    obtain ⟨r, hr, rfl⟩ := List.mem_map.1 (List.mem_eraseDups.1 hv)
    have hne : f r ≠ f row := by simpa using (List.mem_filter.1 hr).2
    rw [List.filter_cons_of_neg (by simpa using hne.symm), List.filter_filter]
    refine List.filter_congr fun x _ => ?_
    by_cases hx : f x = f r <;> simp [hx, hne]
termination_by rows.length
decreasing_by exact Nat.lt_succ_of_le (List.length_filter_le _ _)

theorem members_cons (key : String) (keys : List String) (rows : List Row) (v : Value)
    (c : List Value) :
    members (key :: keys) rows (v :: c) = members keys (rows.filter (keyOf key · == v)) c := by
  rw [members, members, List.filter_filter]
  refine List.filter_congr fun row _ => ?_
  rw [signature, List.map_cons, List.cons_beq_cons, Bool.and_comm]
  rfl

theorem group_eq_nested (columns : List Column) (keys : List String) (rows : List Row) :
    group columns keys rows =
      (nested keys rows).filterMap fun c => collapse columns (members keys rows c) := by
  induction keys generalizing rows with
  | nil =>
    cases rows with
    | nil => rfl
    | cons row rows => simp [group, nested, members, signature, collapse]
  | cons key keys ih =>
    have hbuckets : buckets (sameKey key) rows = _ := buckets_eq (keyOf key) rows
    rw [group, hbuckets, nested, List.flatMap_map, List.filterMap_flatMap]
    congr 1
    funext v
    simp only [ih, List.filterMap_map, Function.comp_def, members_cons]

theorem mem_nested {keys : List String} {rows : List Row} {c : List Value} :
    c ∈ nested keys rows ↔ ∃ row ∈ rows, signature keys row = c := by
  induction keys generalizing rows c with
  | nil =>
    cases rows with
    | nil => simp [nested]
    | cons row rows => simp [nested, signature, eq_comm]
  | cons key keys ih =>
    simp only [nested, List.mem_flatMap, List.mem_map, List.mem_eraseDups, ih, List.mem_filter]
    constructor
    · intro h
      obtain ⟨v, -, d, ⟨row, ⟨hrow, hv⟩, rfl⟩, rfl⟩ := h
      exact ⟨row, hrow, by rw [← beq_iff_eq.1 hv]; rfl⟩
    · intro h
      obtain ⟨row, hrow, rfl⟩ := h
      exact ⟨keyOf key row, ⟨row, hrow, rfl⟩, signature keys row,
        ⟨row, ⟨hrow, beq_self_eq_true _⟩, rfl⟩, rfl⟩

theorem seen_cons (key : String) (keys : List String) (rows : List Row) (v : Value)
    (c : List Value) :
    seen (key :: keys) rows (v :: c) = rows.findIdx (keyOf key · == v) ::
      (List.range keys.length).map fun n => rows.findIdx fun row =>
        keyOf key row == v && signature (keys.take (n + 1)) row == c.take (n + 1) := by
  rw [seen, List.length_cons, List.range_succ_eq_map, List.map_cons, List.map_map]
  simp [signature, Function.comp_def]

theorem compare_map {f g f' g' : Nat → Nat} (h : ∀ n, compare (f n) (g n) = compare (f' n) (g' n))
    (l : List Nat) : compare (l.map f) (l.map g) = compare (l.map f') (l.map g') := by
  induction l with
  | nil => rfl
  | cons n l ih => simp only [List.map_cons, List.compare_cons_cons, h n, ih]

/-- Within the rows of one value, the order does not depend on the other rows. -/
theorem compare_seen_cons (key : String) (keys : List String) (rows : List Row) (v : Value)
    (c d : List Value) :
    compare (seen (key :: keys) rows (v :: c)) (seen (key :: keys) rows (v :: d)) =
      compare (seen keys (rows.filter (keyOf key · == v)) c)
        (seen keys (rows.filter (keyOf key · == v)) d) := by
  rw [seen_cons, seen_cons, List.compare_cons_cons, Nat.compare_eq_eq.2 rfl, Ordering.eq_then]
  refine compare_map (fun n => ?_) _
  exact (compare_findIdx_filter _ _ _ rows).symm

theorem pairwise_nested (keys : List String) (rows : List Row) :
    (nested keys rows).Pairwise fun c d =>
      compare (seen keys rows c) (seen keys rows d) = .lt := by
  induction keys generalizing rows with
  | nil => cases rows <;> simp [nested]
  | cons key keys ih =>
    rw [nested, List.pairwise_flatMap]
    constructor
    · intro v _
      rw [List.pairwise_map]
      refine (ih _).imp ?_
      intro c d h
      rw [compare_seen_cons, h]
    · refine (pairwise_eraseDups (rows.map (keyOf key))).imp ?_
      intro v w hlt x hx y hy
      obtain ⟨c, -, rfl⟩ := List.mem_map.1 hx
      obtain ⟨d, -, rfl⟩ := List.mem_map.1 hy
      rw [List.findIdx_map, List.findIdx_map] at hlt
      have hfirst : compare (rows.findIdx (keyOf key · == v)) (rows.findIdx (keyOf key · == w)) =
          .lt := Nat.compare_eq_lt.2 hlt
      rw [seen_cons, seen_cons, List.compare_cons_cons, hfirst]
      rfl

theorem nodup_nested (keys : List String) (rows : List Row) : (nested keys rows).Nodup := by
  refine (pairwise_nested keys rows).imp ?_
  intro c d h he
  subst he
  rw [Std.ReflOrd.compare_self] at h
  cases h

end TableQuery.Grouping
