import Mathlib.Data.List.Forall2
import TableQuery.Journal.Event
import TableQuery.Proofs.Json.Strings
import TableQuery.Proofs.StableSort
import TableQuery.Proofs.Text.Bytes

/-! The line of an event is read back. It ends where its only line break is, and what stands before
that is an object with the name, the severity and the fields of the event for members. So no text
in an event can pass for another line or another member. -/
namespace TableQuery
open TableQuery.Text StableSort

theorem Severity.name_inj {a b : Severity} : a.name = b.name ↔ a = b := by
  cases a <;> cases b <;> decide

namespace Event

structure IsSortedByKey (fields sorted : List (String × String)) : Prop where
  perm : sorted.Perm fields
  ordered : sorted.Pairwise fun a b => bytes a.1 ≤ bytes b.1
  stable : ∀ key, sorted.filter (·.1 = key) = fields.filter (·.1 = key)

def byKey : String × String → String × String → Ordering := compareOn Prod.fst

instance : Std.TransCmp byKey := inferInstanceAs (Std.TransCmp (compareOn Prod.fst))

theorem alike_byKey (field : String × String) (fields : List (String × String)) :
    alike byKey field fields = fields.filter (·.1 = field.1) := by
  refine List.filter_congr fun other _ => decide_eq_decide.2 ?_
  rw [byKey, compareOn, Std.compare_eq_iff_eq, eq_comm]

theorem filter_sortedFields (e : Event) (key : String) :
    e.sortedFields.filter (·.1 = key) = e.fields.filter (·.1 = key) := by
  have hstable : alike byKey (key, "") e.sortedFields = alike byKey (key, "") e.fields :=
    alike_mergeSort (key, "") e.fields
  rwa [alike_byKey, alike_byKey] at hstable

theorem pairwise_sortedFields (e : Event) :
    e.sortedFields.Pairwise fun a b => (byKey a b).isLE :=
  pairwise_mergeSort e.fields

theorem isSortedByKey_sortedFields (e : Event) : IsSortedByKey e.fields e.sortedFields where
  perm := List.mergeSort_perm _ _
  ordered := (pairwise_sortedFields e).imp isLE_compare_iff.1
  stable := filter_sortedFields e

/-- The fields in order show of the fields only which there are of each key. -/
theorem sortedFields_eq_iff {e e' : Event} :
    e.sortedFields = e'.sortedFields ↔
      ∀ key, e.fields.filter (·.1 = key) = e'.fields.filter (·.1 = key) := by
  constructor
  · intro h key
    rw [← filter_sortedFields, h, filter_sortedFields]
  · intro h
    refine eq_of_alike (pairwise_sortedFields e) (pairwise_sortedFields e') ?_
    intro field
    rw [alike_byKey, alike_byKey, filter_sortedFields, filter_sortedFields, h]

def members (e : Event) : List (String × String) :=
  ("event", e.name) :: ("severity", e.severity.name) :: e.sortedFields

theorem line_eq (e : Event) : e.line = (Json.ofStrings e.members).text ++ ['\n'] := by
  rw [members, Json.text_ofStrings_cons, line, List.flatMap_cons]
  simp [memberText]

structure Alike (e e' : Event) : Prop where
  name : e.name = e'.name
  severity : e.severity = e'.severity
  fields : ∀ key, e.fields.filter (·.1 = key) = e'.fields.filter (·.1 = key)

theorem members_eq_iff {e e' : Event} : e.members = e'.members ↔ Alike e e' := by
  simp only [members, List.cons.injEq, Prod.mk.injEq, true_and, Severity.name_inj,
    sortedFields_eq_iff]
  exact ⟨fun h => ⟨h.1, h.2.1, h.2.2⟩, fun h => ⟨h.name, h.severity, h.fields⟩⟩

theorem line_eq_iff {e e' : Event} : e.line = e'.line ↔ Alike e e' := by
  rw [line_eq, line_eq, List.append_left_inj, ← members_eq_iff]
  refine ⟨?_, fun h => by rw [h]⟩
  intro h
  have hread := congrArg Json.stringMembers? h
  rwa [Json.stringMembers?_text, Json.stringMembers?_text, Option.some.injEq] at hread

/-- A text without a line break is all that stands before the first one. -/
theorem eq_of_append_newline {s t rest others : List Char} (hs : '\n' ∉ s) (ht : '\n' ∉ t)
    (h : s ++ '\n' :: rest = t ++ '\n' :: others) : s = t ∧ rest = others := by
  induction s generalizing t with
  | nil =>
    cases t with
    | nil => exact ⟨rfl, (List.cons.inj h).2⟩
    | cons d t =>
      obtain ⟨rfl, -⟩ := List.cons.inj h
      exact absurd List.mem_cons_self ht
  | cons c s ih =>
    cases t with
    | nil =>
      obtain ⟨rfl, -⟩ := List.cons.inj h
      exact absurd List.mem_cons_self hs
    | cons d t =>
      obtain ⟨rfl, htail⟩ := List.cons.inj h
      obtain ⟨rfl, hrest⟩ :=
        ih (List.not_mem_of_not_mem_cons hs) (List.not_mem_of_not_mem_cons ht) htail
      exact ⟨rfl, hrest⟩

theorem flatMap_line_eq_iff {events others : List Event} :
    events.flatMap line = others.flatMap line ↔ List.Forall₂ Alike events others := by
  induction events generalizing others with
  | nil =>
    cases others with
    | nil => simp
    | cons e' others => simp [line]
  | cons e events ih =>
    cases others with
    | nil => simp [line]
    | cons e' others =>
      rw [List.forall₂_cons, ← ih, ← line_eq_iff, List.flatMap_cons, List.flatMap_cons]
      refine ⟨?_, fun h => by rw [h.1, h.2]⟩
      intro h
      rw [line_eq, line_eq, List.append_assoc, List.append_assoc] at h
      obtain ⟨htext, hrest⟩ := eq_of_append_newline (Json.newline_not_mem_ofStrings _)
        (Json.newline_not_mem_ofStrings _) h
      exact ⟨by rw [line_eq, line_eq, htext], hrest⟩

/-- Each event is one line, from which its members are read back in order. Lines, one or many, are
the same for the same events only, up to the order of fields of distinct keys. -/
theorem line_isReadBack :
    (∀ e : Event, ∃ text sorted, e.line = text ++ ['\n'] ∧ '\n' ∉ text ∧
      IsSortedByKey e.fields sorted ∧
      Json.stringMembers? text =
        some (("event", e.name) :: ("severity", e.severity.name) :: sorted)) ∧
      (∀ e e' : Event, e.line = e'.line ↔ Alike e e') ∧
      ∀ events others : List Event,
        events.flatMap line = others.flatMap line ↔ List.Forall₂ Alike events others := by
  refine ⟨?_, fun e e' => line_eq_iff, fun events others => flatMap_line_eq_iff⟩
  intro e
  exact ⟨(Json.ofStrings e.members).text, e.sortedFields, line_eq e,
    Json.newline_not_mem_ofStrings _, isSortedByKey_sortedFields e, Json.stringMembers?_text _⟩

end Event
end TableQuery
