import TableQuery.Proofs.Condition.Parentheses

/-! What reading leaves unread. Groups are taken out of a text one after another, each with
the connective that what is left begins or ends with. Without one the group stands alone, and
neither a fault nor an operand in what is left counts for anything. -/
namespace TableQuery
open TableQuery.Text

namespace Condition

/-- The operands that a text is taken apart into, one group after another, and what is left
unread around a group that stands alone. -/
inductive IsTakenApart : List Char → List (List Char) → List Char → Prop where
  | flat {s : List Char} (h : Flat s) : IsTakenApart s [s] []
  | alone {before inner after : List Char} (hbefore : Flat before) (hinner : Flat inner)
      (hleading : ∀ k : Connective, k.leading? (before ++ after) = none)
      (htrailing : ∀ k : Connective, k.trailing? (before ++ after) = none) :
      IsTakenApart (before ++ '(' :: (inner ++ ')' :: after)) [inner] (before ++ after)
  | leading {before inner after rest unread : List Char} {operands : List (List Char)}
      {k : Connective} (hbefore : Flat before) (hinner : Flat inner)
      (h : k.leading? (before ++ after) = some rest) (hrest : IsTakenApart rest operands unread) :
      IsTakenApart (before ++ '(' :: (inner ++ ')' :: after)) (inner :: operands) unread
  | trailing {before inner after rest unread : List Char} {operands : List (List Char)}
      {k : Connective} (hbefore : Flat before) (hinner : Flat inner)
      (hleading : ∀ j : Connective, j.leading? (before ++ after) = none)
      (h : k.trailing? (before ++ after) = some rest)
      (hrest : IsTakenApart rest operands unread) :
      IsTakenApart (before ++ '(' :: (inner ++ ')' :: after)) (inner :: operands) unread

/-- Taking a text apart moves its first fault into what is left unread. -/
theorem IsTakenApart.fault?_eq {s unread : List Char} {operands : List (List Char)}
    (h : IsTakenApart s operands unread) : fault? false s = fault? false unread := by
  induction h with
  | flat hs => exact (fault?_append_flat hs false [])
  | alone hbefore hinner _ _ => exact fault?_group hbefore hinner _
  | leading hbefore hinner hk _ ih =>
    rw [fault?_group hbefore hinner, fault?_of_leading? hk, ih]
  | trailing hbefore hinner _ hk _ ih =>
    rw [fault?_group hbefore hinner, fault?_of_trailing? hk, ih]

section
variable {before inner after rest : List Char} {k : Connective}

theorem read_of_alone (hbefore : Flat before) (hinner : Flat inner)
    (hleading : ∀ k : Connective, k.leading? (before ++ after) = none)
    (htrailing : ∀ k : Connective, k.trailing? (before ++ after) = none) :
    read (before ++ '(' :: (inner ++ ')' :: after)) = read inner := by
  refine read_of_group ((shape_append hbefore hinner after).trans (congrArg Except.ok ?_))
  rw [Grouped.shape, hleading, hleading, htrailing, htrailing]

theorem read_of_leading? (hbefore : Flat before) (hinner : Flat inner)
    (hk : k.leading? (before ++ after) = some rest) :
    read (before ++ '(' :: (inner ++ ')' :: after)) = joinM k (read inner) (read rest) := by
  refine read_of_joined ((shape_append hbefore hinner after).trans (congrArg Except.ok ?_))
  refine shape_of_leading hk ?_
  intro j hj
  cases h : j.leading? (before ++ after) with
  | none => rfl
  | some other => exact absurd (Connective.leading?_unique hk h) hj

theorem read_of_trailing? (hbefore : Flat before) (hinner : Flat inner)
    (hleading : ∀ j : Connective, j.leading? (before ++ after) = none)
    (hk : k.trailing? (before ++ after) = some rest) :
    read (before ++ '(' :: (inner ++ ')' :: after)) = joinM k (read rest) (read inner) := by
  refine read_of_joined ((shape_append hbefore hinner after).trans (congrArg Except.ok ?_))
  refine shape_of_trailing hleading hk ?_
  intro j hj
  cases h : j.trailing? (before ++ after) with
  | none => rfl
  | some other => exact absurd (Connective.trailing?_unique hk h) hj

end

/-- Each operand has to be read on its own, and what is left unread does not matter. -/
theorem IsTakenApart.exists_read_eq_ok_iff {s unread : List Char} {operands : List (List Char)}
    (h : IsTakenApart s operands unread) :
    (∃ c, read s = .ok c) ↔ ∀ p ∈ operands, ∃ c, read p = .ok c := by
  induction h with
  | flat hs => rw [List.forall_mem_singleton]
  | alone hbefore hinner hleading htrailing =>
    rw [List.forall_mem_singleton, read_of_alone hbefore hinner hleading htrailing]
  | leading hbefore hinner hk _ ih =>
    rw [List.forall_mem_cons, read_of_leading? hbefore hinner hk, exists_joinM_eq_ok_iff]
    exact and_congr_right fun _ => ih
  | trailing hbefore hinner hleading hk _ ih =>
    rw [List.forall_mem_cons, read_of_trailing? hbefore hinner hleading hk,
      exists_joinM_eq_ok_iff, and_comm]
    exact and_congr_right fun _ => ih

theorem exists_isTakenApart {s : List Char} {c : Condition} (h : read s = .ok c) :
    ∃ operands unread, IsTakenApart s operands unread := by
  induction hn : s.length using Nat.strong_induction_on generalizing s c with
  | _ n ih =>
    rcases firstGroup_cases s with hs | ⟨before, inner, after, rfl, hbefore, hinner⟩ | ⟨fault, hs⟩
    · exact ⟨_, _, .flat hs⟩
    · have hlength : (before ++ after).length < n := by
        rw [← hn]
        simp only [List.length_append, List.length_cons]
        omega
      rcases Connective.exists_some_or_none (·.leading? (before ++ after)) with
        ⟨k, rest, hk⟩ | hleading
      · rw [read_of_leading? hbefore hinner hk] at h
        obtain ⟨-, r, -, hr, -⟩ := joinM_eq_ok_iff.1 h
        have hshorter : rest.length < n := Nat.lt_trans (Connective.length_leading hk) hlength
        obtain ⟨operands, unread, hrest⟩ := ih _ hshorter hr rfl
        exact ⟨_, _, .leading hbefore hinner hk hrest⟩
      · rcases Connective.exists_some_or_none (·.trailing? (before ++ after)) with
          ⟨k, rest, hk⟩ | htrailing
        · rw [read_of_trailing? hbefore hinner hleading hk] at h
          obtain ⟨l, -, hl, -, -⟩ := joinM_eq_ok_iff.1 h
          have hshorter : rest.length < n :=
            Nat.lt_of_le_of_lt (Connective.length_trailing hk) hlength
          obtain ⟨operands, unread, hrest⟩ := ih _ hshorter hl rfl
          exact ⟨_, _, .trailing hbefore hinner hleading hk hrest⟩
        · exact ⟨_, _, .alone hbefore hinner hleading htrailing⟩
    · rw [read_of_fault (by rw [shape, hs]; rfl)] at h
      cases h

theorem isSyntax_of_read_eq_error {s : List Char} {e : QueryError} (h : read s = .error e) :
    e.isSyntax = true := by
  fun_induction read s with
  | case1 s fault hs =>
    cases h
    rfl
  | case2 s hs c hc => cases h
  | case3 s hs hc =>
    cases h
    rfl
  | case4 s inner hs hlength ih => exact ih h
  | case5 s k left right hs hleft hright ihl ihr =>
    rcases joinM_eq_error_iff.1 h with hl | ⟨-, hr⟩
    · exact ihl hl
    · exact ihr hr

/-- A text with a fault is rejected, unless a group that stands alone leaves the fault unread
and every operand before it can be read. -/
theorem isRejected_iff_of_faulty {text : String} (h : Faulty text.toList) :
    (∃ e, ofText text = .error e ∧ e.isSyntax = true) ↔
      ¬ ∃ operands unread, IsTakenApart text.toList operands unread ∧ Faulty unread ∧
        ∀ p ∈ operands, ∃ c, read p = .ok c := by
  obtain ⟨c, hmem, hc⟩ := h.exists_mem
  have hnonblank := trim_ne_nil_of_mem hmem hc
  constructor
  · intro hrejected hex
    obtain ⟨e, he, -⟩ := hrejected
    obtain ⟨operands, unread, hapart, -, hoperands⟩ := hex
    obtain ⟨d, hd⟩ := hapart.exists_read_eq_ok_iff.2 hoperands
    rw [(ofText_eq_error_iff hnonblank).1 he] at hd
    cases hd
  · intro hnone
    cases hread : read text.toList with
    | error e => exact ⟨e, (ofText_eq_error_iff hnonblank).2 hread, isSyntax_of_read_eq_error hread⟩
    | ok d =>
      obtain ⟨operands, unread, hapart⟩ := exists_isTakenApart hread
      refine absurd ⟨operands, unread, hapart, ?_, hapart.exists_read_eq_ok_iff.1 ⟨d, hread⟩⟩ hnone
      rwa [Faulty, ← hapart.fault?_eq]

theorem ofText_fault_left_unread :
    Faulty "(a = 1) )".toList ∧ ¬ ∃ e, ofText "(a = 1) )" = .error e ∧ e.isSyntax = true := by
  have hfaulty : Faulty "(a = 1) )".toList := by decide
  have happart : IsTakenApart "(a = 1) )".toList ["a = 1".toList] " )".toList :=
    @IsTakenApart.alone [] "a = 1".toList " )".toList flat_nil (by decide)
      (fun k => by cases k <;> decide) (fun k => by cases k <;> decide)
  have hread : ∃ c, read "a = 1".toList = .ok c := ⟨_, (read_of_comparison rfl).trans rfl⟩
  refine ⟨hfaulty, ?_⟩
  intro hrejected
  exact (isRejected_iff_of_faulty hfaulty).1 hrejected
    ⟨_, _, happart, by decide, List.forall_mem_singleton.2 hread⟩

inductive IsBetween (p g q : Phrase) : String → Prop where
  | intro {k j : Connective} {v w : String} (hv : k.Spells v.toList) (hw : j.Spells w.toList)
      (hfirst : ∀ u, (words p.text.toList).head? = some u → ∀ i : Connective, ¬ i.Spells u)
      (hlast : ∀ u, (words q.text.toList).getLast? = some u → ∀ i : Connective, ¬ i.Spells u) :
      IsBetween p g q (p.text ++ " " ++ v ++ " (" ++ g.text ++ ") " ++ w ++ " " ++ q.text)

/-- Connectives next to a group do not join it where the text neither begins nor ends with
one. -/
theorem read_between {left right v w inner : List Char} (hleft : Flat left)
    (hnonblank : trim left ≠ []) (hv : Flat v) (h : Flat inner) (hright : trim right ≠ [])
    (hfirst : ∀ u, (words left).head? = some u → ∀ i : Connective, ¬ i.Spells u)
    (hlast : ∀ u, (words right).getLast? = some u → ∀ i : Connective, ¬ i.Spells u) :
    read (left ++ ' ' :: v ++ '(' :: (inner ++ ')' :: (w ++ ' ' :: right))) = read inner := by
  have hbefore : Flat (left ++ ' ' :: v) :=
    hleft.append (Flat.append (s := [' ']) (by decide) hv)
  refine read_of_alone hbefore h ?_ ?_
  · intro i
    refine Connective.leading?_eq_none ?_
    intro u hu
    rw [List.append_assoc, List.cons_append, head?_words_append hnonblank rfl] at hu
    exact hfirst u hu i
  · intro i
    refine Connective.trailing?_eq_none ?_
    intro u hu
    rw [← List.append_assoc, getLast?_words_append rfl hright] at hu
    exact hlast u hu i

theorem ofText_of_isBetween {p g q : Phrase} {text : String} (h : IsBetween p g q text) :
    ofText text = ofText g.text := by
  cases h with
  | @intro k j v w hv hw hfirst hlast =>
    have hnonblank : trim (p.text ++ " " ++ v ++ " (" ++ g.text ++ ") " ++ w ++ " " ++
        q.text).toList ≠ [] := trim_ne_nil_of_mem (c := '(') (by simp) rfl
    have hbefore : Flat (v.toList ++ [' ']) := hv.flat.append (by decide)
    rw [ofText_eq hnonblank, ofText_eq g.nonblank,
      ← read_between (w := ' ' :: w.toList) p.flat p.nonblank hbefore g.flat q.nonblank hfirst
        hlast]
    simp

def Says (text : String) (l : Comparison) : Prop :=
  ∃ c, ofText text = .ok (some c) ∧ l ∈ c.leaves

/-- Of a group between two connectives only the group is read. The comparisons on either side
are dropped, and none is missing only where the group repeats them all. -/
theorem reads_group_of_isBetween {p g q : Phrase} {text : String} (h : IsBetween p g q text) :
    ofText text = ofText g.text ∧
      ((∀ l, Says p.text l ∨ Says g.text l ∨ Says q.text l → Says text l) ↔
        ∀ l, Says p.text l ∨ Says q.text l → Says g.text l) := by
  have hread := ofText_of_isBetween h
  have hsame : ∀ l, Says text l ↔ Says g.text l := by
    intro l
    rw [Says, Says, hread]
  refine ⟨hread, ?_⟩
  simp only [hsame]
  constructor
  · intro hall l hl
    exact hall l (hl.imp_right .inr)
  · intro hsides l hl
    rcases hl with hp | hg | hq
    · exact hsides l (.inl hp)
    · exact hg
    · exact hsides l (.inr hq)

theorem comparisons_around_group_dropped :
    IsBetween ⟨"a = 1", by decide, by decide⟩ ⟨"b = 2", by decide, by decide⟩
      ⟨"c = 3", by decide, by decide⟩ "a = 1 and (b = 2) and c = 3" ∧
    ofText "a = 1 and (b = 2) and c = 3" = .ok (some (leaf ⟨"b", .eq, "2", none⟩)) ∧
    ¬ ∀ l, Says "a = 1" l ∨ Says "b = 2" l ∨ Says "c = 3" l →
      Says "a = 1 and (b = 2) and c = 3" l := by
  have hbetween : IsBetween ⟨"a = 1", by decide, by decide⟩ ⟨"b = 2", by decide, by decide⟩
      ⟨"c = 3", by decide, by decide⟩ "a = 1 and (b = 2) and c = 3" :=
    .intro (k := .and) (j := .and) (v := "and") (w := "and") rfl rfl
      (fun u hu i hi => by cases hu; cases i <;> cases hi)
      (fun u hu i hi => by cases hu; cases i <;> cases hi)
  have hread : ∀ p : Phrase, shape p.text.toList = .ok .comparison →
      ∀ l, Comparison.read? p.text.toList = some l → ofText p.text = .ok (some (leaf l)) := by
    intro p hshape l hl
    rw [ofText_eq_ok_some_iff p.nonblank, read_of_comparison hshape, hl]
  have hleft := hread ⟨"a = 1", by decide, by decide⟩ rfl ⟨"a", .eq, "1", none⟩ rfl
  have hgroup := hread ⟨"b = 2", by decide, by decide⟩ rfl ⟨"b", .eq, "2", none⟩ rfl
  obtain ⟨htext, hall⟩ := reads_group_of_isBetween hbetween
  refine ⟨hbetween, htext.trans hgroup, ?_⟩
  intro hkept
  obtain ⟨c, hc, hmem⟩ := hall.1 hkept _ (.inl ⟨_, hleft, List.mem_singleton.2 rfl⟩)
  rw [hgroup] at hc
  cases hc
  exact absurd hmem (by decide)

end Condition
end TableQuery
