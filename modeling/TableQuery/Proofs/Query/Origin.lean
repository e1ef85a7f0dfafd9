import TableQuery.Proofs.Condition.Joining
import TableQuery.Proofs.Query.Stages
import TableQuery.Proofs.Selection
import TableQuery.Proofs.Sorting.Stability
import TableQuery.Proofs.Text.Words

/-! Where the rows of a result come from. Without groups every row of it is a row of the input,
each from a place of its own, with some fields left out. -/
namespace TableQuery
open TableQuery.Text

def HasNoTerms (clause : Option String) : Prop :=
  ∀ text, clause = some text → ∀ c ∈ text.toList, c = ',' ∨ isBlank c = true

theorem hasNoTerms_iff {clause : Option String} :
    HasNoTerms clause ↔ ∀ t ∈ terms (clause.getD "").toList, trim t = [] := by
  have hterms (s : List Char) :
      (∀ t ∈ terms s, trim t = []) ↔ ∀ c ∈ s, c = ',' ∨ isBlank c = true := by
    simp only [trim_eq_nil_iff, terms, forall_mem_pieces, beq_iff_eq]
  rw [hterms, HasNoTerms]
  cases clause with
  | none => simp
  | some text => simp

theorem Grouping.keysOf_of_hasNoTerms {clause : Option String} (h : HasNoTerms clause) :
    keysOf (clause.getD "") = [] := by
  rw [keysOf, List.map_eq_nil_iff, List.filter_eq_nil_iff]
  intro t ht
  obtain ⟨s, hs, rfl⟩ := List.mem_map.1 ht
  simp [hasNoTerms_iff.1 h s hs]

theorem SortTerm.ofClause_of_hasNoTerms {clause : Option String} (h : HasNoTerms clause) :
    ofClause (clause.getD "") = [] := by
  rw [ofClause, List.filterMap_eq_nil_iff]
  intro t ht
  rw [words_eq_nil_iff.2 (hasNoTerms_iff.1 h t ht)]

/-- Every element of `out` comes from a place of its own in `l`. The places are in order, if
`inOrder` holds. -/
def IsDrawn {α : Type} (inOrder : Prop) (l out : List α) : Prop :=
  ∃ place : Fin out.length → Fin l.length, place.Injective ∧
    (∀ i, out.get i = l.get (place i)) ∧ (inOrder → StrictMono place)

section
variable {α : Type} {inOrder : Prop} {l m out : List α}

theorem IsDrawn.trans (h : IsDrawn inOrder l m) (h' : IsDrawn inOrder m out) :
    IsDrawn inOrder l out := by
  obtain ⟨f, hf, hsame, hmono⟩ := h
  obtain ⟨g, hg, hsame', hmono'⟩ := h'
  refine ⟨f ∘ g, hf.comp hg, ?_, fun ho => (hmono ho).comp (hmono' ho)⟩
  intro i
  rw [hsame', hsame]
  rfl

theorem IsDrawn.imp {p : Prop} (hp : p → inOrder) (h : IsDrawn inOrder l out) :
    IsDrawn p l out := by
  obtain ⟨place, hinjective, hsame, hmono⟩ := h
  exact ⟨place, hinjective, hsame, fun h => hmono (hp h)⟩

theorem IsDrawn.of_sublist (h : out.Sublist l) : IsDrawn inOrder l out := by
  obtain ⟨f, hf⟩ := List.sublist_iff_exists_fin_orderEmbedding_get_eq.1 h
  exact ⟨f, f.injective, hf, fun _ => f.strictMono⟩

end

/-- Without terms, rows keep their order. -/
theorem SortTerm.isDrawn_sort (ts : List SortTerm) (rows : List Row) :
    IsDrawn (ts = []) rows (sort ts rows) := by
  obtain ⟨tagged, hperm, horder, hout⟩ := exists_tagged ts rows
  rw [← hout]
  obtain ⟨place, hplace⟩ := isStableSort_of_tagged hperm horder
  refine ⟨place, hplace.bijective.injective, hplace.same, ?_⟩
  rintro rfl i j hij
  exact hplace.stable i j hij nofun

theorem Condition.select_sublist (c : Condition) (rows : List Row) :
    (c.select rows).1.Sublist rows := by
  have h := (sift_sublist c rows.zipIdx).1.map Prod.fst
  rwa [map_fst_sift, List.zipIdx_map_fst] at h

namespace Query
variable {q : Query} {rows kept out : List Row}

theorem restricted_sublist (h : q.restricted rows = .ok kept) : kept.Sublist rows := by
  rw [restricted] at h
  split at h
  · cases h
    exact List.nil_sublist rows
  · cases hclause : q.clause? .condition with
    | none =>
      rw [hclause] at h
      cases h
      exact List.Sublist.refl _
    | some text =>
      simp only [hclause] at h
      rcases hread : Condition.ofText text with e | _ | c
      · simp [hread, Except.map] at h
      · obtain rfl : rows = kept := by simpa [hread, Except.map] using h
        exact List.Sublist.refl _
      · obtain rfl : (c.select rows).1 = kept := by simpa [hread, Except.map] using h
        exact c.select_sublist rows

theorem limited_sublist (q : Query) (rows : List Row) : (q.limited rows).Sublist rows := by
  rw [limited]
  cases q.clause? .limit with
  | none => exact List.Sublist.refl _
  | some text => exact List.take_sublist _ _

theorem skipped_sublist (q : Query) (rows : List Row) : (q.skipped rows).Sublist rows := by
  rw [skipped]
  cases q.clause? .offset with
  | none => exact List.Sublist.refl _
  | some text => exact List.drop_sublist _ _

theorem grouped_of_hasNoTerms (hgroup : HasNoTerms (q.clause? .groupBy)) (rows : List Row) :
    q.grouped rows = rows := by
  rw [grouped, Grouping.keysOf_of_hasNoTerms hgroup]

/-- Without groups the other stages draw rows, and only the order of a clause moves them. -/
theorem isDrawn_arranged (hgroup : HasNoTerms (q.clause? .groupBy)) (rows : List Row) :
    IsDrawn (HasNoTerms (q.clause? .orderBy)) rows (q.arranged rows) := by
  have hpaged : (q.arranged rows).Sublist (q.sorted rows) := by
    rw [arranged, grouped_of_hasNoTerms hgroup]
    exact (limited_sublist q _).trans (skipped_sublist q _)
  have hsorted : IsDrawn (HasNoTerms (q.clause? .orderBy)) rows (q.sorted rows) :=
    (SortTerm.isDrawn_sort _ rows).imp SortTerm.ofClause_of_hasNoTerms
  exact hsorted.trans (.of_sublist hpaged)

/-- `place` says from which row of the input each row of the result comes: it has the fields of
that row that the select clause shows, in their order, and nothing else. -/
structure IsOrigin (q : Query) (rows out : List Row) (place : Fin out.length → Fin rows.length) :
    Prop where
  injective : place.Injective
  fields : ∀ i, (out.get i).fields = (rows.get (place i)).fields.filter fun field =>
    Selection.shows (q.clause? .select) field.1
  inOrder : HasNoTerms (q.clause? .orderBy) → StrictMono place

theorem exists_isOrigin (hgroup : HasNoTerms (q.clause? .groupBy)) (h : q.execute rows = .ok out) :
    ∃ place, IsOrigin q rows out place := by
  rw [execute_eq] at h
  cases hkept : q.restricted rows with
  | error e =>
    rw [hkept] at h
    cases h
  | ok kept =>
    rw [hkept] at h
    obtain rfl : (q.arranged kept).map q.selection.project = out := Except.ok.inj h
    have hdrawn : IsDrawn (HasNoTerms (q.clause? .orderBy)) rows (q.arranged kept) :=
      (IsDrawn.of_sublist (restricted_sublist hkept)).trans (isDrawn_arranged hgroup kept)
    obtain ⟨place, hinjective, hsame, hmono⟩ := hdrawn
    have hlength : ((q.arranged kept).map q.selection.project).length = (q.arranged kept).length :=
      List.length_map _
    refine ⟨fun i => place (i.cast hlength), ?_, ?_, ?_⟩
    · exact hinjective.comp (Fin.cast_injective hlength)
    · intro i
      rw [← hsame, ← Selection.fields_project]
      exact congrArg Row.fields (List.getElem_map _)
    · intro ho i j hij
      exact hmono ho hij

/-- The second row of the result comes from before the first. The sum is no field without
groups. -/
theorem exists_isOrigin_descending :
    let q : Query :=
      { select := some "n, sum(n)"
        condition := some "n > 1"
        groupBy := some " , "
        orderBy := some "n desc"
        limit := some "2" }
    let rows := [Row.ofList [("n", .int 3), ("m", .int 0)], Row.ofList [("n", .int 1)],
      Row.ofList [("m", .null), ("n", .int 4)], Row.ofList [("n", .int 2)]]
    let out := [Row.ofList [("n", .int 4)], Row.ofList [("n", .int 3)]]
    HasNoTerms (q.clause? .groupBy) ∧ q.execute rows = .ok out ∧
      ∃ place, IsOrigin q rows out place := by
  intro q rows out
  have hgroup : HasNoTerms (q.clause? .groupBy) := by
    intro text htext c hc
    obtain rfl : "," = text := Option.some.inj htext
    obtain rfl : c = ',' := by simpa using hc
    exact .inl rfl
  have hkept : q.restricted rows = .ok [rows[0], rows[2], rows[3]] := by decide +kernel
  have hsorted : q.sorted [rows[0], rows[2], rows[3]] = [rows[2], rows[0], rows[3]] := by
    have htagged : [(rows[2], 1), (rows[0], 0), (rows[3], 2)].Perm
        [rows[0], rows[2], rows[3]].zipIdx := by decide
    exact (SortTerm.map_fst_eq_sort htagged (by decide)).symm
  have hout : q.execute rows = .ok out := by
    rw [execute_eq, hkept, Except.map, arranged, grouped, Grouping.keysOf_of_hasNoTerms hgroup]
    dsimp only
    rw [hsorted]
    decide +kernel
  exact ⟨hgroup, hout, exists_isOrigin hgroup hout⟩

end Query
end TableQuery
