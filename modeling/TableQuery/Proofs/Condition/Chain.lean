import TableQuery.Condition.Reading

/-! Operands with connectives between them, joined from the right. -/
namespace TableQuery

def FirstFault {α : Type} (f : α → Except QueryError Condition) (e : QueryError) (l : List α) :
    Prop :=
  ∃ before a after, l = before ++ a :: after ∧ (∀ b ∈ before, ∃ c, f b = .ok c) ∧ f a = .error e

section
variable {α : Type} {f : α → Except QueryError Condition} {e : QueryError}

theorem not_firstFault_nil : ¬ FirstFault f e [] := by
  intro hex
  obtain ⟨before, a, after, h, -⟩ := hex
  cases before <;> cases h

theorem firstFault_cons {a : α} {l : List α} :
    FirstFault f e (a :: l) ↔ f a = .error e ∨ (∃ c, f a = .ok c) ∧ FirstFault f e l := by
  constructor
  · intro h
    obtain ⟨before, b, after, he, hbefore, hb⟩ := h
    cases before with
    | nil =>
      obtain ⟨rfl, -⟩ := List.cons_eq_cons.1 he
      exact .inl hb
    | cons d before =>
      obtain ⟨rfl, rfl⟩ := List.cons_eq_cons.1 he
      obtain ⟨ha, hrest⟩ := List.forall_mem_cons.1 hbefore
      exact .inr ⟨ha, before, b, after, rfl, hrest, hb⟩
  · intro h
    cases h with
    | inl ha => exact ⟨[], a, l, rfl, nofun, ha⟩
    | inr h =>
      obtain ⟨ha, before, b, after, rfl, hbefore, hb⟩ := h
      exact ⟨a :: before, b, after, rfl, List.forall_mem_cons.2 ⟨ha, hbefore⟩, hb⟩

theorem firstFault_append {l l' : List α} :
    FirstFault f e (l ++ l') ↔
      FirstFault f e l ∨ (∀ a ∈ l, ∃ c, f a = .ok c) ∧ FirstFault f e l' := by
  induction l with
  | nil => simp [not_firstFault_nil]
  | cons a l ih =>
    rw [List.cons_append, firstFault_cons, ih, firstFault_cons, List.forall_mem_cons,
      and_or_left, or_assoc, and_assoc]

end

namespace Condition

def joinM (k : Connective) (left right : Except QueryError Condition) :
    Except QueryError Condition := do
  return join k (← left) (← right)

theorem joinM_eq_ok_iff {k : Connective} {left right : Except QueryError Condition}
    {c : Condition} :
    joinM k left right = .ok c ↔
      ∃ l r, left = .ok l ∧ right = .ok r ∧ c = join k l r := by
  cases left <;> cases right <;> simp [joinM, bind, Except.bind, pure, Except.pure, eq_comm]

theorem joinM_eq_error_iff {k : Connective} {left right : Except QueryError Condition}
    {e : QueryError} :
    joinM k left right = .error e ↔ left = .error e ∨ (∃ l, left = .ok l) ∧ right = .error e := by
  cases left <;> cases right <;> simp [joinM, bind, Except.bind, pure, Except.pure]

theorem exists_joinM_eq_ok_iff {k : Connective} {left right : Except QueryError Condition} :
    (∃ c, joinM k left right = .ok c) ↔ (∃ l, left = .ok l) ∧ ∃ r, right = .ok r := by
  cases left <;> cases right <;> simp [joinM, bind, Except.bind, pure, Except.pure]

end Condition

inductive Chain (α : Type) where
  | last (a : α)
  | link (a : α) (k : Connective) (rest : Chain α)

namespace Chain
variable {α β : Type} {R : α → β → Prop} {f : α → Except QueryError Condition} {e : QueryError}

def items : Chain α → List α
  | last a => [a]
  | link a _ rest => a :: rest.items

def connectives : Chain α → List Connective
  | last _ => []
  | link _ k rest => k :: rest.connectives

def map (g : α → β) : Chain α → Chain β
  | last a => last (g a)
  | link a k rest => link (g a) k (rest.map g)

def nest : Chain Condition → Condition
  | last c => c
  | link c k rest => .join k c rest.nest

def nestM (f : α → Except QueryError Condition) : Chain α → Except QueryError Condition
  | last a => f a
  | link a k rest => Condition.joinM k (f a) (rest.nestM f)

inductive Related (R : α → β → Prop) : Chain α → Chain β → Prop where
  | last {a : α} {b : β} (h : R a b) : Related R (last a) (last b)
  | link {a : α} {b : β} {p : Chain α} {q : Chain β} (k : Connective) (h : R a b)
      (rest : Related R p q) : Related R (link a k p) (link b k q)

theorem exists_related (h : ∀ a, ∃ b, R a b) (p : Chain α) : ∃ q, Related R p q := by
  induction p with
  | last a =>
    obtain ⟨b, hb⟩ := h a
    exact ⟨last b, .last hb⟩
  | link a k rest ih =>
    obtain ⟨b, hb⟩ := h a
    obtain ⟨q, hq⟩ := ih
    exact ⟨link b k q, .link k hb hq⟩

theorem map_id (p : Chain α) : p.map id = p := by
  induction p with
  | last a => rfl
  | link a k rest ih => rw [map, ih, id]

@[simp]
theorem items_map (g : α → β) (p : Chain α) : (p.map g).items = p.items.map g := by
  induction p with
  | last a => rfl
  | link a k rest ih => rw [map, items, ih, items, List.map_cons]

@[simp]
theorem connectives_map (g : α → β) (p : Chain α) : (p.map g).connectives = p.connectives := by
  induction p with
  | last a => rfl
  | link a k rest ih => rw [map, connectives, ih, connectives]

theorem Related.connectives_eq {p : Chain α} {q : Chain β} (h : Related R p q) :
    p.connectives = q.connectives := by
  induction h with
  | last _ => rfl
  | link k _ _ ih => rw [connectives, connectives, ih]

theorem Related.exists_of_mem {p : Chain α} {q : Chain β} (h : Related R p q) {b : β}
    (hb : b ∈ q.items) : ∃ a ∈ p.items, R a b := by
  induction h with
  | last hR =>
    cases List.mem_singleton.1 hb
    exact ⟨_, List.mem_cons_self, hR⟩
  | link k hR _ ih =>
    cases List.mem_cons.1 hb with
    | inl he =>
      subst he
      exact ⟨_, List.mem_cons_self, hR⟩
    | inr hrest =>
      obtain ⟨a, ha, hab⟩ := ih hrest
      exact ⟨a, List.mem_cons_of_mem _ ha, hab⟩

/-- Every operand has to be read, each on its own. -/
theorem nestM_eq_ok_iff {g : β → Condition} (h : ∀ a c, f a = .ok c ↔ ∃ b, R a b ∧ c = g b)
    {p : Chain α} {c : Condition} :
    p.nestM f = .ok c ↔ ∃ q, Related R p q ∧ c = (q.map g).nest := by
  induction p generalizing c with
  | last a =>
    rw [nestM, h]
    constructor
    · intro hex
      obtain ⟨b, hb, rfl⟩ := hex
      exact ⟨last b, .last hb, rfl⟩
    · intro hex
      obtain ⟨q, hq, rfl⟩ := hex
      cases hq with
      | last hb => exact ⟨_, hb, rfl⟩
  | link a k rest ih =>
    rw [nestM, Condition.joinM_eq_ok_iff]
    constructor
    · intro hex
      obtain ⟨_, _, ha, hrest, rfl⟩ := hex
      obtain ⟨b, hb, rfl⟩ := (h _ _).1 ha
      obtain ⟨q, hq, rfl⟩ := ih.1 hrest
      exact ⟨link b k q, .link k hb hq, rfl⟩
    · intro hex
      obtain ⟨q, hq, rfl⟩ := hex
      cases hq with
      | link _ hb hrest =>
        exact ⟨_, _, (h _ _).2 ⟨_, hb, rfl⟩, ih.2 ⟨_, hrest, rfl⟩, rfl⟩

theorem exists_nestM_eq_ok_iff {p : Chain α} :
    (∃ c, p.nestM f = .ok c) ↔ ∀ a ∈ p.items, ∃ c, f a = .ok c := by
  induction p with
  | last a => simp [nestM, items]
  | link a k rest ih =>
    rw [items, List.forall_mem_cons, ← ih, nestM, Condition.exists_joinM_eq_ok_iff]

theorem exists_nestM_eq_error_iff {p : Chain α} :
    (∃ e, p.nestM f = .error e) ↔ ∃ a ∈ p.items, ∃ e, f a = .error e := by
  have herror : ∀ r : Except QueryError Condition, (∃ e, r = .error e) ↔ ¬ ∃ c, r = .ok c := by
    intro r
    cases r <;> simp
  simp only [herror, exists_nestM_eq_ok_iff, Classical.not_forall, exists_prop]

theorem nestM_eq_error_iff {p : Chain α} : p.nestM f = .error e ↔ FirstFault f e p.items := by
  induction p with
  | last a => simp [nestM, items, firstFault_cons, not_firstFault_nil]
  | link a k rest ih => rw [nestM, Condition.joinM_eq_error_iff, ih, items, firstFault_cons]

/-- The first fault of chains is the first among all their operands. -/
theorem firstFault_nestM {l : List (Chain α)} :
    FirstFault (nestM f) e l ↔ FirstFault f e (l.flatMap items) := by
  induction l with
  | nil => simp [not_firstFault_nil]
  | cons p l ih =>
    rw [firstFault_cons, nestM_eq_error_iff, exists_nestM_eq_ok_iff, ih, List.flatMap_cons,
      firstFault_append]

end Chain
end TableQuery
