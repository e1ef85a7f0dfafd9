import TableQuery.Json.Basic
import TableQuery.Proofs.Json.Numeral
import TableQuery.Proofs.Json.Quoted

/-! A value is read back from its text, as far as its numbers are integers: what is read has the
shape of the value, and nothing is left. -/
namespace TableQuery.Json
open TableQuery.Text

mutual

def tree : Json → Tree
  | null => .null
  | bool b => .bool b
  | number n => ((scanNumeral? n.text).map fun found => .number found.1).getD .null
  | string s => .string (s.toList.map part)
  | array items => .array (itemTrees items)
  | object members => .object (memberTrees members)

def itemTrees : List Json → List Tree
  | [] => []
  | item :: items => item.tree :: itemTrees items

def memberTrees : List (String × Json) → List (List StringPart × Tree)
  | [] => []
  | (key, value) :: members => (key.toList.map part, value.tree) :: memberTrees members

end

inductive IsWhole : Json → Prop
  | null : IsWhole null
  | bool (b : Bool) : IsWhole (bool b)
  | integer (i : Int) : IsWhole (number (.integer i))
  | string (s : String) : IsWhole (string s)
  | array {items : List Json} (h : ∀ item ∈ items, IsWhole item) : IsWhole (array items)
  | object {members : List (String × Json)} (h : ∀ m ∈ members, IsWhole m.2) :
      IsWhole (object members)

namespace Token

theorem all_cons {c : Char} {s rest : List Char} {token : Token} (hspace : isSpace c = false)
    (h : scan c s = (token, rest)) : all (c :: s) = token :: all rest := by
  rw [all, hspace]
  change (scan c s).1 :: all (scan c s).2 = _
  rw [h]

def ofMark? : Char → Option Token
  | '[' => some openArray
  | ']' => some closeArray
  | '{' => some openObject
  | '}' => some closeObject
  | ',' => some comma
  | ':' => some colon
  | _ => none

theorem all_mark {c : Char} {token : Token} (h : ofMark? c = some token) (s : List Char) :
    all (c :: s) = token :: all s := by
  unfold ofMark? at h
  split at h <;> cases h <;> exact all_cons rfl rfl

theorem all_quote (s rest : List Char) :
    all (quote s ++ rest) = .string (s.map part) :: all rest := by
  have htext : quote s ++ rest = '"' :: (s.flatMap escape ++ '"' :: rest) := by simp [quote]
  have hscan : scan '"' (s.flatMap escape ++ '"' :: rest) = (.string (s.map part), rest) := by
    simp only [scan, scanString?_flatMap]
  rw [htext, all_cons rfl hscan]

theorem isSpace_of_isDigit {c : Char} (h : c.isDigit = true) : isSpace c = false := by
  cases hspace : isSpace c with
  | false => rfl
  | true =>
    simp only [isSpace, Bool.or_eq_true, beq_iff_eq] at hspace
    obtain ((rfl | rfl) | rfl) | rfl := hspace <;> cases h

theorem all_of_scanNumeral? {c : Char} {s rest : List Char} {n : Numeral}
    (hc : c = '-' ∨ c.isDigit = true) (h : scanNumeral? (c :: s) = some (n, rest)) :
    all (c :: s) = .number n :: all rest := by
  have hspace : isSpace c = false := by
    cases hc with
    | inl hminus => rw [hminus]; rfl
    | inr hdigit => exact isSpace_of_isDigit hdigit
  refine all_cons hspace ?_
  unfold scan
  split <;> try exact absurd hc (by decide)
  rw [h]

theorem all_integerDigits (i : Int) {rest : List Char} (hrest : EndsNumeral rest) :
    all (integerDigits i ++ rest) = .number (.ofInteger i) :: all rest := by
  have hscan := scanNumeral?_integerDigits i hrest
  obtain ⟨c, s, hs⟩ := List.exists_cons_of_ne_nil (integerDigits_ne_nil i)
  have hc : c = '-' ∨ c.isDigit = true := by
    refine eq_or_isDigit_of_mem_integerDigits (i := i) ?_
    rw [hs]
    exact List.mem_cons_self
  rw [hs, List.cons_append] at hscan ⊢
  exact all_of_scanNumeral? hc hscan

end Token

def Frame.TakesValue : List Frame → Prop
  | .object _ :: _ => False
  | _ => True

namespace Reading

def after (frames : List Frame) (tokens : List Token) : Step → Reading
  | .goOn expected frames => run expected frames tokens
  | .finished tree => ⟨tree, tokens.isEmpty⟩
  | .fault => ofFrames frames

theorem run_cons (e : Expected) (frames : List Frame) (token : Token) (tokens : List Token) :
    run e frames (token :: tokens) = after frames tokens (step e frames token) := by
  rw [run]
  cases step e frames token <;> rfl

/-- The frames before a value do not count, if those that it goes into can take it. -/
theorem after_ofValue {frames : List Frame} (h : Frame.TakesValue frames) (before : List Frame)
    (tokens : List Token) (t : Tree) :
    after before tokens (.ofValue t frames) = after frames tokens (.ofValue t frames) := by
  cases frames with
  | nil => rfl
  | cons frame frames =>
    cases frame with
    | array items => rfl
    | object members => cases h
    | member members key => rfl

def ReadsBack (j : Json) : Prop :=
  ∀ (e : Expected) (frames : List Frame) (rest : List Char), e.isValue = true →
    Frame.TakesValue frames → EndsNumeral rest →
      run e frames (Token.all (j.text ++ rest)) =
        after frames (Token.all rest) (.ofValue j.tree frames)

theorem readsBack_of_token {j : Json} {token : Token}
    (hall : ∀ {rest}, EndsNumeral rest → Token.all (j.text ++ rest) = token :: Token.all rest)
    (hstep : ∀ {e frames}, e.isValue = true → step e frames token = .ofValue j.tree frames) :
    ReadsBack j := by
  intro e frames rest he hframes hrest
  rw [hall hrest, run_cons, hstep he]

/-- The items that are left go into the array one after another, until it closes. -/
theorem run_items {items : List Json} (h : ∀ item ∈ items, ReadsBack item) {item : Json}
    (hitem : ReadsBack item) {e : Expected} (he : e.isValue = true) {frames : List Frame}
    (hframes : Frame.TakesValue frames) (acc : List Tree) (rest : List Char) :
    run e (.array acc :: frames) (Token.all (itemsText (item :: items) ++ ']' :: rest)) =
      after frames (Token.all rest) (.ofValue (.array (acc.reverse ++ itemTrees (item :: items)))
        frames) := by
  induction items generalizing item e acc with
  | nil =>
    have hclose : EndsNumeral (']' :: rest) := endsNumeral_cons (by decide) rest
    have htrees : acc.reverse ++ itemTrees [item] = (item.tree :: acc).reverse := by
      rw [itemTrees, itemTrees, List.reverse_cons]
    rw [itemsText, hitem e (.array acc :: frames) _ he trivial hclose, htrees]
    change run .next (.array (item.tree :: acc) :: frames) _ = _
    rw [Token.all_mark (c := ']') rfl, run_cons]
    exact after_ofValue hframes _ _ _
  | cons next items ih =>
    obtain ⟨hnext, hitems⟩ := List.forall_mem_cons.1 h
    have htext : itemsText (item :: next :: items) ++ ']' :: rest =
        item.text ++ ',' :: (itemsText (next :: items) ++ ']' :: rest) := by
      simp [itemsText]
    have hcomma : EndsNumeral (',' :: (itemsText (next :: items) ++ ']' :: rest)) :=
      endsNumeral_cons (by decide) _
    have htrees : acc.reverse ++ itemTrees (item :: next :: items) =
        (item.tree :: acc).reverse ++ itemTrees (next :: items) := by
      rw [itemTrees, List.reverse_cons, List.append_assoc, List.singleton_append]
    rw [htext, hitem e (.array acc :: frames) _ he trivial hcomma, htrees]
    change run .next (.array (item.tree :: acc) :: frames) _ = _
    rw [Token.all_mark (c := ',') rfl, run_cons]
    exact ih hitems hnext rfl (item.tree :: acc)

theorem run_member {key : String} {value : Json} (h : ReadsBack value) {e : Expected}
    (he : e.isKey = true) (frames : List Frame) (acc : List (List StringPart × Tree))
    {rest : List Char} (hrest : EndsNumeral rest) :
    run e (.object acc :: frames) (Token.all (quote key.toList ++ ':' :: (value.text ++ rest))) =
      run .next (.object ((key.toList.map part, value.tree) :: acc) :: frames) (Token.all rest) := by
  have hkey : step e (.object acc :: frames) (.string (key.toList.map part)) =
      .goOn .colon (.member acc (key.toList.map part) :: frames) := by
    cases e <;> first | rfl | cases he
  rw [Token.all_quote, run_cons, hkey, after, Token.all_mark (c := ':') rfl, run_cons]
  exact h .value (.member acc (key.toList.map part) :: frames) rest rfl trivial hrest

/-- So do the members of an object. -/
theorem run_members {members : List (String × Json)} (h : ∀ m ∈ members, ReadsBack m.2)
    {key : String} {value : Json} (hvalue : ReadsBack value) {e : Expected} (he : e.isKey = true)
    {frames : List Frame} (hframes : Frame.TakesValue frames)
    (acc : List (List StringPart × Tree)) (rest : List Char) :
    run e (.object acc :: frames)
        (Token.all (membersText ((key, value) :: members) ++ '}' :: rest)) =
      after frames (Token.all rest)
        (.ofValue (.object (acc.reverse ++ memberTrees ((key, value) :: members))) frames) := by
  induction members generalizing key value e acc with
  | nil =>
    have hclose : EndsNumeral ('}' :: rest) := endsNumeral_cons (by decide) rest
    have htext : membersText [(key, value)] ++ '}' :: rest =
        quote key.toList ++ ':' :: (value.text ++ '}' :: rest) := by
      simp [membersText]
    have htrees : acc.reverse ++ memberTrees [(key, value)] =
        ((key.toList.map part, value.tree) :: acc).reverse := by
      rw [memberTrees, memberTrees, List.reverse_cons]
    rw [htext, run_member hvalue he frames acc hclose, htrees, Token.all_mark (c := '}') rfl,
      run_cons]
    exact after_ofValue hframes _ _ _
  | cons next members ih =>
    obtain ⟨hnext, hmembers⟩ := List.forall_mem_cons.1 h
    have htext : membersText ((key, value) :: next :: members) ++ '}' :: rest =
        quote key.toList ++
          ':' :: (value.text ++ ',' :: (membersText (next :: members) ++ '}' :: rest)) := by
      simp [membersText]
    have hcomma : EndsNumeral (',' :: (membersText (next :: members) ++ '}' :: rest)) :=
      endsNumeral_cons (by decide) _
    have htrees : acc.reverse ++ memberTrees ((key, value) :: next :: members) =
        ((key.toList.map part, value.tree) :: acc).reverse ++ memberTrees (next :: members) := by
      rw [memberTrees, List.reverse_cons, List.append_assoc, List.singleton_append]
    rw [htext, run_member hvalue he frames acc hcomma, htrees, Token.all_mark (c := ',') rfl,
      run_cons]
    exact ih hmembers hnext rfl ((key.toList.map part, value.tree) :: acc)

theorem readsBack {j : Json} (h : j.IsWhole) : ReadsBack j := by
  -- The frames below an array or an object stay as they are until it closes.
  induction h with
  | null => exact readsBack_of_token (fun _ => Token.all_cons rfl rfl) fun he => if_pos he
  | bool b =>
    cases b with
    | false => exact readsBack_of_token (fun _ => Token.all_cons rfl rfl) fun he => if_pos he
    | true => exact readsBack_of_token (fun _ => Token.all_cons rfl rfl) fun he => if_pos he
  | integer i =>
    refine readsBack_of_token (Token.all_integerDigits i) fun he => ?_
    have hscan := scanNumeral?_integerDigits i endsNumeral_nil
    rw [List.append_nil] at hscan
    rw [Json.tree, Number.text, hscan]
    exact if_pos he
  | string s => exact readsBack_of_token (fun _ => Token.all_quote _ _) fun he => if_pos he
  | @array items h ih =>
    intro e frames rest he hframes hrest
    have htext : (Json.array items).text ++ rest = '[' :: (itemsText items ++ ']' :: rest) := by
      simp [Json.text]
    have hopen : step e frames .openArray = .goOn .item (.array [] :: frames) := if_pos he
    rw [htext, Token.all_mark (c := '[') rfl, run_cons, hopen, after, Json.tree]
    cases items with
    | nil =>
      rw [itemsText, List.nil_append, Token.all_mark (c := ']') rfl, run_cons]
      exact after_ofValue hframes _ _ _
    | cons item items =>
      obtain ⟨hitem, hitems⟩ := List.forall_mem_cons.1 ih
      exact run_items hitems hitem rfl hframes [] rest
  | @object members h ih =>
    intro e frames rest he hframes hrest
    have htext : (Json.object members).text ++ rest =
        '{' :: (membersText members ++ '}' :: rest) := by
      simp [Json.text]
    have hopen : step e frames .openObject = .goOn .firstKey (.object [] :: frames) := if_pos he
    rw [htext, Token.all_mark (c := '{') rfl, run_cons, hopen, after, Json.tree]
    cases members with
    | nil =>
      rw [membersText, List.nil_append, Token.all_mark (c := '}') rfl, run_cons]
      exact after_ofValue hframes _ _ _
    | cons member members =>
      obtain ⟨hmember, hmembers⟩ := List.forall_mem_cons.1 ih
      exact run_members hmembers hmember rfl hframes [] rest

/-- A value with integers only is all that is read of its text. -/
theorem ofText_text {j : Json} (h : j.IsWhole) : ofText j.text = ⟨j.tree, true⟩ := by
  have hread := readsBack h .value [] [] rfl trivial endsNumeral_nil
  rw [List.append_nil, Token.all] at hread
  exact hread

end Reading

end TableQuery.Json
