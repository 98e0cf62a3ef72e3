import Subsumption.Json.Reading
import Subsumption.Proofs.Itemwise
import Subsumption.Proofs.Json.Spelling
/-!
JSON text is read back: it is cut into the tokens of the value, and these lead the
reading machine from where a value must begin to where it is complete, whatever is
open around it.
-/

namespace Subsumption.Json

/-- The text of the value leaves nothing out: every string and key denotes a
text, and every number is spelled as one. -/
inductive WellSpelled : Json → Prop
  | null : WellSpelled .null
  | bool (value : Bool) : WellSpelled (.bool value)
  | number {spelling : String} : isNumber spelling.toList = true → WellSpelled (.number spelling)
  | string (s : String) : WellSpelled (.ofString s)
  | array {items : List Json} : (∀ j ∈ items, WellSpelled j) → WellSpelled (.array items)
  | object {members : List (String × Json)} :
      (∀ m ∈ members, WellSpelled m.2) → WellSpelled (.ofMembers members)

/-- The tokens of several parts, with commas between them and a mark after the
last. -/
def listed (parts : List (List Token)) (mark : Token) : List Token :=
  [.comma].intercalate parts ++ [mark]

@[simp] theorem listed_singleton (part : List Token) (mark : Token) :
    listed [part] mark = part ++ [mark] := by
  simp [listed]

@[simp] theorem listed_cons_cons (part next : List Token) (parts : List (List Token))
    (mark : Token) :
    listed (part :: next :: parts) mark = part ++ .comma :: listed (next :: parts) mark := by
  simp [listed, List.intercalate_cons_cons]

/-- The tokens of the value, in order. -/
def tokens : Json → List Token
  | null => [.null]
  | bool value => [.bool value]
  | number spelling => [.number spelling]
  | string text => [.string text]
  | array items => .openArray :: listed (items.map tokens) .closeArray
  | object members =>
    .openObject :: listed (members.map fun m => .string m.1 :: .colon :: m.2.tokens) .closeObject
decreasing_by
  · have hlt := List.sizeOf_lt_of_mem ‹_›
    simp only [array.sizeOf_spec]
    omega
  · have hlt := List.sizeOf_lt_of_mem ‹m ∈ members›
    have hsnd : sizeOf m.2 < sizeOf m := by
      cases m
      simp only [Prod.mk.sizeOf_spec]
      omega
    simp only [object.sizeOf_spec]
    omega

/-- What holds of a value when it holds of its parts holds of every value. -/
theorem induction {motive : Json → Prop} (null : motive .null)
    (bool : ∀ value, motive (.bool value)) (number : ∀ spelling, motive (.number spelling))
    (string : ∀ text, motive (.string text))
    (array : ∀ items : List Json, (∀ j ∈ items, motive j) → motive (.array items))
    (object : ∀ members : List (Text × Json),
      (∀ m ∈ members, motive m.2) → motive (.object members))
    (j : Json) : motive j :=
  tokens.induct motive null bool number string array object j

theorem spells_array {items : List Json}
    (h : ∀ j ∈ items, Spells j.compact.toList j.tokens) :
    Spells (array items).compact.toList (array items).tokens := by
  have hitems := (Spells.intercalate h).append_mark (c := ']') rfl spells_nil
  have hbrackets := hitems.mark_cons (c := '[') rfl
  have htext : (array items).compact.toList =
      '[' :: ([','].intercalate (items.map fun j => j.compact.toList) ++ [']']) := by
    simp [compact, String.toList_intercalate, Function.comp_def]
  rw [htext, tokens]
  exact hbrackets

theorem spells_object {members : List (String × Json)}
    (h : ∀ m ∈ members, Spells m.2.compact.toList m.2.tokens) :
    Spells (ofMembers members).compact.toList (ofMembers members).tokens := by
  have hmember : ∀ m ∈ members, Spells ((quoted m.1).toList ++ ':' :: m.2.compact.toList)
      (.string (some m.1) :: .colon :: m.2.tokens) :=
    fun m hm => (spells_quoted m.1).append_mark rfl (h m hm)
  have hmembers := (Spells.intercalate hmember).append_mark (c := '\x7d') rfl spells_nil
  have hbraces := hmembers.mark_cons (c := '\x7b') rfl
  have htext : (ofMembers members).compact.toList =
      '\x7b' :: ([','].intercalate
        (members.map fun m => (quoted m.1).toList ++ ':' :: m.2.compact.toList) ++ ['\x7d']) := by
    simp [ofMembers, compact, Text.compact, String.toList_intercalate, Function.comp_def]
  have htokens : (ofMembers members).tokens =
      .openObject :: listed
        (members.map fun m => .string (some m.1) :: .colon :: m.2.tokens) .closeObject := by
    simp [ofMembers, tokens, Function.comp_def]
  rw [htext, htokens]
  exact hbraces

/-- The text of a value spells its tokens. -/
theorem WellSpelled.spells {j : Json} (h : j.WellSpelled) :
    Spells j.compact.toList j.tokens := by
  induction h with
  | null =>
    rw [compact, tokens]
    exact spells_word rfl (by decide)
  | bool value =>
    rw [tokens]
    cases value <;> rw [compact] <;> exact spells_word rfl (by decide)
  | number hspelling =>
    rw [compact, tokens]
    exact spells_number hspelling
  | string s =>
    rw [ofString, compact, tokens]
    exact spells_quoted s
  | array _ ih => exact spells_array ih
  | object _ ih => exact spells_object ih

open Reading

/-- The tokens of a value complete it where it must begin, whatever is open
around it. -/
def Completes (j : Json) : Prop :=
  ∀ outer, j.tokens.foldlM step (value outer) = some (complete j outer)

/-- Items are read one after another, up to the bracket that closes them. -/
theorem foldlM_step_items {item : Json} {items : List Json} (hitem : item.Completes)
    (hitems : ∀ j ∈ items, j.Completes) (before : List Json) (outer : List Frame) :
    (listed ((item :: items).map tokens) .closeArray).foldlM step (value (.item before :: outer)) =
      some (complete (.array (before.reverse ++ item :: items)) outer) := by
  induction items generalizing item before with
  | nil => simp [hitem _, step]
  | cons next items ih =>
    obtain ⟨hnext, hitems⟩ := List.forall_mem_cons.1 hitems
    have hrest := ih hnext hitems (item :: before)
    simp only [List.map_cons, listed_cons_cons, List.foldlM_append, hitem _] at hrest ⊢
    simpa [step] using hrest

/-- Members are read one after another, up to the brace that closes them. -/
theorem foldlM_step_members {m : Text × Json} {members : List (Text × Json)}
    (hm : m.2.Completes) (hmembers : ∀ m ∈ members, m.2.Completes)
    (before : List (Text × Json)) (outer : List Frame) :
    (listed ((m :: members).map fun m => .string m.1 :: .colon :: m.2.tokens) .closeObject).foldlM
        step (key before outer) =
      some (complete (.object (before.reverse ++ m :: members)) outer) := by
  induction members generalizing m before with
  | nil => simp [step, hm _]
  | cons next members ih =>
    obtain ⟨hnext, hmembers⟩ := List.forall_mem_cons.1 hmembers
    have hrest := ih hnext hmembers (m :: before)
    simp only [List.map_cons, listed_cons_cons, List.foldlM_append, List.cons_append,
      List.foldlM_cons, step] at hrest ⊢
    simpa [step, hm _] using hrest

/-- A value does not begin with a closing bracket, so the first item of an
array is read as any other. -/
theorem foldlM_step_firstItem (item : Json) (items : List Json) (outer : List Frame) :
    (listed ((item :: items).map tokens) .closeArray).foldlM step (firstItem outer) =
      (listed ((item :: items).map tokens) .closeArray).foldlM step
        (value (.item [] :: outer)) := by
  have hitem : ∀ ts : List Token, (item.tokens ++ ts).foldlM step (firstItem outer) =
      (item.tokens ++ ts).foldlM step (value (.item [] :: outer)) := by
    intro ts
    cases item <;> simp [tokens, step]
  cases items with
  | nil =>
    rw [List.map_singleton, listed_singleton]
    exact hitem _
  | cons next items =>
    rw [List.map_cons, List.map_cons, listed_cons_cons]
    exact hitem _

theorem foldlM_step_firstKey (m : Text × Json) (members : List (Text × Json))
    (outer : List Frame) :
    (listed ((m :: members).map fun m => .string m.1 :: .colon :: m.2.tokens) .closeObject).foldlM
        step (firstKey outer) =
      (listed ((m :: members).map fun m => .string m.1 :: .colon :: m.2.tokens) .closeObject).foldlM
        step (key [] outer) := by
  cases members <;> rfl

theorem completes (j : Json) : j.Completes := by
  induction j using induction with
  | null => intro outer; simp [tokens, step, begin]
  | bool value => intro outer; simp [tokens, step, begin]
  | number spelling => intro outer; simp [tokens, step, begin]
  | string text => intro outer; simp [tokens, step, begin]
  | array items ih =>
    intro outer
    rw [tokens, List.foldlM_cons]
    change List.foldlM step (firstItem outer) _ = _
    cases items with
    | nil => rfl
    | cons item items =>
      obtain ⟨hitem, hitems⟩ := List.forall_mem_cons.1 ih
      rw [foldlM_step_firstItem]
      exact foldlM_step_items hitem hitems [] outer
  | object members ih =>
    intro outer
    rw [tokens, List.foldlM_cons]
    change List.foldlM step (firstKey outer) _ = _
    cases members with
    | nil => rfl
    | cons m members =>
      obtain ⟨hm, hmembers⟩ := List.forall_mem_cons.1 ih
      rw [foldlM_step_firstKey]
      exact foldlM_step_members hm hmembers [] outer

/-- A value is read back from its text. -/
theorem WellSpelled.read?_compact {j : Json} (h : j.WellSpelled) : read? j.compact = some j := by
  rw [read?, h.spells.tokens?_eq]
  simp [ofTokens?, completes j _, result?]

theorem texts?_ofStrings (texts : List String) : (ofStrings texts).texts? = some texts := by
  change (texts.map ofString).mapM text? = some texts
  exact mapM_map_eq_some fun _ _ => rfl

theorem wellSpelled_ofStrings (texts : List String) : (ofStrings texts).WellSpelled := by
  apply WellSpelled.array
  intro j hj
  obtain ⟨s, -, rfl⟩ := List.mem_map.1 hj
  exact .string s

end Subsumption.Json
