import Subsumption.Proofs.Formula.Rewriting
/-!
Joint products as enumerations of choices of one item from each list, in
lexicographic order of their places.  Terms are joined, and branches that agree are
merged; stopping at an empty list leaves nothing out.
-/

namespace Subsumption

variable {α : Type}

/-- The ways to choose an item from each list, the item of the last list changing
first. -/
def choices : List (List α) → List (List α)
  | [] => [[]]
  | items :: lists => items.flatMap fun x => (choices lists).map (x :: ·)

example : choices [[1, 2], [3, 4]] = [[1, 3], [1, 4], [2, 3], [2, 4]] := by decide

/-- The places of the items that are chosen, for each of the choices. -/
def places (lists : List (List α)) : List (List Nat) :=
  choices (lists.map fun items => List.range items.length)

/-- The items at the places, as far as there are such items. -/
def itemsAt : List (List α) → List Nat → List α
  | items :: lists, place :: rest => items[place]?.toList ++ itemsAt lists rest
  | _, _ => []

theorem places_cons (items : List α) (lists : List (List α)) :
    places (items :: lists) =
      (List.range items.length).flatMap fun place => (places lists).map (place :: ·) := rfl

/-- At the first list where two choices differ, the earlier has the smaller place. -/
theorem pairwise_places (lists : List (List α)) :
    (places lists).Pairwise (List.Lex (· < ·)) := by
  induction lists with
  | nil => exact List.pairwise_singleton _ _
  | cons items lists ih =>
    rw [places_cons, List.pairwise_flatMap]
    constructor
    · intro place _
      exact List.pairwise_map.2 (ih.imp List.Lex.cons)
    · apply List.pairwise_lt_range.imp
      intro place place' hlt chosen hchosen chosen' hchosen'
      obtain ⟨rest, -, rfl⟩ := List.mem_map.1 hchosen
      obtain ⟨rest', -, rfl⟩ := List.mem_map.1 hchosen'
      exact List.Lex.rel hlt

/-- A choice takes a place from each list, and every way to do so is a choice. -/
theorem mem_places {lists : List (List α)} {chosen : List Nat} : chosen ∈ places lists ↔
    List.Forall₂ (fun place items => place < items.length) chosen lists := by
  induction lists generalizing chosen with
  | nil => simp [places, choices]
  | cons items lists ih =>
    rw [places_cons, List.forall₂_cons_right_iff]
    simp only [List.mem_flatMap, List.mem_range, List.mem_map, ih]
    constructor
    · rintro ⟨place, hplace, rest, hrest, rfl⟩
      exact ⟨place, rest, hplace, hrest, rfl⟩
    · rintro ⟨place, rest, hplace, hrest, rfl⟩
      exact ⟨place, hplace, rest, hrest, rfl⟩

/-- Going through a list is going through its places. -/
theorem flatMap_eq_flatMap_range {β : Type} (f : α → List β) (items : List α) :
    items.flatMap f =
      (List.range items.length).flatMap fun place => items[place]?.toList.flatMap f := by
  calc items.flatMap f
      = (items.zipIdx.map Prod.fst).flatMap f := by rw [List.zipIdx_map_fst]
    _ = items.zipIdx.flatMap fun entry => f entry.1 := List.flatMap_map ..
    _ = items.zipIdx.flatMap fun entry => items[entry.2]?.toList.flatMap f := by
        apply List.flatMap_congr
        intro entry hentry
        rw [List.mem_zipIdx_iff_getElem?.1 hentry]
        simp
    _ = (items.zipIdx.map Prod.snd).flatMap fun place => items[place]?.toList.flatMap f := by
        rw [List.flatMap_map]
    _ = (List.range items.length).flatMap fun place => items[place]?.toList.flatMap f := by
        rw [List.zipIdx_map_snd, List.range_eq_range']

/-- The choices are the items at the places, in the order of the places. -/
theorem choices_eq_map_places (lists : List (List α)) :
    choices lists = (places lists).map (itemsAt lists) := by
  induction lists with
  | nil => rfl
  | cons items lists ih =>
    rw [places_cons, List.map_flatMap, choices, ih, flatMap_eq_flatMap_range]
    apply List.flatMap_congr
    intro place hplace
    have hlt : place < items.length := List.mem_range.1 hplace
    simp [itemsAt, List.getElem?_eq_getElem hlt, Function.comp_def]

/-- Products of items with a combination that may fail are the combinations of
the choices that never fail, from the last item to the first. -/
theorem foldr_product_eq_filterMap_choices {combine : α → α → Option α}
    {product : List α → List α → List α} {unit : α}
    (hproduct : ∀ left right, product left right =
      left.flatMap fun x => right.filterMap (combine x)) (lists : List (List α)) :
    lists.foldr product [unit] = (choices lists).filterMap fun chosen =>
      chosen.foldr (fun x found => found.bind (combine x)) (some unit) := by
  induction lists with
  | nil => rfl
  | cons items lists ih =>
    rw [List.foldr_cons, ih, hproduct, choices, List.filterMap_flatMap]
    simp only [List.filterMap_map, List.filterMap_filterMap, Function.comp_def, List.foldr_cons]

namespace Dnf

/-- The terms of a conjunction are the choices of a term from each operand, each
joined to one term. -/
theorem conjoin_eq_map_choices {α : Type} (dnfs : List (Thunk (List (List α)))) :
    conjoin dnfs = (choices (dnfs.map Thunk.get)).map List.flatten := by
  have hproduct (left right : List (List α)) : product left right =
      left.flatMap fun s => right.filterMap fun t => some (s ++ t) := by
    simp only [product, List.filterMap_eq_map']
  have hjoined (chosen : List (List α)) :
      chosen.foldr (fun s found => found.bind fun t => some (s ++ t)) (some []) =
        some chosen.flatten := by
    induction chosen with
    | nil => rfl
    | cons s chosen ih => rw [List.foldr_cons, ih, List.flatten_cons, Option.bind_some]
  rw [conjoin_eq_foldr, foldr_product_eq_filterMap_choices hproduct]
  simp only [hjoined, List.filterMap_eq_map']

end Dnf

namespace Branch

/-- No atom has one sign on the one branch and the opposite sign on the other. -/
def Agrees (a b : Branch) : Prop := ¬ ∃ p s, a.value p = some s ∧ b.value p = some !s

instance (a b : Branch) : Decidable (a.Agrees b) :=
  decidable_of_iff (a.merge? b ≠ none) (not_congr merge?_eq_none_iff)

/-- No two of the branches disagree on an atom. -/
def AllAgree (chosen : List Branch) : Prop := ∀ a ∈ chosen, ∀ b ∈ chosen, a.Agrees b

instance (chosen : List Branch) : Decidable (AllAgree chosen) :=
  inferInstanceAs (Decidable (∀ a ∈ chosen, ∀ b ∈ chosen, a.Agrees b))

/-- The sign that some of the branches give to an atom, the first of them where
there are several. -/
def jointValue (chosen : List Branch) : Valuation := fun p => chosen.findSome? fun b => b.value p

/-- The merge of all the branches, one at a time from the last. -/
def mergeAll? (chosen : List Branch) : Option Branch :=
  chosen.foldr (fun b found => found.bind b.merge?) (some ∅)

variable {chosen : List Branch} {v : Valuation}

/-- The merge of all is open within a valuation exactly when each branch is within
it, so the order of merging does not matter. -/
theorem exists_mergeAll?_within :
    (∃ c, mergeAll? chosen = some c ∧ c.Within v) ↔ ∀ b ∈ chosen, b.Within v := by
  induction chosen with
  | nil => simp [mergeAll?, within_empty]
  | cons b chosen ih =>
    rw [List.forall_mem_cons, ← ih]
    change (∃ c, (mergeAll? chosen).bind b.merge? = some c ∧ c.Within v) ↔ _
    cases mergeAll? chosen with
    | none => simp
    | some d => simpa using exists_merge?_within (a := b) (b := d) (v := v)

/-- Branches that agree are all within the signs that they give. -/
theorem AllAgree.within_jointValue (h : AllAgree chosen) :
    ∀ b ∈ chosen, b.Within (jointValue chosen) := by
  intro b hb
  rw [within_iff]
  intro p s hp
  have hsome : (jointValue chosen p).isSome :=
    List.findSome?_isSome_iff.2 ⟨b, hb, by rw [hp]; rfl⟩
  obtain ⟨sign, hsign⟩ := Option.isSome_iff_exists.1 hsome
  obtain ⟨a, ha, hap⟩ := List.exists_of_findSome?_eq_some hsign
  have heq : sign = s := by
    by_contra hne
    refine h a ha b hb ⟨p, sign, hap, ?_⟩
    rw [hp, Bool.eq_not_of_ne (Ne.symm hne)]
  rw [hsign, heq]

/-- Branches that agree have an open merge, with the signs that they give and no
others. -/
theorem AllAgree.exists_mergeAll? (h : AllAgree chosen) :
    ∃ c, mergeAll? chosen = some c ∧ c.value = jointValue chosen := by
  obtain ⟨c, hc, hwithin⟩ := exists_mergeAll?_within.2 h.within_jointValue
  have hall := exists_mergeAll?_within.1 ⟨c, hc, within_value c⟩
  refine ⟨c, hc, ?_⟩
  funext p
  cases hp : jointValue chosen p with
  | none =>
    by_contra hne
    obtain ⟨s, hs⟩ := Option.ne_none_iff_exists'.1 hne
    simp [within_iff.1 hwithin p s hs] at hp
  | some s =>
    obtain ⟨b, hb, hbp⟩ := List.exists_of_findSome?_eq_some hp
    exact within_iff.1 (hall b hb) p s hbp

/-- Two branches that disagree are not within any valuation. -/
theorem mergeAll?_of_not_allAgree (h : ¬ AllAgree chosen) : mergeAll? chosen = none := by
  by_contra hopen
  obtain ⟨c, hc⟩ := Option.ne_none_iff_exists'.1 hopen
  have hall := exists_mergeAll?_within.1 ⟨c, hc, within_value c⟩
  apply h
  rintro a ha b hb ⟨p, s, hpositive, hnegative⟩
  have hp := within_iff.1 (hall a ha) p s hpositive
  have hn := within_iff.1 (hall b hb) p (!s) hnegative
  simp [hp] at hn

theorem map_value_mergeAll? (chosen : List Branch) :
    (mergeAll? chosen).map value =
      if AllAgree chosen then some (jointValue chosen) else none := by
  split
  · next hagree =>
    obtain ⟨c, hc, hvalue⟩ := hagree.exists_mergeAll?
    rw [hc, Option.map_some, hvalue]
  · next hdisagree =>
    rw [mergeAll?_of_not_allAgree hdisagree, Option.map_none]

/-- The open branches of a conjunction have the joint signs of the choices of
branches that agree. -/
theorem map_value_conjoin (lists : List (Thunk (List Branch))) :
    (conjoin lists).map value =
      ((choices (lists.map Thunk.get)).filter fun chosen => AllAgree chosen).map jointValue := by
  have hproduct (left right : List Branch) : product left right =
      left.flatMap fun a => right.filterMap a.merge? := rfl
  rw [conjoin_eq_foldr, foldr_product_eq_filterMap_choices hproduct, List.map_filterMap]
  change List.filterMap (fun chosen => (mergeAll? chosen).map value) _ = _
  simp only [map_value_mergeAll?, ← List.filterMap_eq_map', List.filterMap_filter,
    decide_eq_true_eq]

end Branch

/-- Choices are listed in lexicographic order of the places of their items, and
none is left out.  A conjunction of normal forms has the terms of each choice, one
after the other.  A conjunction of lists of branches has, for each choice of
branches that agree on every atom, a branch with the signs of all that were chosen.
Both are what the whole fold gives, without stopping at an empty list. -/
theorem conjoin_lists_choices :
    (∀ {α : Type} (lists : List (List α)),
      (places lists).Pairwise (List.Lex (· < ·)) ∧
      (∀ chosen, chosen ∈ places lists ↔
        List.Forall₂ (fun place items => place < items.length) chosen lists) ∧
      choices lists = (places lists).map (itemsAt lists)) ∧
    (∀ {α : Type} (dnfs : List (Thunk (List (List α)))),
      Dnf.conjoin dnfs = (choices (dnfs.map Thunk.get)).map List.flatten ∧
      Dnf.conjoin dnfs = dnfs.foldl (fun found next => Dnf.product found next.get) [[]]) ∧
    (∀ lists : List (Thunk (List Branch)),
      (Branch.conjoin lists).map Branch.value =
        ((choices (lists.map Thunk.get)).filter fun chosen => Branch.AllAgree chosen).map
          Branch.jointValue ∧
      Branch.conjoin lists =
        lists.foldl (fun found next => Branch.product found next.get) [∅]) := by
  refine ⟨?_, ?_, ?_⟩
  · intro α lists
    exact ⟨pairwise_places lists, fun _ => mem_places, choices_eq_map_places lists⟩
  · intro α dnfs
    exact ⟨Dnf.conjoin_eq_map_choices dnfs, Dnf.conjoinFrom_eq_foldl _ dnfs⟩
  · intro lists
    exact ⟨Branch.map_value_conjoin lists, Branch.conjoinFrom_eq_foldl _ lists⟩

end Subsumption
