import Subsumption.Branch
/-!
Branches by the valuations that contain them.  A merge is contained in exactly the
valuations that contain both branches, and is open as soon as there is one such
valuation.
-/

namespace Subsumption

namespace Branch

/-- The valuation satisfies every literal of the branch. -/
def Within (b : Branch) (v : Valuation) : Prop :=
  ∀ l ∈ b.literals, v.Satisfies l

/-- Some branch of the list is contained in the valuation. -/
def AnyWithin (branches : List Branch) (v : Valuation) : Prop :=
  ∃ b ∈ branches, b.Within v

variable {a b : Branch} {l : Literal} {v : Valuation}

theorem within_iff : b.Within v ↔ ∀ p s, b.value p = some s → v p = some s := by
  constructor
  · intro h p s hp
    exact h ⟨p, s⟩ (mem_literals.2 hp)
  · intro h l hl
    exact h l.atom l.sign (mem_literals.1 hl)

/-- A branch is contained in itself, read as a valuation. -/
theorem within_value (b : Branch) : b.Within b.value := by
  intro l hl
  exact mem_literals.1 hl

/-- Branches that are contained in each other are the same. -/
theorem eq_of_within (hab : a.Within b.value) (hba : b.Within a.value) : a = b := by
  apply ext
  intro p
  rw [within_iff] at hab hba
  cases ha : a.value p with
  | some s => exact (hab p s ha).symm
  | none =>
    cases hb : b.value p with
    | none => rfl
    | some s =>
      rw [hba p s hb] at ha
      cases ha

/-- Two results that are contained in the same valuations are the same, also
where there is no result. -/
theorem eq_of_forall_within {x y : Option Branch}
    (h : ∀ v, (∃ c, x = some c ∧ c.Within v) ↔ ∃ c, y = some c ∧ c.Within v) : x = y := by
  cases x with
  | none =>
    cases y with
    | none => rfl
    | some d =>
      obtain ⟨c, hc, -⟩ := (h d.value).2 ⟨d, rfl, within_value d⟩
      cases hc
  | some c =>
    obtain ⟨d, hd, hdc⟩ := (h c.value).1 ⟨c, rfl, within_value c⟩
    obtain ⟨c', hc', hcd⟩ := (h d.value).2 ⟨d, hd, within_value d⟩
    cases hc'
    rw [hd, eq_of_within hcd hdc]

theorem within_empty (v : Valuation) : (∅ : Branch).Within v := by
  rw [within_iff]
  intro p s hp
  rw [value_empty] at hp
  cases hp

theorem within_singleton : (singleton l).Within v ↔ v.Satisfies l := by
  rw [within_iff]
  constructor
  · intro h
    apply h l.atom l.sign
    rw [value_singleton, if_pos rfl]
  · intro h p s hp
    rw [value_singleton] at hp
    split at hp
    · next hatom =>
      cases hp
      rw [← hatom]
      exact h
    · cases hp

/-- What contains the branch with one more literal contains the branch and
satisfies the literal. -/
theorem within_of_insert?_eq_some {c : Branch} (hc : b.insert? l = some c) :
    c.Within v ↔ b.Within v ∧ v.Satisfies l := by
  have hvalue := value_of_insert?_eq_some hc
  have hopen : b.value l.atom ≠ some !l.sign := by
    intro hclosed
    rw [insert?_eq_none_iff.2 hclosed] at hc
    cases hc
  simp only [within_iff, hvalue]
  constructor
  · intro h
    refine ⟨?_, h l.atom l.sign (if_pos rfl)⟩
    intro p s hp
    by_cases hatom : l.atom = p
    · subst hatom
      have hsign : s = l.sign := by
        apply Decidable.byContradiction
        intro hne
        apply hopen
        rw [hp, Bool.eq_not_of_ne hne]
      rw [hsign]
      exact h l.atom l.sign (if_pos rfl)
    · exact h p s (by rw [if_neg hatom]; exact hp)
  · rintro ⟨hb, hl⟩ p s hp
    split at hp
    · next hatom =>
      cases hp
      rw [← hatom]
      exact hl
    · exact hb p s hp

/-- A valuation that contains the branch and satisfies the literal keeps the
insertion open. -/
theorem exists_insert?_within :
    (∃ c, b.insert? l = some c ∧ c.Within v) ↔ b.Within v ∧ v.Satisfies l := by
  constructor
  · rintro ⟨c, hc, hv⟩
    exact (within_of_insert?_eq_some hc).1 hv
  · rintro ⟨hb, hl⟩
    cases hc : b.insert? l with
    | none =>
      have hclosed := within_iff.1 hb _ _ (insert?_eq_none_iff.1 hc)
      rw [Valuation.Satisfies, hclosed] at hl
      simp at hl
    | some c => exact ⟨c, rfl, (within_of_insert?_eq_some hc).2 ⟨hb, hl⟩⟩

theorem exists_foldlM_insert?_within (literals : List Literal) (b : Branch) :
    (∃ c, literals.foldlM insert? b = some c ∧ c.Within v) ↔
      b.Within v ∧ ∀ l ∈ literals, v.Satisfies l := by
  induction literals generalizing b with
  | nil => simp
  | cons l literals ih =>
    rw [List.foldlM_cons, List.forall_mem_cons, ← and_assoc, ← exists_insert?_within]
    constructor
    · rintro ⟨c, hc, hv⟩
      obtain ⟨d, hd, hfold⟩ := Option.bind_eq_some_iff.1 hc
      obtain ⟨hdv, hrest⟩ := (ih d).1 ⟨c, hfold, hv⟩
      exact ⟨⟨d, hd, hdv⟩, hrest⟩
    · rintro ⟨⟨d, hd, hdv⟩, hrest⟩
      obtain ⟨c, hfold, hv⟩ := (ih d).2 ⟨hdv, hrest⟩
      exact ⟨c, Option.bind_eq_some_iff.2 ⟨d, hd, hfold⟩, hv⟩

/-- There is an open merge within a valuation exactly when both branches are
within it, whichever of the two is the larger. -/
theorem exists_merge?_within :
    (∃ c, a.merge? b = some c ∧ c.Within v) ↔ a.Within v ∧ b.Within v := by
  unfold merge?
  split
  · rw [exists_foldlM_insert?_within, and_comm]
    rfl
  · rw [exists_foldlM_insert?_within]
    rfl

theorem anyWithin_singleton : AnyWithin [b] v ↔ b.Within v := by
  simp [AnyWithin]

theorem anyWithin_append {left right : List Branch} :
    AnyWithin (left ++ right) v ↔ AnyWithin left v ∨ AnyWithin right v := by
  simp only [AnyWithin, List.mem_append, or_and_right, exists_or]

theorem anyWithin_flatMap {α : Type} {items : List α} {f : α → List Branch} :
    AnyWithin (items.flatMap f) v ↔ ∃ x ∈ items, AnyWithin (f x) v := by
  simp only [AnyWithin, List.mem_flatMap]
  constructor
  · rintro ⟨b, ⟨x, hx, hb⟩, hv⟩
    exact ⟨x, hx, b, hb, hv⟩
  · rintro ⟨x, hx, b, hb, hv⟩
    exact ⟨b, ⟨x, hx, hb⟩, hv⟩

theorem mem_product {left right : List Branch} {c : Branch} :
    c ∈ product left right ↔ ∃ a ∈ left, ∃ b ∈ right, a.merge? b = some c := by
  simp only [product, List.mem_flatMap, List.mem_filterMap]

theorem anyWithin_product {left right : List Branch} :
    AnyWithin (product left right) v ↔ AnyWithin left v ∧ AnyWithin right v := by
  constructor
  · rintro ⟨c, hc, hv⟩
    obtain ⟨a, ha, b, hb, hmerge⟩ := mem_product.1 hc
    obtain ⟨hav, hbv⟩ := exists_merge?_within.1 ⟨c, hmerge, hv⟩
    exact ⟨⟨a, ha, hav⟩, ⟨b, hb, hbv⟩⟩
  · rintro ⟨⟨a, ha, hav⟩, ⟨b, hb, hbv⟩⟩
    obtain ⟨c, hmerge, hv⟩ := exists_merge?_within.2 ⟨hav, hbv⟩
    exact ⟨c, mem_product.2 ⟨a, ha, b, hb, hmerge⟩, hv⟩

theorem anyWithin_conjoinFrom (found : List Branch) (lists : List (Thunk (List Branch))) :
    AnyWithin (conjoinFrom found lists) v ↔
      AnyWithin found v ∧ ∀ next ∈ lists, AnyWithin next.get v := by
  rw [conjoinFrom_eq_foldl]
  induction lists generalizing found with
  | nil => simp
  | cons next rest ih =>
    rw [List.foldl_cons, ih, anyWithin_product, List.forall_mem_cons, and_assoc]

theorem anyWithin_conjoin (lists : List (Thunk (List Branch))) :
    AnyWithin (conjoin lists) v ↔ ∀ next ∈ lists, AnyWithin next.get v := by
  rw [conjoin, anyWithin_conjoinFrom, anyWithin_singleton]
  exact and_iff_right (within_empty v)

end Branch

end Subsumption
