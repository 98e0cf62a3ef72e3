import Mathlib.Data.List.Flatten
import Mathlib.Data.List.Perm.Basic
import Subsumption.Proofs.Branch.Merge
/-!
Products of lists of branches.  A product is associative to the letter, although
merges close early or late as it is bracketed, and exchanging its two lists only
permutes it.
-/

namespace Subsumption

/-- Folding from the unit, an associative operation need not know from which
side. -/
theorem foldl_get_eq_foldr {α : Type} {op : α → α → α} {unit : α} [Std.Associative op]
    [Std.LawfulIdentity op unit] (items : List (Thunk α)) :
    items.foldl (fun found next => op found next.get) unit =
      (items.map Thunk.get).foldr op unit := by
  have hfrom (found : α) : items.foldl (fun found next => op found next.get) found =
      op found ((items.map Thunk.get).foldr op unit) := by
    induction items generalizing found with
    | nil => exact (Std.LawfulRightIdentity.right_id found).symm
    | cons next rest ih =>
      rw [List.foldl_cons, ih, List.map_cons, List.foldr_cons]
      exact Std.Associative.assoc _ _ _
  rw [hfrom unit]
  exact Std.LawfulLeftIdentity.left_id _

theorem flatMap_flatMap_perm_comm {α β γ : Type} (f : α → β → List γ) (left : List α)
    (right : List β) : (left.flatMap fun x => right.flatMap (f x)).Perm
      (right.flatMap fun y => left.flatMap fun x => f x y) := by
  induction left with
  | nil => simp
  | cons x left ih =>
    simp only [List.flatMap_cons]
    exact (ih.append_left _).trans (List.flatMap_append_perm right _ _)

namespace Branch

variable {left left' right right' : List Branch}

theorem product_eq_flatMap (left right : List Branch) :
    product left right = left.flatMap fun a => right.flatMap fun b => (a.merge? b).toList := by
  simp only [product, List.filterMap_eq_flatMap_toList]

/-- A merge of three is open, and the same, from whichever side it starts. -/
theorem merge?_assoc (a b c : Branch) :
    ((a.merge? b).bind fun d => d.merge? c) = (b.merge? c).bind a.merge? := by
  have hassoc := join?_assoc (some a) (some b) (some c)
  simpa [join?] using hassoc

theorem product_assoc (a b c : List Branch) :
    product (product a b) c = product a (product b c) := by
  simp only [product_eq_flatMap, List.flatMap_assoc]
  congr 1
  funext x
  congr 1
  funext y
  calc (x.merge? y).toList.flatMap (fun d => c.flatMap fun z => (d.merge? z).toList)
      = c.flatMap fun z => ((x.merge? y).bind fun d => d.merge? z).toList := by
        cases x.merge? y <;> simp
    _ = c.flatMap fun z => (y.merge? z).toList.flatMap fun d => (x.merge? d).toList := by
        congr 1
        funext z
        rw [merge?_assoc]
        cases y.merge? z <;> simp

theorem empty_product (branches : List Branch) : product [∅] branches = branches := by
  simp [product, empty_merge?]

theorem product_empty (branches : List Branch) : product branches [∅] = branches := by
  have hunit (b : Branch) : b.merge? ∅ = some b := by rw [merge?_comm, empty_merge?]
  simp [product, hunit]

instance : Std.Associative product := ⟨product_assoc⟩

instance : Std.LawfulIdentity product [∅] where
  left_id := empty_product
  right_id := product_empty

/-- The merges of each pair of branches, whichever list is gone through first. -/
theorem product_perm_comm (left right : List Branch) :
    (product left right).Perm (product right left) := by
  rw [product_eq_flatMap, product_eq_flatMap]
  have hswap := flatMap_flatMap_perm_comm (fun a b : Branch => (a.merge? b).toList) left right
  simpa only [merge?_comm] using hswap

theorem product_perm (hleft : left.Perm left') (hright : right.Perm right') :
    (product left right).Perm (product left' right') := by
  apply hleft.flatMap
  intro a _
  exact hright.filterMap a.merge?

theorem conjoin_eq_foldr (lists : List (Thunk (List Branch))) :
    conjoin lists = (lists.map Thunk.get).foldr product [∅] := by
  rw [conjoin, conjoinFrom_eq_foldl, foldl_get_eq_foldr]

/-- The order of the lists decides the order of their joint merges only. -/
theorem foldr_product_perm {lists lists' : List (List Branch)} (h : lists.Perm lists') :
    (lists.foldr product [∅]).Perm (lists'.foldr product [∅]) := by
  induction h with
  | nil => exact .refl _
  | cons branches _ ih => exact product_perm (.refl branches) ih
  | swap first second rest =>
    simp only [List.foldr_cons, ← product_assoc]
    exact product_perm (product_perm_comm second first) (.refl _)
  | trans _ _ ih ih' => exact ih.trans ih'

/-- Reordering one of the lists reorders the joint merges. -/
theorem foldr_product_perm_middle {branches branches' : List Branch} (h : branches.Perm branches')
    (before after : List (List Branch)) : ((before ++ branches :: after).foldr product [∅]).Perm
      ((before ++ branches' :: after).foldr product [∅]) := by
  induction before with
  | nil => exact product_perm h (.refl _)
  | cons first before ih => exact product_perm (.refl first) ih

end Branch

end Subsumption
