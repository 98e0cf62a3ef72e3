import Subsumption.Proofs.Taxonomy.Acyclicity
/-!
What one new edge does to every closure.  An element gains ancestors only if it is the
child or below it, and gains the parent with what was above; descendants likewise.
Cycles make no difference.
-/

namespace Subsumption

open Relation

/-- A set found along paths, after one edge from `near` to `far` is added. -/
theorem AtomSet.eq_ite_union_insert {r : Atom → Atom → Prop} {found beyond after : AtomSet}
    {a near far : Atom} (hfound : ∀ b, b ∈ found ↔ TransGen r a b)
    (hbeyond : ∀ b, b ∈ beyond ↔ TransGen r far b)
    (hafter : ∀ b, b ∈ after ↔
      TransGen r a b ∨ (ReflTransGen r a near ∧ ReflTransGen r far b)) :
    after = if a = near ∨ near ∈ found then found ∪ beyond.insert far else found := by
  have hnear : a = near ∨ near ∈ found ↔ ReflTransGen r a near := by
    rw [hfound, reflTransGen_iff_eq_or_transGen, eq_comm]
  have hfar (b : Atom) : b ∈ beyond.insert far ↔ ReflTransGen r far b := by
    rw [mem_insert_iff, hbeyond, reflTransGen_iff_eq_or_transGen]
  apply Std.ExtTreeSet.ext_mem
  intro b
  by_cases hgains : a = near ∨ near ∈ found
  · simp only [if_pos hgains, Std.ExtTreeSet.mem_union_iff, hafter, hfound, hfar,
      hnear.1 hgains, true_and]
  · have hnone : ¬ ReflTransGen r a near := fun hpath => hgains (hnear.2 hpath)
    simp only [if_neg hgains, hafter, hfound, hnone, false_and, or_false]

namespace Taxonomy

variable {t t' : Taxonomy} {parent child a b : Atom}

/-- The paths of a taxonomy with a new edge. -/
theorem transGen_link_iff (hchild : child ∈ t) : TransGen (t.link parent child).Edge a b ↔
    TransGen t.Edge a b ∨ (ReflTransGen t.Edge a child ∧ ReflTransGen t.Edge parent b) := by
  have hgraph : TransGen (t.hierarchy.after (.addEdge parent child)).Edge a b ↔ _ :=
    Hierarchy.transGen_addEdge_iff
  rw [← hierarchy_link hchild] at hgraph
  exact hgraph

/-- An edge that is added successfully joins two elements, and is all that
changes. -/
theorem eq_link_of_addChild {answer : Answer}
    (hadd : t.revise (.addChild parent child) = (t', .ok answer)) :
    parent ∈ t ∧ child ∈ t ∧ t' = t.link parent child := by
  rw [revise_eq_effect] at hadd
  change t.attempt ((t.addEdge parent child).map (.done, ·)) = (t', .ok answer) at hadd
  cases hedge : t.addEdge parent child with
  | error x => simp [hedge, Except.map, attempt] at hadd
  | ok linked =>
    obtain ⟨hparent, hchild, -, rfl⟩ := addEdge_eq_ok_iff.1 hedge
    simp only [hedge, Except.map, attempt, Prod.mk.injEq] at hadd
    exact ⟨hparent, hchild, hadd.1.symm⟩

namespace Consistent

/-- The ancestors of an element once a parent is linked above a child. -/
theorem ancestors_link (h : t.Consistent) (hparent : parent ∈ t) (hchild : child ∈ t)
    (ha : a ∈ t) {above aboveParent : AtomSet} (habove : t.ancestors a = .ok above)
    (haboveParent : t.ancestors parent = .ok aboveParent) :
    (t.link parent child).ancestors a =
      .ok (if a = child ∨ child ∈ above then above ∪ aboveParent.insert parent else above) := by
  obtain ⟨s, hs, hup⟩ := h.exists_ancestors ha
  obtain ⟨u, hu, hbeyond⟩ := h.exists_ancestors hparent
  obtain ⟨after, hafter, hnew⟩ := (h.link hparent hchild).exists_ancestors (mem_link.2 ha)
  obtain rfl : s = above := Except.ok.inj (hs.symm.trans habove)
  obtain rfl : u = aboveParent := Except.ok.inj (hu.symm.trans haboveParent)
  have hpaths (b : Atom) := (hnew b).trans (transGen_link_iff hchild)
  rw [hafter, AtomSet.eq_ite_union_insert hup hbeyond hpaths]

/-- The descendants of an element, by the same paths from their ends. -/
theorem descendants_link (h : t.Consistent) (hparent : parent ∈ t) (hchild : child ∈ t)
    (ha : a ∈ t) {below belowChild : AtomSet} (hbelow : t.descendants a = .ok below)
    (hbelowChild : t.descendants child = .ok belowChild) :
    (t.link parent child).descendants a =
      .ok (if a = parent ∨ parent ∈ below then below ∪ belowChild.insert child else below) := by
  obtain ⟨s, hs, hdown⟩ := h.exists_descendants ha
  obtain ⟨u, hu, hbeyond⟩ := h.exists_descendants hchild
  obtain ⟨after, hafter, hnew⟩ := (h.link hparent hchild).exists_descendants (mem_link.2 ha)
  obtain rfl : s = below := Except.ok.inj (hs.symm.trans hbelow)
  obtain rfl : u = belowChild := Except.ok.inj (hu.symm.trans hbelowChild)
  -- The same search runs along the edges the other way round.
  have hswapped (b : Atom) : b ∈ after ↔ TransGen (Function.swap t.Edge) a b ∨
      (ReflTransGen (Function.swap t.Edge) a parent ∧
        ReflTransGen (Function.swap t.Edge) child b) := by
    rw [hnew, transGen_link_iff hchild, and_comm]
    exact or_congr transGen_swap.symm (and_congr reflTransGen_swap.symm reflTransGen_swap.symm)
  rw [hafter, AtomSet.eq_ite_union_insert (fun b => (hdown b).trans transGen_swap.symm)
    (fun b => (hbeyond b).trans transGen_swap.symm) hswapped]

end Consistent

/-- Once an edge is added, the child and all that had it among their ancestors
gain the parent with its ancestors, the parent and all that had it among their
descendants gain the child with its descendants, and every other closure is as
it was. -/
theorem Reachable.closures_addChild (h : t.Reachable) {answer : Answer}
    (hadd : t.revise (.addChild parent child) = (t', .ok answer)) :
    ∃ aboveParent belowChild, t.ancestors parent = .ok aboveParent ∧
      t.descendants child = .ok belowChild ∧
      ∀ a, (a ∈ t' ↔ a ∈ t) ∧ (a ∈ t →
        ∃ above below, t.ancestors a = .ok above ∧ t.descendants a = .ok below ∧
          t'.ancestors a = .ok (if a = child ∨ child ∈ above
            then above ∪ aboveParent.insert parent else above) ∧
          t'.descendants a = .ok (if a = parent ∨ parent ∈ below
            then below ∪ belowChild.insert child else below)) := by
  have hconsistent : t.Consistent := .of_reachable h
  obtain ⟨hparent, hchild, rfl⟩ := eq_link_of_addChild hadd
  obtain ⟨aboveParent, haboveParent, -⟩ := hconsistent.exists_ancestors hparent
  obtain ⟨belowChild, hbelowChild, -⟩ := hconsistent.exists_descendants hchild
  refine ⟨aboveParent, belowChild, haboveParent, hbelowChild, ?_⟩
  intro a
  refine ⟨mem_link, ?_⟩
  intro ha
  obtain ⟨above, habove, -⟩ := hconsistent.exists_ancestors ha
  obtain ⟨below, hbelow, -⟩ := hconsistent.exists_descendants ha
  exact ⟨above, below, habove, hbelow,
    hconsistent.ancestors_link hparent hchild ha habove haboveParent,
    hconsistent.descendants_link hparent hchild ha hbelow hbelowChild⟩

/-- Two elements below each other get the third, which was above them, below one
of them as well, so that all three lie below each other. -/
theorem closures_addChild_tangle :
    tangle.Reachable ∧ (tangle.revise (.addChild ⟨"q"⟩ ⟨"r"⟩)).2 = .ok .done ∧ ⟨"r"⟩ ∈ tangle ∧
      tangle.ancestors ⟨"r"⟩ = .ok ∅ ∧ tangle.descendants ⟨"r"⟩ = .ok {⟨"p"⟩, ⟨"q"⟩} ∧
      (tangle.revise (.addChild ⟨"q"⟩ ⟨"r"⟩)).1.ancestors ⟨"r"⟩ = .ok {⟨"p"⟩, ⟨"q"⟩, ⟨"r"⟩} ∧
      (tangle.revise (.addChild ⟨"q"⟩ ⟨"r"⟩)).1.descendants ⟨"r"⟩ =
        .ok {⟨"p"⟩, ⟨"q"⟩, ⟨"r"⟩} := by
  have hadd : tangle.revise (.addChild ⟨"q"⟩ ⟨"r"⟩) =
      ((tangle.revise (.addChild ⟨"q"⟩ ⟨"r"⟩)).1, .ok .done) := by decide +kernel
  have hr : (⟨"r"⟩ : Atom) ∈ tangle := by decide
  have hparent : tangle.ancestors ⟨"q"⟩ = .ok {⟨"p"⟩, ⟨"q"⟩, ⟨"r"⟩} := by decide +kernel
  have hup : tangle.ancestors ⟨"r"⟩ = .ok ∅ := by decide +kernel
  have hdown : tangle.descendants ⟨"r"⟩ = .ok {⟨"p"⟩, ⟨"q"⟩} := by decide +kernel
  obtain ⟨aboveParent, belowChild, haboveParent, hbelowChild, hclosures⟩ :=
    Reachable.closures_addChild reachable_tangle hadd
  obtain ⟨above, below, habove, hbelow, hnewAbove, hnewBelow⟩ := (hclosures ⟨"r"⟩).2 hr
  obtain rfl : {⟨"p"⟩, ⟨"q"⟩, ⟨"r"⟩} = aboveParent :=
    Except.ok.inj (hparent.symm.trans haboveParent)
  obtain rfl : {⟨"p"⟩, ⟨"q"⟩} = belowChild := Except.ok.inj (hdown.symm.trans hbelowChild)
  obtain rfl : ∅ = above := Except.ok.inj (hup.symm.trans habove)
  obtain rfl : {⟨"p"⟩, ⟨"q"⟩} = below := Except.ok.inj (hdown.symm.trans hbelow)
  refine ⟨reachable_tangle, congrArg Prod.snd hadd, hr, hup, hdown, ?_, ?_⟩
  · rw [hnewAbove]
    decide +kernel
  · rw [hnewBelow]
    decide +kernel

end Taxonomy

end Subsumption
