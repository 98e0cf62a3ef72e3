import Mathlib.Data.List.Chain
import Subsumption.Proofs.Taxonomy.Closure
/-!
Runs of a search, whichever pending atom is examined next.  Every run is over after as
many examinations as there are neighbours at most, and on a consistent taxonomy all
end with the same atoms.
-/

namespace Subsumption

namespace Taxonomy

open Relation

/-- A search between two examinations. -/
structure Search where
  reached : AtomSet
  pending : List Atom

/-- A search that has reached some atoms and examined none of them. -/
def Search.start (first : AtomSet) : Search := ⟨first, first.toList⟩

/-- An examination of any one of the pending atoms.  Those of its neighbours that
are new join the pending ones in any order. -/
inductive Examines (t : Taxonomy) (side : Side) : Search → Search → Prop
  | intro {reached : AtomSet} {pending rest pending' : List Atom} {a : Atom} {e : Element} :
      pending.Perm (a :: rest) → t.elements[a]? = some e →
      pending'.Perm ((side e \ reached).toList ++ rest) →
      Examines t side ⟨reached, pending⟩ ⟨reached ∪ (side e \ reached), pending'⟩

/-- At most how many examinations are still to come. -/
def unexamined (t : Taxonomy) (side : Side) (s : Search) : Nat :=
  (t.neighbours side \ s.reached).size + s.pending.length

variable {t : Taxonomy} {side : Side} {s s' : Search} {first found : AtomSet} {a b : Atom}

/-- Each examination leaves one less to come. -/
theorem unexamined_of_examines (h : t.Examines side s s') :
    t.unexamined side s' + 1 = t.unexamined side s := by
  cases h with
  | @intro reached _ _ _ _ e htaken he hjoined =>
    have hsub : ∀ b, b ∈ side e → b ∈ t.neighbours side := fun b hb => mem_neighbours he hb
    have hsize := AtomSet.size_diff_union (r := reached) hsub
    have hbefore := htaken.length_eq
    have hafter := hjoined.length_eq
    simp only [List.length_cons, List.length_append, Std.ExtTreeSet.length_toList] at hbefore hafter
    simp only [unexamined]
    omega

theorem length_le_unexamined {run : List Search}
    (h : List.IsChain (t.Examines side) (s :: run)) : run.length ≤ t.unexamined side s := by
  induction run generalizing s with
  | nil => exact Nat.zero_le _
  | cons s' run ih =>
    rw [List.isChain_cons_cons] at h
    have hstep := unexamined_of_examines h.1
    have hrest := ih h.2
    rw [List.length_cons]
    omega

/-- Whatever is to be examined is a neighbour of some element. -/
theorem unexamined_start {e : Element} (he : t.elements[a]? = some e) :
    t.unexamined side (.start (side e)) = (t.neighbours side).size := by
  rw [unexamined, Search.start, Std.ExtTreeSet.length_toList]
  exact AtomSet.size_diff_add_size fun b hb => mem_neighbours he hb

/-- The order of the pending atoms does not matter. -/
theorem Searched.of_perm {reached : AtomSet} {pending pending' : List Atom}
    (h : t.Searched side reached pending) (hperm : pending.Perm pending') :
    t.Searched side reached pending' where
  mem_of_reached := h.mem_of_reached
  reached_of_pending b hb := h.reached_of_pending b (hperm.mem_iff.2 hb)
  reached_of_adjacent b hb hnone := h.reached_of_adjacent b hb (mt hperm.mem_iff.1 hnone)

theorem Searched.exists_examines (h : t.Searched side s.reached s.pending)
    (hpending : s.pending ≠ []) : ∃ s', t.Examines side s s' := by
  obtain ⟨reached, pending⟩ := s
  cases pending with
  | nil => exact absurd rfl hpending
  | cons a rest =>
    obtain ⟨e, he⟩ := mem_iff.1 (h.mem_of_reached a (h.reached_of_pending a List.mem_cons_self))
    exact ⟨_, .intro (.refl _) he (.refl _)⟩

/-- The atoms that can be reached from those reached already. -/
def Prospect (t : Taxonomy) (side : Side) (s : Search) (b : Atom) : Prop :=
  ∃ a ∈ s.reached, ReflTransGen (t.Adjacent side) a b

/-- An examination keeps the search in order, and its prospects as they are. -/
theorem Searched.examines (hside : ∀ a b, t.Adjacent side a b → b ∈ t)
    (h : t.Searched side s.reached s.pending) (hstep : t.Examines side s s') :
    t.Searched side s'.reached s'.pending ∧ ∀ b, t.Prospect side s' b ↔ t.Prospect side s b := by
  cases hstep with
  | intro htaken he hjoined =>
    have htop := h.of_perm htaken
    refine ⟨(htop.examine hside he).of_perm hjoined.symm, ?_⟩
    intro b
    exact exists_path_union_iff he (htop.reached_of_pending _ List.mem_cons_self)

theorem Searched.run (hside : ∀ a b, t.Adjacent side a b → b ∈ t)
    (h : t.Searched side s.reached s.pending) (hrun : ReflTransGen (t.Examines side) s s') :
    t.Searched side s'.reached s'.pending ∧ ∀ b, t.Prospect side s' b ↔ t.Prospect side s b := by
  induction hrun with
  | refl => exact ⟨h, fun _ => Iff.rfl⟩
  | tail _ hstep ih =>
    obtain ⟨hsearched, hsame⟩ := ih
    obtain ⟨hnext, hkept⟩ := hsearched.examines hside hstep
    exact ⟨hnext, fun b => (hkept b).trans (hsame b)⟩

/-- A search with nothing pending has no prospects beyond what it has reached. -/
theorem Searched.mem_reached_iff (h : t.Searched side s.reached s.pending)
    (hdone : s.pending = []) : b ∈ s.reached ↔ t.Prospect side s b := by
  rw [hdone] at h
  constructor
  · intro hb
    exact ⟨b, hb, .refl⟩
  · rintro ⟨a, ha, hpath⟩
    exact h.reached_of_reflTransGen ha hpath

/-- The search that finds the ancestors and descendants is one of the runs. -/
theorem reflTransGen_of_closure_eq_ok {reached : AtomSet} {pending : List Atom}
    (h : t.closure side reached pending = .ok found) :
    ReflTransGen (t.Examines side) ⟨reached, pending⟩ ⟨found, []⟩ := by
  fun_induction closure t side reached pending with
  | case1 reached =>
    cases h
    exact .refl
  | case2 => cases h
  | case3 reached a pending e he new ih => exact .head (.intro (.refl _) he (.refl _)) (ih h)

/-- Every run of the search from the first atoms ends, none before everything is
examined, and all with the atoms that are found. -/
structure Finds (t : Taxonomy) (side : Side) (first found : AtomSet) : Prop where
  length_le : ∀ run, List.IsChain (t.Examines side) (.start first :: run) →
    run.length ≤ (t.neighbours side).size
  exists_examines : ∀ s, ReflTransGen (t.Examines side) (.start first) s → s.pending ≠ [] →
    ∃ s', t.Examines side s s'
  reached_eq : ∀ s, ReflTransGen (t.Examines side) (.start first) s → s.pending = [] →
    s.reached = found
  ends : ReflTransGen (t.Examines side) (.start first) ⟨found, []⟩

theorem finds_of_reach_eq_ok (hside : ∀ a b, t.Adjacent side a b → b ∈ t) {e : Element}
    (he : t.elements[a]? = some e) (h : t.reach side a = .ok found) :
    t.Finds side (side e) found := by
  have hstart : t.Searched side (side e) (side e).toList := .start hside he
  have hclosure : t.closure side (side e) (side e).toList = .ok found := by
    rw [reach, element_eq_ok_iff.2 he] at h
    exact h
  have hends := reflTransGen_of_closure_eq_ok hclosure
  constructor
  · intro run hrun
    rw [← unexamined_start he]
    exact length_le_unexamined hrun
  · intro s hrun hpending
    exact (hstart.run hside hrun).1.exists_examines hpending
  · intro s hrun hdone
    obtain ⟨hsearched, hsame⟩ := hstart.run hside hrun
    obtain ⟨hfound, hsame'⟩ := hstart.run hside hends
    apply Std.ExtTreeSet.ext_mem
    intro b
    calc b ∈ s.reached ↔ t.Prospect side s b := hsearched.mem_reached_iff hdone
      _ ↔ t.Prospect side (.start (side e)) b := hsame b
      _ ↔ t.Prospect side ⟨found, []⟩ b := (hsame' b).symm
      _ ↔ b ∈ found := (hfound.mem_reached_iff rfl).symm
  · exact hends

/-- Edges lead from the atom back to it, through the atoms listed. -/
def OnCycle (t : Taxonomy) (a : Atom) : Prop :=
  ∃ through : List Atom, List.IsChain t.Edge (a :: (through ++ [a]))

theorem exists_isChain_iff_transGen {r : Atom → Atom → Prop} :
    (∃ through : List Atom, List.IsChain r (a :: (through ++ [b]))) ↔ TransGen r a b := by
  constructor
  · rintro ⟨through, hchain⟩
    induction through generalizing a with
    | nil => exact .single ((List.isChain_pair).1 hchain)
    | cons c through ih =>
      rw [List.cons_append, List.isChain_cons_cons] at hchain
      exact .head hchain.1 (ih hchain.2)
  · intro hpath
    induction hpath using TransGen.head_induction_on with
    | single hedge => exact ⟨[], List.isChain_pair.2 hedge⟩
    | head hedge _ ih =>
      obtain ⟨through, hchain⟩ := ih
      exact ⟨_ :: through, List.isChain_cons_cons.2 ⟨hedge, hchain⟩⟩

theorem onCycle_iff : t.OnCycle a ↔ TransGen t.Edge a a := exists_isChain_iff_transGen

/-- The ancestors and the descendants of an element are what it reaches by one
parent edge or more, and by one child edge or more.  It is among them exactly
when it lies on a cycle.  An atom that is no element has neither.  The searches
end on every graph, in whatever order they go through it. -/
theorem Reachable.closures_exact (h : t.Reachable) (a : Atom) :
    (a ∉ t → t.ancestors a = .error (.notFound a) ∧ t.descendants a = .error (.notFound a)) ∧
      (a ∈ t → ∃ above below, t.ancestors a = .ok above ∧ t.descendants a = .ok below ∧
        (∀ b, b ∈ above ↔ TransGen (fun x y => y ∈ t.parents x) a b) ∧
        (∀ b, b ∈ below ↔ TransGen (fun x y => y ∈ t.children x) a b) ∧
        (a ∈ above ↔ t.OnCycle a) ∧ (a ∈ below ↔ t.OnCycle a) ∧
        t.Finds Element.parents (t.parents a) above ∧
        t.Finds Element.children (t.children a) below) := by
  have hconsistent : t.Consistent := .of_reachable h
  constructor
  · intro ha
    exact ⟨reach_of_not_mem _ ha, reach_of_not_mem _ ha⟩
  · intro ha
    obtain ⟨e, he⟩ := mem_iff.1 ha
    obtain ⟨above, habove, hup⟩ := hconsistent.exists_ancestors ha
    obtain ⟨below, hbelow, hdown⟩ := hconsistent.exists_descendants ha
    obtain ⟨below', hbelow', hdown'⟩ := exists_reach Element.children hconsistent.mem_of_child ha
    obtain rfl : below = below' := Except.ok.inj (hbelow.symm.trans hbelow')
    have hparents : t.parents a = e.parents := by rw [parents, he]; rfl
    have hchildren : t.children a = e.children := by rw [children, he]; rfl
    refine ⟨above, below, habove, hbelow, hup, hdown', ?_, ?_, ?_, ?_⟩
    · rw [hup, onCycle_iff]
    · rw [hdown, onCycle_iff]
    · rw [hparents]
      exact finds_of_reach_eq_ok hconsistent.mem_of_parent he habove
    · rw [hchildren]
      exact finds_of_reach_eq_ok hconsistent.mem_of_child he hbelow

theorem closures_exact_tangle :
    tangle.Reachable ∧ ⟨"s"⟩ ∉ tangle ∧ ⟨"p"⟩ ∈ tangle ∧
      tangle.descendants ⟨"s"⟩ = .error (.notFound ⟨"s"⟩) ∧
      ∃ above, tangle.ancestors ⟨"p"⟩ = .ok above ∧ ⟨"r"⟩ ∈ above ∧ tangle.OnCycle ⟨"p"⟩ ∧
        tangle.Finds Element.parents {⟨"q"⟩, ⟨"r"⟩} above := by
  have hs : (⟨"s"⟩ : Atom) ∉ tangle := by decide
  have hp : (⟨"p"⟩ : Atom) ∈ tangle := by decide
  have herror := ((Reachable.closures_exact reachable_tangle ⟨"s"⟩).1 hs).2
  obtain ⟨above, below, habove, -, -, -, hcycle, -, hfinds, -⟩ :=
    (Reachable.closures_exact reachable_tangle ⟨"p"⟩).2 hp
  have hrun : tangle.ancestors ⟨"p"⟩ = .ok {⟨"p"⟩, ⟨"q"⟩, ⟨"r"⟩} := by decide +kernel
  obtain rfl : {⟨"p"⟩, ⟨"q"⟩, ⟨"r"⟩} = above := Except.ok.inj (hrun.symm.trans habove)
  refine ⟨reachable_tangle, hs, hp, herror, _, habove, by decide, hcycle.1 (by decide), ?_⟩
  have hparents : tangle.parents ⟨"p"⟩ = {⟨"q"⟩, ⟨"r"⟩} := by decide
  rw [← hparents]
  exact hfinds

end Taxonomy

end Subsumption
