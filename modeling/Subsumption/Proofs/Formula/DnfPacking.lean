import Mathlib.Data.List.Basic
import Subsumption.Formula.NormalForm
import Subsumption.Proofs.Itemwise
/-!
Lists of terms packed into formulas, without connectives around a lone operand.
When the pieces are literals nothing is lost, so normal forms can be packed and cut
at each level of a formula.
-/

namespace Subsumption

/-- A term: literals joined by conjunction. -/
abbrev Term := List Literal

/-- A disjunctive normal form: terms joined by disjunction. -/
abbrev Dnf := List Term

namespace Dnf

variable {α β : Type}

/-- Mapping the pieces commutes with distribution. -/
theorem map_product (g : α → β) (left right : List (List α)) :
    (product left right).map (List.map g) =
      product (left.map (List.map g)) (right.map (List.map g)) := by
  simp [product, List.map_flatMap, List.flatMap_map, Function.comp_def]

theorem map_conjoinFrom (g : α → β) (found : List (List α))
    (dnfs : List (Thunk (List (List α)))) :
    (conjoinFrom found dnfs).map (List.map g) =
      conjoinFrom (found.map (List.map g))
        (dnfs.map fun d => Thunk.mk fun _ => d.get.map (List.map g)) := by
  rw [conjoinFrom_eq_foldl, conjoinFrom_eq_foldl]
  induction dnfs generalizing found with
  | nil => rfl
  | cons next rest ih =>
    rw [List.map_cons, List.foldl_cons, List.foldl_cons, ih, map_product]
    rfl

theorem map_conjoin (g : α → β) (dnfs : List (Thunk (List (List α)))) :
    (conjoin dnfs).map (List.map g) =
      conjoin (dnfs.map fun d => Thunk.mk fun _ => d.get.map (List.map g)) :=
  map_conjoinFrom g [[]] dnfs

end Dnf

namespace Formula

def ofTerm (t : Term) : Formula := wrap conj (t.map ofLiteral)

def ofTerms (ts : Dnf) : Formula := pack (ts.map (List.map ofLiteral))

/-- The terms of a formula that is in disjunctive normal form. -/
def terms? (f : Formula) : Option Dnf := f.cut.mapM fun gs => gs.mapM literal?

/-- A term is packed as its only literal or as a conjunction of its literals. -/
theorem ofTerm_cases (t : Term) :
    (∃ l, t = [l] ∧ ofTerm t = ofLiteral l) ∨
      (t.length ≠ 1 ∧ ofTerm t = conj (t.map ofLiteral)) := by
  by_cases h : t.length = 1
  · obtain ⟨l, rfl⟩ := List.length_eq_one_iff.1 h
    exact Or.inl ⟨l, rfl, rfl⟩
  · exact Or.inr ⟨h, wrap_of_length_ne_one (by rwa [List.length_map])⟩

theorem ofTerms_eq_wrap (ts : Dnf) : ofTerms ts = wrap disj (ts.map ofTerm) := by
  rw [ofTerms, pack, List.map_map]
  rfl

/-- A list of terms is packed as its only term or as a disjunction of its
terms. -/
theorem ofTerms_cases (ts : Dnf) :
    (∃ t, ts = [t] ∧ ofTerms ts = ofTerm t) ∨
      (ts.length ≠ 1 ∧ ofTerms ts = disj (ts.map ofTerm)) := by
  rw [ofTerms_eq_wrap]
  by_cases h : ts.length = 1
  · obtain ⟨t, rfl⟩ := List.length_eq_one_iff.1 h
    exact Or.inl ⟨t, rfl, rfl⟩
  · exact Or.inr ⟨h, wrap_of_length_ne_one (by rwa [List.length_map])⟩

theorem ofLiteral_ne_conj (l : Literal) (gs : List Formula) : ofLiteral l ≠ conj gs := by
  obtain ⟨a, _ | _⟩ := l <;> intro h <;> cases h

theorem ofLiteral_ne_disj (l : Literal) (gs : List Formula) : ofLiteral l ≠ disj gs := by
  obtain ⟨a, _ | _⟩ := l <;> intro h <;> cases h

theorem ofTerm_ne_disj (t : Term) (gs : List Formula) : ofTerm t ≠ disj gs := by
  rcases ofTerm_cases t with ⟨l, -, hl⟩ | ⟨-, hconj⟩
  · rw [hl]
    exact ofLiteral_ne_disj l gs
  · rw [hconj]
    intro h
    cases h

theorem disjuncts_of_ne_disj {f : Formula} (h : ∀ gs, f ≠ disj gs) : f.disjuncts = [f] := by
  cases f with
  | disj gs => exact absurd rfl (h gs)
  | _ => rfl

theorem conjuncts_ofTerm (t : Term) : (ofTerm t).conjuncts = t.map ofLiteral := by
  rcases ofTerm_cases t with ⟨⟨a, _ | _⟩, rfl, hl⟩ | ⟨-, hconj⟩
  · rw [hl]
    rfl
  · rw [hl]
    rfl
  · rw [hconj]
    rfl

/-- A packed list of terms is cut into the literals of the terms. -/
theorem cut_ofTerms (ts : Dnf) : (ofTerms ts).cut = ts.map (List.map ofLiteral) := by
  rcases ofTerms_cases ts with ⟨t, rfl, ht⟩ | ⟨-, hdisj⟩
  · rw [ht, cut, disjuncts_of_ne_disj (ofTerm_ne_disj t), List.map_singleton, conjuncts_ofTerm]
    rfl
  · rw [hdisj, cut, disjuncts, List.map_map]
    exact List.map_congr_left fun t _ => conjuncts_ofTerm t

/-- The terms of a formula are what it is cut into, and they are all read if all the
pieces are literals. -/
theorem terms?_eq_some_iff {f : Formula} {ts : Dnf} :
    f.terms? = some ts ↔ f.cut = ts.map (List.map ofLiteral) :=
  mapM_eq_some_iff fun _ _ => mapM_eq_some_iff fun _ _ => literal?_eq_some_iff

/-- The terms of a packed list are the list. -/
theorem terms?_ofTerms (ts : Dnf) : (ofTerms ts).terms? = some ts :=
  terms?_eq_some_iff.2 (cut_ofTerms ts)

/-- The terms of the formula when `sign` is true, and of its negation when
`sign` is false, never packed on the way. -/
def terms (sign : Bool) : Formula → Dnf
  | atom a => [[⟨a, sign⟩]]
  | neg f => f.terms !sign
  | conj fs =>
    if sign then Dnf.conjoin (fs.map fun f => Thunk.mk fun _ => f.terms true)
    else fs.flatMap (terms false)
  | disj fs =>
    if sign then fs.flatMap (terms true)
    else Dnf.conjoin (fs.map fun f => Thunk.mk fun _ => f.terms false)
  | imp f g =>
    if sign then f.terms false ++ g.terms true
    else Dnf.conjoin [f.terms true, g.terms false]
  | iff f g =>
    Dnf.conjoin [f.terms true, g.terms sign] ++ Dnf.conjoin [f.terms false, g.terms !sign]
termination_by f => sizeOf f
decreasing_by
  all_goals simp only [neg.sizeOf_spec, conj.sizeOf_spec, disj.sizeOf_spec, imp.sizeOf_spec,
    iff.sizeOf_spec]
  all_goals try have := List.sizeOf_lt_of_mem ‹_›
  all_goals omega

/-- The lists that are packed for the formula when `sign` is true, and for its
negation when `sign` is false: those the normal forms of the operands are cut into,
gathered or distributed.  A negation leaves the packing to its operand. -/
def gathered (sign : Bool) : Formula → List (List Formula)
  | atom a => [[ofLiteral ⟨a, sign⟩]]
  | neg f => f.gathered !sign
  | conj fs =>
    if sign then Dnf.conjoin (fs.map fun f => Thunk.mk fun _ => (f.dnf true).cut)
    else fs.flatMap fun f => (f.dnf false).cut
  | disj fs =>
    if sign then fs.flatMap fun f => (f.dnf true).cut
    else Dnf.conjoin (fs.map fun f => Thunk.mk fun _ => (f.dnf false).cut)
  | imp f g =>
    if sign then (f.dnf false).cut ++ (g.dnf true).cut
    else Dnf.conjoin [(f.dnf true).cut, (g.dnf false).cut]
  | iff f g =>
    Dnf.conjoin [(f.dnf true).cut, (g.dnf sign).cut] ++
      Dnf.conjoin [(f.dnf false).cut, (g.dnf !sign).cut]

/-- Packing is the last step of a pass. -/
theorem dnf_eq_pack_gathered (f : Formula) (sign : Bool) :
    f.dnf sign = pack (f.gathered sign) := by
  induction f generalizing sign with
  | atom a =>
    rw [dnf, gathered]
    rfl
  | neg f ih => rw [dnf, gathered, ih]
  | _ => rw [dnf, gathered]

/-- Distributing what normal forms are cut into gives the literals of their distributed
terms. -/
theorem conjoin_cut_eq_map {fs : List Formula} {sign : Bool}
    (h : ∀ f ∈ fs, (f.dnf sign).cut = (f.terms sign).map (List.map ofLiteral)) :
    Dnf.conjoin (fs.map fun f => Thunk.mk fun _ => (f.dnf sign).cut) =
      (Dnf.conjoin (fs.map fun f => Thunk.mk fun _ => f.terms sign)).map
        (List.map ofLiteral) := by
  rw [Dnf.map_conjoin, List.map_map]
  congr 1
  apply List.map_congr_left
  intro f hf
  rw [h f hf]
  rfl

/-- The lists packed at each level are the literals of the terms, which are never
packed: to pack the terms at one level and cut them again at the next changes
nothing. -/
theorem gathered_eq_map_terms (f : Formula) (sign : Bool) :
    f.gathered sign = (f.terms sign).map (List.map ofLiteral) := by
  -- What the level above cuts an operand into, once the claim holds of the operand.
  have hcut {g : Formula} {sign : Bool}
      (h : g.gathered sign = (g.terms sign).map (List.map ofLiteral)) :
      (g.dnf sign).cut = (g.terms sign).map (List.map ofLiteral) := by
    rw [dnf_eq_pack_gathered, h]
    exact cut_ofTerms (g.terms sign)
  induction f generalizing sign with
  | atom a =>
    rw [gathered, terms]
    rfl
  | neg f ih => rw [gathered, terms, ih]
  | conj fs ih =>
    rw [gathered, terms]
    cases sign with
    | true =>
      rw [if_pos rfl, if_pos rfl]
      exact conjoin_cut_eq_map fun f hf => hcut (ih f hf true)
    | false =>
      rw [if_neg (by decide), if_neg (by decide), List.map_flatMap]
      exact List.flatMap_congr fun f hf => hcut (ih f hf false)
  | disj fs ih =>
    rw [gathered, terms]
    cases sign with
    | true =>
      rw [if_pos rfl, if_pos rfl, List.map_flatMap]
      exact List.flatMap_congr fun f hf => hcut (ih f hf true)
    | false =>
      rw [if_neg (by decide), if_neg (by decide)]
      exact conjoin_cut_eq_map fun f hf => hcut (ih f hf false)
  | imp f g ihf ihg =>
    rw [gathered, terms]
    cases sign with
    | true =>
      rw [if_pos rfl, if_pos rfl, List.map_append, hcut (ihf false), hcut (ihg true)]
    | false =>
      rw [if_neg (by decide), if_neg (by decide), Dnf.conjoin_pair, Dnf.conjoin_pair,
        Dnf.map_product, hcut (ihf true), hcut (ihg false)]
  | iff f g ihf ihg =>
    rw [gathered, terms, List.map_append]
    simp only [Dnf.conjoin_pair, Dnf.map_product]
    rw [hcut (ihf true), hcut (ihg sign), hcut (ihf false), hcut (ihg !sign)]

/-- A normal form is packed as if it had been done once at the root. -/
theorem dnf_eq_ofTerms (f : Formula) (sign : Bool) : f.dnf sign = ofTerms (f.terms sign) := by
  rw [dnf_eq_pack_gathered, gathered_eq_map_terms, ofTerms]

/-- Formulas with the same terms have the same normal form. -/
theorem dnf_congr {f g : Formula} {s t : Bool} (h : f.terms s = g.terms t) :
    f.dnf s = g.dnf t := by
  rw [dnf_eq_ofTerms, dnf_eq_ofTerms, h]

theorem toDnf_eq_ofTerms (f : Formula) : f.toDnf = ofTerms (f.terms true) :=
  dnf_eq_ofTerms f true

theorem negatedDnf_eq_ofTerms (f : Formula) : f.negatedDnf = ofTerms (f.terms false) :=
  dnf_eq_ofTerms f false

theorem terms_ofLiteral (l : Literal) : (ofLiteral l).terms true = [[l]] := by
  obtain ⟨a, _ | _⟩ := l <;> simp [ofLiteral, terms]

/-- Distributing over conjuncts with one term each joins these terms. -/
theorem foldl_product_singletons (found : Term) (t : Term) :
    (t.map fun l => Thunk.mk fun _ => (ofLiteral l).terms true).foldl
      (fun found next => Dnf.product found next.get) [found] = [found ++ t] := by
  induction t generalizing found with
  | nil => simp
  | cons l t ih =>
    have hstep : Dnf.product [found] ((ofLiteral l).terms true) = [found ++ [l]] := by
      rw [terms_ofLiteral]
      rfl
    rw [List.map_cons, List.foldl_cons]
    change List.foldl _ (Dnf.product [found] ((ofLiteral l).terms true)) _ = _
    rw [hstep, ih, List.append_assoc]
    rfl

theorem terms_conj_map_ofLiteral (t : Term) : (conj (t.map ofLiteral)).terms true = [t] := by
  rw [terms, if_pos rfl, Dnf.conjoin, Dnf.conjoinFrom_eq_foldl, List.map_map]
  exact foldl_product_singletons [] t

theorem terms_conj_conjuncts (f : Formula) : (conj f.conjuncts).terms true = f.terms true := by
  have hlone (f : Formula) : (conj [f]).terms true = f.terms true := by
    simp [terms, Dnf.conjoin, Dnf.conjoinFrom, Dnf.product, Thunk.get]
  cases f with
  | conj fs => rfl
  | _ => exact hlone _

theorem terms_disj_disjuncts (f : Formula) : f.disjuncts.flatMap (terms true) = f.terms true := by
  cases f with
  | disj fs => rw [disjuncts, terms, if_pos rfl]
  | _ => simp [disjuncts]

/-- Expanding a formula that is cut into the literals of some terms gives these
terms. -/
theorem terms_of_cut_eq {f : Formula} {ts : Dnf} (h : f.cut = ts.map (List.map ofLiteral)) :
    f.terms true = ts := by
  calc f.terms true
      = f.disjuncts.flatMap fun g => (conj g.conjuncts).terms true := by
        simp only [terms_conj_conjuncts, terms_disj_disjuncts]
    _ = f.cut.flatMap fun gs => (conj gs).terms true := by
        rw [cut, List.flatMap_map]
    _ = ts.flatMap fun t => [t] := by
        simp only [h, List.flatMap_map, terms_conj_map_ofLiteral]
    _ = ts := List.flatMap_singleton' ts

/-- The expansion of a packed list is the list. -/
theorem terms_ofTerms (ts : Dnf) : (ofTerms ts).terms true = ts :=
  terms_of_cut_eq (cut_ofTerms ts)

end Formula

end Subsumption
