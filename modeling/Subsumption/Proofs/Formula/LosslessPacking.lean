import Subsumption.Proofs.Formula.Unwrapping
/-!
Packed terms and the lists they were packed from.  Packing and cutting are inverse to
each other between lists of terms and formulas in disjunctive normal form, up to
connectives of one operand, at each level that one pass goes through.
-/

namespace Subsumption

namespace Formula

/-- Lists of literals are read back from the formula that they are packed into. -/
theorem cut_pack {gss : List (List Formula)} (h : ∀ gs ∈ gss, ∀ g ∈ gs, g.literal?.isSome) :
    (pack gss).cut = gss := by
  obtain ⟨ts, hread⟩ := Option.isSome_iff_exists.1
    (isSome_mapM fun gs hgs => isSome_mapM (h gs hgs))
  have hliterals : gss = ts.map (List.map ofLiteral) :=
    (mapM_eq_some_iff fun _ _ => mapM_eq_some_iff fun _ _ => literal?_eq_some_iff).1 hread
  rw [hliterals]
  exact cut_ofTerms ts

example : ofTerms [] = disj [] ∧ ofTerms [[]] = conj [] := by decide

/-- Lists of literals are cut out of the formula that they are packed into, and so a
list of terms is read back from it.  Packing what a formula in disjunctive normal form
is cut into only takes away its connectives of one operand, and no other formula has
terms to read.  So a normal form is cut into the very lists that were gathered from
its operands, as if none had been packed before. -/
theorem packing_keeps_terms :
    (∀ gss : List (List Formula), (∀ gs ∈ gss, ∀ g ∈ gs, g.literal?.isSome) →
        (pack gss).cut = gss) ∧
      (∀ ts : Dnf, (ofTerms ts).terms? = some ts ∧
        (ofTerms ts).cut = ts.map (List.map ofLiteral)) ∧
      (∀ d : Formula, d.isDnf = true → pack d.cut = d.unwrap) ∧
      (∀ d : Formula, d.isDnf = true ↔
        ∃ ts, d.terms? = some ts ∧ d.cut = ts.map (List.map ofLiteral) ∧
          ofTerms ts = d.unwrap) ∧
      ∀ (f : Formula) (sign : Bool), f.dnf sign = pack (f.gathered sign) ∧
        (f.dnf sign).cut = f.gathered sign ∧
        f.gathered sign = (f.terms sign).map (List.map ofLiteral) ∧
        f.dnf sign = ofTerms (f.terms sign) ∧ (f.dnf sign).terms? = some (f.terms sign) := by
  refine ⟨fun gss h => cut_pack h, ?_, fun d hd => pack_cut hd, ?_, ?_⟩
  · intro ts
    exact ⟨terms?_ofTerms ts, cut_ofTerms ts⟩
  · intro d
    constructor
    · intro hd
      obtain ⟨ts, hread⟩ := Option.isSome_iff_exists.1 (isSome_terms? hd)
      exact ⟨ts, hread, terms?_eq_some_iff.1 hread, (unwrap_of_terms?_eq_some hread).symm⟩
    · rintro ⟨ts, hread, -⟩
      exact isDnf_of_terms?_eq_some hread
  · intro f sign
    have hgathered : f.gathered sign = (f.terms sign).map (List.map ofLiteral) :=
      gathered_eq_map_terms f sign
    have hpacked : f.dnf sign = ofTerms (f.terms sign) := dnf_eq_ofTerms f sign
    refine ⟨dnf_eq_pack_gathered f sign, ?_, hgathered, hpacked, ?_⟩
    · rw [hpacked, cut_ofTerms, hgathered]
    · rw [hpacked, terms?_ofTerms]

end Formula

end Subsumption
