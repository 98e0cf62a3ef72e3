import Mathlib.Data.Set.List
import Subsumption.Formula.Interchange
import Subsumption.Proofs.Itemwise
/-!
Formulas and the JSON values that have their form, which a grammar describes with one
production for each connective.  Writing and reading are inverse to each other, and a
value of any other form is refused.
-/

namespace Subsumption

/-- The values that have the form of a formula: objects with one member, whose
key names the connective and whose value holds the operands, each of the form
of a formula. -/
inductive Json.Tagged : Json → Prop
  | atom (name : String) : Tagged (.ofMembers [("Atom", .ofString name)])
  | neg {f : Json} : Tagged f → Tagged (.ofMembers [("Not", f)])
  | conj {fs : List Json} : (∀ f ∈ fs, Tagged f) → Tagged (.ofMembers [("And", .array fs)])
  | disj {fs : List Json} : (∀ f ∈ fs, Tagged f) → Tagged (.ofMembers [("Or", .array fs)])
  | imp {f g : Json} : Tagged f → Tagged g → Tagged (.ofMembers [("Implies", .array [f, g])])
  | iff {f g : Json} : Tagged f → Tagged g → Tagged (.ofMembers [("Equiv", .array [f, g])])

/-- A name is read from its own string only. -/
theorem Atom.ofJson?_eq_some_iff {j : Json} {a : Atom} :
    Atom.ofJson? j = some a ↔ a.toJson = j := by
  constructor
  · intro h
    obtain ⟨name, hname, rfl⟩ := Option.map_eq_some_iff.1 h
    unfold Json.text? at hname
    split at hname
    · rw [hname]
      rfl
    · cases hname
  · rintro rfl
    rfl

namespace Formula

theorem ofJson?_toJson (f : Formula) : ofJson? f.toJson = some f := by
  induction f with
  | atom a => simp [toJson, Json.ofMembers, ofJson?, Atom.ofJson?_eq_some_iff]
  | neg f ih => simp [toJson, Json.ofMembers, ofJson?, ih]
  | conj fs ih => simp [toJson, Json.ofMembers, ofJson?, mapM_map_eq_some ih]
  | disj fs ih => simp [toJson, Json.ofMembers, ofJson?, mapM_map_eq_some ih]
  | imp f g ihf ihg => simp [toJson, Json.ofMembers, ofJson?, ihf, ihg]
  | iff f g ihf ihg => simp [toJson, Json.ofMembers, ofJson?, ihf, ihg]

/-- The induction follows the reader, whose cases are the forms it accepts and
one for every value that has none of them. -/
theorem toJson_of_ofJson?_eq_some {j : Json} {f : Formula} (h : ofJson? j = some f) :
    f.toJson = j := by
  induction j using ofJson?.induct generalizing f with
  | case1 a =>
    rw [ofJson?] at h
    obtain ⟨a', ha, rfl⟩ := Option.map_eq_some_iff.1 h
    rw [toJson, Atom.ofJson?_eq_some_iff.1 ha]
    rfl
  | case2 j ih =>
    rw [ofJson?] at h
    obtain ⟨f', hf, rfl⟩ := Option.map_eq_some_iff.1 h
    rw [toJson, ih hf]
    rfl
  | case3 js ih =>
    rw [ofJson?] at h
    obtain ⟨fs, hfs, rfl⟩ := Option.map_eq_some_iff.1 h
    rw [toJson, map_eq_of_mapM_eq_some (fun j hj _ => ih j hj) hfs]
    rfl
  | case4 js ih =>
    rw [ofJson?] at h
    obtain ⟨fs, hfs, rfl⟩ := Option.map_eq_some_iff.1 h
    rw [toJson, map_eq_of_mapM_eq_some (fun j hj _ => ih j hj) hfs]
    rfl
  | case5 j j' ih ih' =>
    rw [ofJson?] at h
    obtain ⟨f', hf, h⟩ := Option.bind_eq_some_iff.1 h
    obtain ⟨g', hg, h⟩ := Option.bind_eq_some_iff.1 h
    cases h
    rw [toJson, ih hf, ih' hg]
    rfl
  | case6 j j' ih ih' =>
    rw [ofJson?] at h
    obtain ⟨f', hf, h⟩ := Option.bind_eq_some_iff.1 h
    obtain ⟨g', hg, h⟩ := Option.bind_eq_some_iff.1 h
    cases h
    rw [toJson, ih hf, ih' hg]
    rfl
  | case7 j =>
    -- A value of none of the forms is refused.
    simp_all [ofJson?]

theorem ofJson?_eq_some_iff {j : Json} {f : Formula} : ofJson? j = some f ↔ f.toJson = j := by
  constructor
  · exact toJson_of_ofJson?_eq_some
  · rintro rfl
    exact ofJson?_toJson f

theorem tagged_toJson (f : Formula) : f.toJson.Tagged := by
  induction f with
  | atom a =>
    rw [toJson]
    exact .atom a.name
  | neg f ih =>
    rw [toJson]
    exact .neg ih
  | conj fs ih =>
    rw [toJson]
    exact .conj (List.forall_mem_map.2 ih)
  | disj fs ih =>
    rw [toJson]
    exact .disj (List.forall_mem_map.2 ih)
  | imp f g ihf ihg =>
    rw [toJson]
    exact .imp ihf ihg
  | iff f g ihf ihg =>
    rw [toJson]
    exact .iff ihf ihg

/-- Values that are all written for formulas are written for a list of
formulas. -/
theorem exists_map_toJson {js : List Json} (h : ∀ j ∈ js, ∃ f : Formula, f.toJson = j) :
    ∃ fs : List Formula, fs.map toJson = js := by
  have hmem : js ∈ Set.range (List.map toJson) := by
    rw [Set.range_list_map]
    exact h
  exact hmem

theorem exists_toJson_of_tagged {j : Json} (h : j.Tagged) : ∃ f : Formula, f.toJson = j := by
  induction h with
  | atom name => exact ⟨.atom ⟨name⟩, by rw [toJson, Atom.toJson]⟩
  | neg _ ih =>
    obtain ⟨f, rfl⟩ := ih
    exact ⟨.neg f, by rw [toJson]⟩
  | conj _ ih =>
    obtain ⟨fs, rfl⟩ := exists_map_toJson ih
    exact ⟨.conj fs, by rw [toJson]⟩
  | disj _ ih =>
    obtain ⟨fs, rfl⟩ := exists_map_toJson ih
    exact ⟨.disj fs, by rw [toJson]⟩
  | imp _ _ ihf ihg =>
    obtain ⟨f, rfl⟩ := ihf
    obtain ⟨g, rfl⟩ := ihg
    exact ⟨.imp f g, by rw [toJson]⟩
  | iff _ _ ihf ihg =>
    obtain ⟨f, rfl⟩ := ihf
    obtain ⟨g, rfl⟩ := ihg
    exact ⟨.iff f g, by rw [toJson]⟩

theorem mem_range_toJson_iff {j : Json} : j ∈ Set.range toJson ↔ j.Tagged := by
  constructor
  · rintro ⟨f, rfl⟩
    exact tagged_toJson f
  · exact exists_toJson_of_tagged

/-- The JSON form is exact.  A formula is read back from the value written for
it, a value is read as the formula it is written for and as no other, and the
values that are read at all are those written for formulas, which are those of
the form of a formula. -/
theorem json_form_exact (f : Formula) (j : Json) :
    ofJson? f.toJson = some f ∧
    (ofJson? j = some f ↔ f.toJson = j) ∧
    ((ofJson? j).isSome ↔ j ∈ Set.range toJson) ∧
    (j ∈ Set.range toJson ↔ j.Tagged) := by
  have haccepted : (ofJson? j).isSome ↔ j ∈ Set.range toJson := by
    simp only [Option.isSome_iff_exists, ofJson?_eq_some_iff, Set.mem_range]
  exact ⟨ofJson?_toJson f, ofJson?_eq_some_iff, haccepted, mem_range_toJson_iff⟩

end Formula

end Subsumption
