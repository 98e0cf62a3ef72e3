import Subsumption.Proofs.Json.RoundTrip
import Subsumption.Proofs.Taxonomy.RecordReading
/-!
Taxonomies kept as text.  The text of any record is read back as the record, and a
reachable taxonomy goes on from its own record as if it had never been written.
-/

namespace Subsumption

theorem CyclePolicy.ofJson?_toJson (p : CyclePolicy) : ofJson? p.toJson = some p :=
  ofText?_text p

theorem AtomSet.ofJson?_toJson (s : AtomSet) : ofJson? s.toJson = some s := by
  have hnames : s.names.map Atom.mk = s.toList := by
    simp [names, Function.comp_def]
  have hlist : Std.ExtTreeSet.ofList s.toList = s := by
    apply Std.ExtTreeSet.ext_mem
    simp
  rw [ofJson?, toJson, Json.texts?_ofStrings, Option.map_some, hnames, hlist]

/-- Two members with different keys are both found. -/
theorem Json.optionalMembers?_pair {key key' : String} (h : key ≠ key') (v v' : Json) :
    optionalMembers? [(some key, v), (some key', v')] key key' = some (some v, some v') := by
  have hkey : valuesOf [(some key, v), (some key', v')] key = [v] := by
    simp [valuesOf, h.symm]
  have hkey' : valuesOf [(some key, v), (some key', v')] key' = [v'] := by
    simp [valuesOf, h]
  rw [optionalMembers?, hkey, hkey']
  rfl

theorem Element.ofJson?_toJson (e : Element) : ofJson? e.toJson = some e := by
  have hne : "children" ≠ "parents" := by decide
  have hmembers := Json.optionalMembers?_pair hne e.children.toJson e.parents.toJson
  simp [toJson, Json.ofMembers, ofJson?, hmembers, ofParts?, AtomSet.ofJson?_toJson]

/-- The entries of a map make up the map. -/
theorem Elements.ofList_toList (elements : Elements) :
    Std.ExtTreeMap.ofList elements.toList = elements := by
  apply Std.ExtTreeMap.ext_getElem?
  intro a
  cases ha : elements[a]? with
  | none =>
    apply Std.ExtTreeMap.getElem?_ofList_of_contains_eq_false
    simpa using ha
  | some e =>
    have hmem : (a, e) ∈ elements.toList := Std.ExtTreeMap.mem_toList_iff_getElem?_eq_some.2 ha
    exact Std.ExtTreeMap.getElem?_ofList_of_mem Std.ReflCmp.compare_self
      Std.ExtTreeMap.distinct_keys_toList hmem

theorem Elements.ofJson?_toJson (elements : Elements) :
    ofJson? elements.toJson = some elements := by
  rw [toJson, Json.ofMembers, List.map_map, ofJson?, mapM_map_eq_some]
  · exact congrArg some elements.ofList_toList
  · intro entry _
    simp [Element.ofJson?_toJson]

theorem Record.ofJson?_toJson (r : Record) : ofJson? r.toJson = some r := by
  have hne : "cycle_policy" ≠ "elements" := by decide
  have hmembers := Json.optionalMembers?_pair hne r.policy.toJson r.elements.toJson
  simp [toJson, Json.ofMembers, ofJson?, hmembers, ofParts?, CyclePolicy.ofJson?_toJson,
    Elements.ofJson?_toJson]

theorem Element.wellSpelled_toJson (e : Element) : e.toJson.WellSpelled := by
  apply Json.WellSpelled.object
  simp only [List.forall_mem_cons, List.not_mem_nil]
  exact ⟨Json.wellSpelled_ofStrings _, Json.wellSpelled_ofStrings _, nofun⟩

theorem Elements.wellSpelled_toJson (elements : Elements) : elements.toJson.WellSpelled := by
  apply Json.WellSpelled.object
  intro m hm
  obtain ⟨⟨a, e⟩, -, rfl⟩ := List.mem_map.1 hm
  exact e.wellSpelled_toJson

theorem Record.wellSpelled_toJson (r : Record) : r.toJson.WellSpelled := by
  apply Json.WellSpelled.object
  simp only [List.forall_mem_cons, List.not_mem_nil]
  exact ⟨.string _, r.elements.wellSpelled_toJson, nofun⟩

/-- Any record is read back from its text. -/
theorem Record.read?_text (r : Record) : read? r.text = some r := by
  rw [read?, text, r.wellSpelled_toJson.read?_compact]
  exact r.ofJson?_toJson

namespace Taxonomy

/-- A reachable taxonomy is read back from its text with the same elements and
the same policy, and any revisions then lead to the same taxonomy and the same
answers. -/
theorem Reachable.reload {t : Taxonomy} (h : t.Reachable) :
    ∃ r t', Record.read? t.record.text = some r ∧ r.toTaxonomy = .ok t' ∧
      t'.elements = t.elements ∧ t'.policy = t.policy ∧
      ∀ (revisions : List Revision) (revision : Revision),
        t'.run revisions = t.run revisions ∧
          (t'.run revisions).revise revision = (t.run revisions).revise revision := by
  have hread := Record.read?_text t.record
  have hrebuilt := h.toTaxonomy_record
  refine ⟨t.record, t, hread, hrebuilt, rfl, rfl, ?_⟩
  intro revisions revision
  exact ⟨rfl, rfl⟩

/-- An atom whose name has characters that are escaped and others that look as
if they should be. -/
def awkward : Atom := ⟨"\"\\\n\x00\x7f/é"⟩

/-- The awkward atom below an atom without a name, where cycles are rejected. -/
def awkwardPair : Taxonomy :=
  (ofSettings rejecting).run [.addElements [⟨""⟩, awkward], .addChild ⟨""⟩ awkward]

theorem reload_awkwardPair :
    awkwardPair.Reachable ∧
      ∃ r t', Record.read? awkwardPair.record.text = some r ∧ r.toTaxonomy = .ok t' ∧
        t'.parents awkward = {⟨""⟩} ∧
        (t'.revise (.addParent ⟨""⟩ awkward)).2 = .error (.cycle awkward ⟨""⟩) := by
  have hreachable : awkwardPair.Reachable := (Reachable.ofSettings rejecting).run _
  obtain ⟨r, t', hread, hrebuilt, helements, -, hlater⟩ := Reachable.reload hreachable
  have hparents : awkwardPair.parents awkward = {⟨""⟩} := by decide +kernel
  have hrefused : (awkwardPair.revise (.addParent ⟨""⟩ awkward)).2 =
      .error (.cycle awkward ⟨""⟩) := by decide +kernel
  refine ⟨hreachable, r, t', hread, hrebuilt, ?_, ?_⟩
  · rw [parents, helements]
    exact hparents
  · have hanswer := (hlater [] (.addParent ⟨""⟩ awkward)).2
    exact (congrArg Prod.snd hanswer).trans hrefused

end Taxonomy

end Subsumption
