/-!
Lists that are written and read item by item.

What holds of the items holds of the lists: a list that was written is read
back, and nothing but what is written for a list is read as it.
-/

namespace Subsumption

variable {α β : Type} {write : α → β} {read : β → Option α}

/-- A list is read back if each item of it is read back from what is written for
it. -/
theorem mapM_map_eq_some {l : List α} (h : ∀ a ∈ l, read (write a) = some a) :
    (l.map write).mapM read = some l := by
  induction l with
  | nil => rfl
  | cons a l ih =>
    obtain ⟨ha, hl⟩ := List.forall_mem_cons.1 h
    rw [List.map_cons, List.mapM_cons, ha, ih hl]
    rfl

/-- A list is read if each item of it is. -/
theorem isSome_mapM {l : List β} (h : ∀ b ∈ l, (read b).isSome) : (l.mapM read).isSome := by
  induction l with
  | nil => rfl
  | cons b l ih =>
    obtain ⟨hb, hl⟩ := List.forall_mem_cons.1 h
    obtain ⟨a, ha⟩ := Option.isSome_iff_exists.1 hb
    obtain ⟨as, has⟩ := Option.isSome_iff_exists.1 (ih hl)
    rw [List.mapM_cons, ha, has]
    rfl

/-- A list is the one written for what it is read as, if each item of it is. -/
theorem map_eq_of_mapM_eq_some {l : List β} {as : List α}
    (h : ∀ b ∈ l, ∀ a, read b = some a → write a = b) (hread : l.mapM read = some as) :
    as.map write = l := by
  induction l generalizing as with
  | nil =>
    cases hread
    rfl
  | cons b l ih =>
    obtain ⟨hb, hl⟩ := List.forall_mem_cons.1 h
    rw [List.mapM_cons] at hread
    obtain ⟨a, ha, hread⟩ := Option.bind_eq_some_iff.1 hread
    obtain ⟨as', has, hread⟩ := Option.bind_eq_some_iff.1 hread
    cases hread
    rw [List.map_cons, hb a ha, ih hl has]

/-- If an item is read only from what is written for it, the same holds of a list. -/
theorem mapM_eq_some_iff {l : List β} {as : List α}
    (h : ∀ b a, read b = some a ↔ b = write a) : l.mapM read = some as ↔ l = as.map write := by
  constructor
  · intro hread
    exact (map_eq_of_mapM_eq_some (fun b _ a ha => ((h b a).1 ha).symm) hread).symm
  · rintro rfl
    exact mapM_map_eq_some fun a _ => (h (write a) a).2 rfl

end Subsumption
