/-!
Settings with bounds, and the setting that a taxonomy is built with.
-/

namespace Subsumption

/-- A named value together with the bounds that it is meant to keep. -/
structure Setting (α : Type) where
  name : String
  min : α
  max : α
  value : α
deriving Repr

/-- The setting with a new value, unless the value is out of bounds. -/
def Setting.set? {α : Type} [LE α] [DecidableLE α] (s : Setting α) (value : α) :
    Option (Setting α) :=
  if s.min ≤ value ∧ value ≤ s.max then some { s with value } else none

/-- What becomes of an edge that would close a cycle. -/
inductive CyclePolicy where
  /-- The edge is added. -/
  | permit
  /-- The edge is refused. -/
  | reject
deriving DecidableEq, Repr, Inhabited

namespace CyclePolicy

/-- The place of the policy: permitting comes before rejecting. -/
def rank : CyclePolicy → Nat
  | permit => 0
  | reject => 1

instance : LE CyclePolicy := ⟨fun p q => p.rank ≤ q.rank⟩

instance : DecidableLE CyclePolicy := fun p q => inferInstanceAs (Decidable (p.rank ≤ q.rank))

def text : CyclePolicy → String
  | permit => "permit"
  | reject => "reject"

def debugText : CyclePolicy → String
  | permit => "Permit"
  | reject => "Reject"

/-- The policy that a word names; case matters. -/
def ofText? : String → Option CyclePolicy
  | "permit" => some permit
  | "reject" => some reject
  | _ => none

@[simp] theorem ofText?_text (p : CyclePolicy) : ofText? p.text = some p := by
  cases p <;> rfl

end CyclePolicy

structure Settings where
  cyclePolicy : Setting CyclePolicy :=
    { name := "cycle_policy", min := .permit, max := .reject, value := .permit }
deriving Repr

namespace Settings

instance : Inhabited Settings := ⟨{}⟩

/-- The settings with another policy on cycles, if it is within the bounds. -/
def setCyclePolicy (s : Settings) (p : CyclePolicy) : Settings :=
  { s with cyclePolicy := (s.cyclePolicy.set? p).getD s.cyclePolicy }

/-- Every policy is within the default bounds, and so is never refused. -/
theorem value_setCyclePolicy (p : CyclePolicy) :
    (setCyclePolicy {} p).cyclePolicy.value = p := by
  cases p <;> rfl

end Settings

example : (Setting.mk "depth" 0 9 3).set? 10 |>.isNone := by decide

end Subsumption
