import Mathlib.Dynamics.PeriodicPts.Lemmas
import Mathlib.SetTheory.Cardinal.Finite
import Mathlib.Tactic.Ring
import Subsumption.Random.Generator
/-!
The period of the generator.  Twice as many moves add twice as large a power of two
to the state, so 2^63 moves change the highest bit alone, and no state comes again
before all the others.
-/

namespace Subsumption

namespace Pcg

open Function

/-- The generator after one draw of 32 bits. -/
def successor (g : Pcg) : Pcg := g.next.2

/-- The generator after a number of draws of 32 bits. -/
def after (g : Pcg) (draws : Nat) : Pcg := successor^[draws] g

/-- A move of a linear congruence, before it is reduced by the modulus. -/
def move (multiplier increment x : Nat) : Nat := x * multiplier + increment

section Moves

variable {a c : Nat} (ha : a % 4 = 1) (hc : c % 2 = 1)
include ha hc

/-- Any power of two of moves is a linear map again.  Its multiplier exceeds one
by a multiple of four times the power, and its increment is an odd multiple of
the power. -/
theorem exists_iterate_move_two_pow (k : Nat) :
    ∃ m j, ∀ x, (move a c)^[2 ^ k] x = x * (1 + 2 ^ (k + 2) * m) + 2 ^ k * (1 + 2 * j) := by
  induction k with
  | zero =>
    refine ⟨a / 4, c / 2, ?_⟩
    intro x
    have hmultiplier : 1 + 4 * (a / 4) = a := by omega
    have hincrement : 1 + 2 * (c / 2) = c := by omega
    simp [move, hmultiplier, hincrement]
  | succ k ih =>
    obtain ⟨m, j, hmoves⟩ := ih
    have htwice : 2 ^ (k + 1) = 2 ^ k + 2 ^ k := by omega
    refine ⟨m + 2 ^ (k + 1) * m * m, j + 2 ^ k * m * (1 + 2 * j), ?_⟩
    intro x
    calc (move a c)^[2 ^ (k + 1)] x
        = (move a c)^[2 ^ k] ((move a c)^[2 ^ k] x) := by rw [htwice, iterate_add_apply]
      _ = (x * (1 + 2 ^ (k + 2) * m) + 2 ^ k * (1 + 2 * j)) * (1 + 2 ^ (k + 2) * m) +
            2 ^ k * (1 + 2 * j) := by rw [hmoves, hmoves]
      _ = _ := by ring

theorem exists_iterate_move_eq_add (k x : Nat) :
    ∃ q, (move a c)^[2 ^ k] x = x + 2 ^ k + 2 ^ (k + 1) * q := by
  obtain ⟨m, j, hmoves⟩ := exists_iterate_move_two_pow ha hc k
  refine ⟨2 * m * x + j, ?_⟩
  rw [hmoves]
  ring

end Moves

/-- It does not matter whether each move is reduced or only the last. -/
theorem toNat_iterate_advance (n : Nat) (s : UInt64) : (advance^[n] s).toNat =
    (move multiplier.toNat increment.toNat)^[n] s.toNat % 2 ^ 64 := by
  induction n with
  | zero => simp [Nat.mod_eq_of_lt s.toNat_lt]
  | succ n ih =>
    rw [iterate_succ_apply', iterate_succ_apply', advance, UInt64.toNat_add, UInt64.toNat_mul, ih,
      move, Nat.mod_add_mod, Nat.add_mod, Nat.mod_mul_mod]
    simp

/-- Half of the period away the state differs in its highest bit alone. -/
theorem iterate_advance_half (s : UInt64) : advance^[2 ^ 63] s = s + 0x8000000000000000 := by
  have hmultiplier : multiplier.toNat % 4 = 1 := by decide
  have hincrement : increment.toNat % 2 = 1 := by decide
  obtain ⟨q, hq⟩ := exists_iterate_move_eq_add hmultiplier hincrement 63 s.toNat
  apply UInt64.toNat_inj.1
  rw [toNat_iterate_advance, hq, Nat.add_mul_mod_self_left, UInt64.toNat_add]
  rfl

theorem iterate_advance_full (s : UInt64) : advance^[2 ^ 64] s = s := by
  have htwice : 2 ^ 64 = 2 ^ 63 + 2 ^ 63 := by norm_num
  rw [htwice, iterate_add_apply, iterate_advance_half, iterate_advance_half, UInt64.add_assoc]
  exact UInt64.add_zero s

theorem state_injective : Injective state := by
  rintro ⟨s⟩ ⟨s'⟩ hsame
  exact congrArg mk hsame

theorem state_after (g : Pcg) (n : Nat) : (g.after n).state = advance^[n] g.state :=
  Semiconj.iterate_right (f := state) (fun _ => rfl) n g

theorem state_after_half (g : Pcg) : (g.after (2 ^ 63)).state = g.state + 0x8000000000000000 := by
  rw [state_after, iterate_advance_half]

theorem after_full (g : Pcg) : g.after (2 ^ 64) = g := by
  apply state_injective
  rw [state_after, iterate_advance_full]

/-- The period divides 2^64 and does not divide 2^63. -/
theorem minimalPeriod_successor (g : Pcg) : minimalPeriod successor g = 2 ^ 64 := by
  have hprime : Fact (Nat.Prime 2) := ⟨Nat.prime_two⟩
  apply minimalPeriod_eq_prime_pow
  · intro hhalf
    have hreturned : g.after (2 ^ 63) = g := hhalf
    have hmoved := state_after_half g
    rw [hreturned] at hmoved
    have hzero : (0x8000000000000000 : UInt64) = 0 := UInt64.left_eq_add.1 hmoved
    exact absurd hzero (by decide)
  · exact after_full g

theorem after_eq_after_iff {g : Pcg} {n n' : Nat} (hn : n < 2 ^ 64) (hn' : n' < 2 ^ 64) :
    g.after n = g.after n' ↔ n = n' := by
  rw [← minimalPeriod_successor g] at hn hn'
  exact iterate_eq_iterate_iff_of_lt_minimalPeriod hn hn'

/-- A generator is known by its state, which is one of 2^64 words. -/
def equivFin : Pcg ≃ Fin (2 ^ 64) where
  toFun g := g.state.toFin
  invFun i := ⟨.ofFin i⟩
  left_inv _ := rfl
  right_inv _ := rfl

/-- So many different states leave none out. -/
theorem exists_after_eq (g g' : Pcg) : ∃ n, n < 2 ^ 64 ∧ g.after n = g' := by
  have hinj : Injective fun n : Fin (2 ^ 64) => g.after n := by
    intro n n' hsame
    exact Fin.ext ((after_eq_after_iff n.isLt n'.isLt).1 hsame)
  have hfinite : Finite Pcg := .of_equiv _ equivFin.symm
  have hcard : Nat.card Pcg ≤ Nat.card (Fin (2 ^ 64)) := (Nat.card_congr equivFin).le
  obtain ⟨n, hn⟩ := (hinj.bijective_of_nat_card_le hcard).surjective g'
  exact ⟨n, n.isLt, hn⟩

/-- Draws from any state lead back to it after 2^64 draws and no fewer, and on
the way they visit every state exactly once. -/
theorem full_period (g : Pcg) :
    g.after (2 ^ 64) = g ∧ (∀ n, 0 < n → n < 2 ^ 64 → g.after n ≠ g) ∧
      ∀ g' : Pcg, ∃! n, n < 2 ^ 64 ∧ g.after n = g' := by
  refine ⟨after_full g, ?_, ?_⟩
  · intro n hpos hn hsame
    have hzero : n = 0 := (after_eq_after_iff hn (by decide)).1 hsame
    exact absurd hzero hpos.ne'
  · intro g'
    obtain ⟨n, hn, hvisit⟩ := exists_after_eq g g'
    refine ⟨n, ⟨hn, hvisit⟩, ?_⟩
    rintro n' ⟨hn', hvisit'⟩
    exact (after_eq_after_iff hn' hn).1 (hvisit'.trans hvisit.symm)

end Pcg

end Subsumption
