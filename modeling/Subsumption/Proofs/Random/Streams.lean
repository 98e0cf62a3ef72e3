import Mathlib.Algebra.Ring.Periodic
import Mathlib.Data.Nat.Factorization.Basic
import Subsumption.Proofs.Random.Period
/-!
Streams of draws.  All states lie on one cycle, so two states with the same words
would give the words a period of 2^63, where the highest bit is changed; but the word
drawn from the state 0 shows that bit.
-/

namespace Subsumption

theorem ofBytes_lt (bytes : List UInt8) : ofBytes bytes < 256 ^ bytes.length := by
  induction bytes with
  | nil => decide
  | cons b bytes ih =>
    have hb := b.toNat_lt
    rw [List.length_cons, pow_succ]
    change b.toNat + 256 * ofBytes bytes < _
    omega

namespace Pcg

open Function

/-- The 32 bits that are drawn after a number of draws. -/
def word (g : Pcg) (draws : Nat) : UInt32 := (g.after draws).next.1

theorem after_add (g : Pcg) (n m : Nat) : g.after (n + m) = (g.after m).after n :=
  iterate_add_apply successor n m g

theorem word_after (g : Pcg) (n m : Nat) : (g.after m).word n = g.word (n + m) := by
  rw [word, word, after_add]

theorem periodic_word_full (g : Pcg) : Periodic g.word (2 ^ 64) := by
  intro n
  rw [← word_after, after_full]

/-- Half a period away from the state 0 another word is drawn. -/
theorem not_periodic_word_half (g : Pcg) : ¬ Periodic g.word (2 ^ 63) := by
  intro hperiodic
  obtain ⟨n, -, hzero⟩ := exists_after_eq g ⟨0⟩
  have hopposite : (g.after (n + 2 ^ 63)).state = 0x8000000000000000 := by
    rw [Nat.add_comm, after_add, hzero, state_after_half]
    rfl
  have hsame : output (g.after (n + 2 ^ 63)).state = output (g.after n).state := hperiodic n
  rw [hopposite, hzero] at hsame
  exact absurd hsame (by decide)

/-- What has a power of two for a period, and another number that is no multiple
of it, repeats after half of the power already. -/
theorem periodic_half {α : Type} {u : Nat → α} {k period : Nat}
    (hpower : Periodic u (2 ^ (k + 1))) (hperiod : Periodic u period)
    (hmultiple : ¬ 2 ^ (k + 1) ∣ period) : Periodic u (2 ^ k) := by
  have hpos : period ≠ 0 := by
    intro hzero
    exact hmultiple (hzero ▸ dvd_zero _)
  obtain ⟨i, odd, ⟨q, hodd⟩, hfactor⟩ := Nat.exists_eq_two_pow_mul_odd hpos
  have hi : i ≤ k := by
    by_contra hlarge
    have hdvd : 2 ^ (k + 1) ∣ 2 ^ i := pow_dvd_pow 2 (by omega)
    exact hmultiple (hfactor ▸ hdvd.mul_right odd)
  -- The odd factor takes a multiple of the other period to half of the power.
  have hreach : 2 ^ (k - i) * period = 2 ^ k + q * 2 ^ (k + 1) := by
    have hsplit : 2 ^ (k - i) * 2 ^ i = 2 ^ k := by rw [← pow_add, Nat.sub_add_cancel hi]
    rw [hfactor, hodd, ← Nat.mul_assoc, hsplit]
    ring
  intro n
  calc u (n + 2 ^ k)
      = u (n + 2 ^ k + q * 2 ^ (k + 1)) := (hpower.nat_mul q _).symm
    _ = u (n + 2 ^ (k - i) * period) := by rw [hreach, Nat.add_assoc]
    _ = u n := hperiod.nat_mul _ n

/-- The words that are drawn determine the state. -/
theorem word_injective : Injective word := by
  intro g g' hsame
  obtain ⟨period, hlt, hlater⟩ := exists_after_eq g g'
  have hperiod : Periodic g.word period := by
    intro n
    rw [← word_after, hlater, hsame]
  by_contra hne
  have hmultiple : ¬ 2 ^ 64 ∣ period := by
    intro hdvd
    have hzero : period = 0 := Nat.eq_zero_of_dvd_of_lt hdvd hlt
    subst hzero
    exact hne hlater
  exact not_periodic_word_half g (periodic_half (periodic_word_full g) hperiod hmultiple)

theorem toNat_ofBytes_seed (seed : Seed) :
    (ofBytes seed.toList).toUInt64.toNat = ofBytes seed.toList := by
  have hlt := ofBytes_lt seed.toList
  rw [seed.length_toList] at hlt
  exact Nat.mod_eq_of_lt hlt

/-- The bytes of a seed are the bytes of the state, but for the increment. -/
theorem ofSeed_injective : Injective ofSeed := by
  intro seed seed' hsame
  have hstate : (ofBytes seed.toList).toUInt64 = (ofBytes seed'.toList).toUInt64 :=
    (UInt64.add_left_inj increment).1 (congrArg state hsame)
  have hnumber : ofBytes seed.toList = ofBytes seed'.toList := by
    rw [← toNat_ofBytes_seed, hstate, toNat_ofBytes_seed]
  have hlength : seed.toList.length = seed'.toList.length := by simp
  exact Vector.toList_inj.1 (eq_of_ofBytes_eq hlength hnumber)

/-- Distinct seeds give streams that differ somewhere. -/
theorem streams_differ {seed seed' : Seed} (h : seed ≠ seed') :
    ∃ n, (ofSeed seed).word n ≠ (ofSeed seed').word n := by
  by_contra hsame
  have hwords : (ofSeed seed).word = (ofSeed seed').word := by
    funext n
    exact not_not.1 (not_exists.1 hsame n)
  exact h (ofSeed_injective (word_injective hwords))

/-- Two seeds whose generators are half a period apart. -/
theorem streams_differ_highest_bit :
    (⟨#[0, 0, 0, 0, 0, 0, 0, 0], rfl⟩ : Seed) ≠ ⟨#[0, 0, 0, 0, 0, 0, 0, 128], rfl⟩ ∧
      ∃ n, (ofSeed ⟨#[0, 0, 0, 0, 0, 0, 0, 0], rfl⟩).word n ≠
        (ofSeed ⟨#[0, 0, 0, 0, 0, 0, 0, 128], rfl⟩).word n :=
  ⟨by decide, streams_differ (by decide)⟩

end Pcg

end Subsumption
