import Mathlib

/-! Linear congruential generators modulo a power of two. With a multiplier that is 1 modulo 4 and
an odd increment, the numbers below the modulus are one cycle. -/
namespace Xv6.Congruential

open Function Finset

variable {a c m n k x y : ℕ}

def next (a c m x : ℕ) : ℕ := (a * x + c) % 2 ^ m

def geom (a n : ℕ) : ℕ := ∑ i ∈ range n, a ^ i

theorem next_lt (a c m x : ℕ) : next a c m x < 2 ^ m := Nat.mod_lt _ (by positivity)

lemma iterate_lt (hx : x < 2 ^ m) (n : ℕ) : (next a c m)^[n] x < 2 ^ m := by
  cases n with
  | zero => exact hx
  | succ n =>
    rw [iterate_succ_apply']
    exact next_lt _ _ _ _

lemma geom_succ (a n : ℕ) : geom a (n + 1) = a * geom a n + 1 := by
  unfold geom
  rw [sum_range_succ', mul_sum]
  congr 1
  refine sum_congr rfl fun i _ => ?_
  rw [pow_succ, mul_comm]

lemma geom_double (a n : ℕ) : geom a (2 * n) = geom a n * (a ^ n + 1) := by
  unfold geom
  rw [two_mul, sum_range_add, mul_add, mul_one, add_comm]
  congr 1
  rw [sum_mul]
  refine sum_congr rfl fun i _ => ?_
  rw [pow_add, mul_comm]

lemma iterate_modEq (a c m n x : ℕ) :
    (next a c m)^[n] x ≡ a ^ n * x + c * geom a n [MOD 2 ^ m] := by
  induction n with
  | zero =>
    have h : a ^ 0 * x + c * geom a 0 = x := by simp [geom]
    rw [h]
    rfl
  | succ n ih =>
    rw [iterate_succ_apply']
    have hstep : next a c m ((next a c m)^[n] x) ≡
        a * (a ^ n * x + c * geom a n) + c [MOD 2 ^ m] := by
      exact (Nat.mod_modEq _ _).trans ((ih.mul_left a).add_right c)
    rw [geom_succ]
    convert hstep using 1
    ring

lemma pow_mod_four (ha : a % 4 = 1) (n : ℕ) : a ^ n % 4 = 1 := by
  rw [Nat.pow_mod, ha, one_pow]
  rfl

lemma geom_two_pow (ha : a % 4 = 1) (k : ℕ) : ∃ u, geom a (2 ^ k) = 2 ^ k * (2 * u + 1) := by
  induction k with
  | zero => exact ⟨0, by simp [geom]⟩
  | succ k ih =>
    obtain ⟨u, hu⟩ := ih
    obtain ⟨v, hv⟩ : ∃ v, a ^ 2 ^ k + 1 = 2 * (2 * v + 1) := by
      have h := pow_mod_four ha (2 ^ k)
      exact ⟨a ^ 2 ^ k / 4, by omega⟩
    refine ⟨2 * u * v + u + v, ?_⟩
    rw [pow_succ', geom_double, hu, hv]
    ring

lemma pow_eq_geom (ha : 0 < a) (n : ℕ) : a ^ n = (a - 1) * geom a n + 1 := by
  induction n with
  | zero => simp [geom]
  | succ n ih =>
    obtain ⟨b, rfl⟩ := Nat.exists_eq_add_of_le' ha
    rw [Nat.add_sub_cancel] at ih ⊢
    rw [pow_succ, geom_succ, ih]
    ring

section
variable (ha : a % 4 = 1) (hc : c % 2 = 1)
include ha hc

lemma iterate_two_pow (k x : ℕ) :
    ∃ u, (next a c m)^[2 ^ k] x ≡ x + 2 ^ k * (2 * u + 1) [MOD 2 ^ m] := by
  have hpos : 0 < a := by omega
  obtain ⟨u, hu⟩ := geom_two_pow ha k
  obtain ⟨v, hv⟩ : ∃ v, (a - 1) * x + c = 2 * v + 1 := by
    obtain ⟨b, hb⟩ : ∃ b, a - 1 = 4 * b := ⟨a / 4, by omega⟩
    refine ⟨2 * b * x + c / 2, ?_⟩
    have hx : 4 * b * x = 2 * (2 * b * x) := by ring
    rw [hb]
    omega
  refine ⟨2 * u * v + u + v, ?_⟩
  have hform : a ^ 2 ^ k * x + c * geom a (2 ^ k) = x + 2 ^ k * (2 * (2 * u * v + u + v) + 1) := by
    calc a ^ 2 ^ k * x + c * geom a (2 ^ k)
        = x + geom a (2 ^ k) * ((a - 1) * x + c) := by
          rw [pow_eq_geom hpos]
          ring
      _ = x + 2 ^ k * (2 * (2 * u * v + u + v) + 1) := by
          rw [hu, hv]
          ring
  rw [← hform]
  exact iterate_modEq a c m (2 ^ k) x

lemma minimalPeriod_next (hx : x < 2 ^ (m + 1)) :
    minimalPeriod (next a c (m + 1)) x = 2 ^ (m + 1) := by
  refine minimalPeriod_eq_prime_pow ?_ ?_
  · intro hper
    obtain ⟨u, hu⟩ := iterate_two_pow (m := m + 1) ha hc m x
    rw [hper.eq] at hu
    have hdvd : 2 ^ (m + 1) ∣ 2 ^ m * (2 * u + 1) := by
      have hd := (Nat.modEq_iff_dvd' (Nat.le_add_right x _)).mp hu
      rwa [Nat.add_sub_cancel_left] at hd
    rw [pow_succ] at hdvd
    have hodd := Nat.dvd_of_mul_dvd_mul_left (by positivity) hdvd
    omega
  · obtain ⟨u, hu⟩ := iterate_two_pow (m := m + 1) ha hc (m + 1) x
    have hself : (next a c (m + 1))^[2 ^ (m + 1)] x ≡ x [MOD 2 ^ (m + 1)] := by
      refine hu.trans ?_
      rw [Nat.ModEq, Nat.add_mul_mod_self_left]
    exact Nat.ModEq.eq_of_lt_of_lt hself (iterate_lt hx _) hx

theorem iterate_period (hx : x < 2 ^ (m + 1)) : (next a c (m + 1))^[2 ^ (m + 1)] x = x := by
  rw [← minimalPeriod_next ha hc hx]
  exact iterate_minimalPeriod

theorem exists_unique_step (hx : x < 2 ^ (m + 1)) (hy : y < 2 ^ (m + 1)) :
    ∃! n, (0 < n ∧ n ≤ 2 ^ (m + 1)) ∧ (next a c (m + 1))^[n] x = y := by
  have hper := minimalPeriod_next ha hc hx
  have hinj := iterate_injOn_Iio_minimalPeriod (f := next a c (m + 1)) (x := x)
  rw [hper] at hinj
  -- the iterates below the modulus are as many as the numbers below it
  have hsurj : Set.SurjOn (fun n => (next a c (m + 1))^[n] x) (range (2 ^ (m + 1)))
      (range (2 ^ (m + 1))) :=
    surjOn_of_injOn_of_card_le _ (fun n _ => by simpa using iterate_lt hx n)
      (by rw [coe_range]; exact hinj) le_rfl
  have hend := iterate_period ha hc hx
  obtain ⟨n, hn, hny⟩ := hsurj (by simpa using hy)
  simp only [coe_range, Set.mem_Iio] at hn
  dsimp only at hny
  have hpos : 0 < 2 ^ (m + 1) := by positivity
  refine ⟨if n = 0 then 2 ^ (m + 1) else n, ⟨?_, ?_⟩, ?_⟩
  · split_ifs <;> omega
  · split_ifs with h0
    · rw [hend, ← hny, h0]
      rfl
    · exact hny
  · rintro n' ⟨⟨h0, hle⟩, hn'⟩
    rcases Nat.eq_or_lt_of_le hle with heq | hlt'
    · subst heq
      have h0 : n = 0 := hinj hn hpos (by
        change (next a c (m + 1))^[n] x = (next a c (m + 1))^[0] x
        rw [hny, ← hn', hend]
        rfl)
      rw [if_pos h0]
    · have heq : n' = n := hinj hlt' hn (hn'.trans hny.symm)
      rw [if_neg (by omega), heq]

end

end Xv6.Congruential
