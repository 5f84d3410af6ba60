import Xv6.Congruential

/-! `sys_random` of `kernel/sysutil.c`: one 32-bit word of state, seeded from the tick counter. -/
namespace Xv6

open Function

def lcgStep (lcgState : BitVec 32) : BitVec 32 :=
  (1103515245 * lcgState + 12345) &&& 0x7fffffff

def Unseeded (lcgState : BitVec 32) : Prop := lcgState = 1

instance (lcgState : BitVec 32) : Decidable (Unseeded lcgState) :=
  inferInstanceAs (Decidable (lcgState = 1))

/-- One call at the tick value `ticks`: the value returned and the new state. -/
def sysRandom (ticks lcgState : BitVec 32) : BitVec 64 × BitVec 32 :=
  let lcgState := if Unseeded lcgState then ticks + 1 else lcgState
  let lcgState := lcgStep lcgState
  (lcgState.setWidth 64, lcgState)

def lcgInit : BitVec 32 := 1

/-- The state after calls at the tick values `ts`, from the boot of the machine. -/
def lcgAfter (ts : List (BitVec 32)) : BitVec 32 :=
  ts.foldl (fun lcgState ticks => (sysRandom ticks lcgState).2) lcgInit

def returned (ts : List (BitVec 32)) (n : ℕ) : BitVec 64 :=
  (sysRandom (ts.getD n 0) (lcgAfter (ts.take n))).1

lemma toNat_lcgStep (x : BitVec 32) :
    (lcgStep x).toNat = Congruential.next 1103515245 12345 31 x.toNat := by
  have hmask : ∀ n : ℕ, n &&& 2147483647 = n % 2 ^ 31 := fun n =>
    Nat.and_two_pow_sub_one_eq_mod n 31
  unfold lcgStep Congruential.next
  rw [BitVec.toNat_and, BitVec.toNat_add]
  change ((1103515245 * x.toNat) % 2 ^ 32 + 12345) % 2 ^ 32 &&& 2147483647 = _
  rw [hmask]
  omega

lemma toNat_iterate_lcgStep (n : ℕ) (x : BitVec 32) :
    (lcgStep^[n] x).toNat = (Congruential.next 1103515245 12345 31)^[n] x.toNat :=
  (Semiconj.iterate_right (f := BitVec.toNat) toNat_lcgStep n) x

lemma lcgStep_lt (x : BitVec 32) : (lcgStep x).toNat < 2 ^ 31 := by
  rw [toNat_lcgStep]
  exact Congruential.next_lt _ _ _ _

lemma exists_unique_lcgStep {x y : BitVec 32} (hx : x.toNat < 2 ^ 31) (hy : y.toNat < 2 ^ 31) :
    ∃! n, (0 < n ∧ n ≤ 2 ^ 31) ∧ lcgStep^[n] x = y := by
  have hnat : ∀ n, lcgStep^[n] x = y ↔
      (Congruential.next 1103515245 12345 31)^[n] x.toNat = y.toNat := by
    intro n
    rw [← BitVec.toNat_inj, toNat_iterate_lcgStep]
  simp only [hnat]
  exact Congruential.exists_unique_step (m := 30) rfl rfl hx hy

lemma iterate_lcgStep_period {x : BitVec 32} (hx : x.toNat < 2 ^ 31) :
    lcgStep^[2 ^ 31] x = x := by
  rw [← BitVec.toNat_inj, toNat_iterate_lcgStep]
  exact Congruential.iterate_period (m := 30) rfl rfl hx

/-- The step is a permutation of the numbers below `2 ^ 31` with a single cycle: from every start
value, `2 ^ 31` successive steps visit every value exactly once. -/
theorem random_full_period :
    Set.BijOn lcgStep {x | x.toNat < 2 ^ 31} {x | x.toNat < 2 ^ 31} ∧
      ∀ x y : BitVec 32, x.toNat < 2 ^ 31 → y.toNat < 2 ^ 31 →
        ∃! n, (0 < n ∧ n ≤ 2 ^ 31) ∧ lcgStep^[n] x = y := by
  -- a value is what the remaining steps of its cycle make of its successor
  have hback : ∀ x : BitVec 32, x.toNat < 2 ^ 31 → lcgStep^[2147483647] (lcgStep x) = x := by
    intro x hx
    rw [← iterate_succ_apply]
    exact iterate_lcgStep_period hx
  refine ⟨⟨fun x _ => lcgStep_lt x, ?_, ?_⟩, fun x y hx hy => exists_unique_lcgStep hx hy⟩
  · intro x hx x' hx' heq
    rw [← hback x hx, heq, hback x' hx']
  · intro y hy
    refine ⟨lcgStep^[2147483647] y, ?_, ?_⟩
    · change (lcgStep^[2147483646 + 1] y).toNat < 2 ^ 31
      rw [iterate_succ_apply']
      exact lcgStep_lt _
    · rw [← iterate_succ_apply' lcgStep]
      exact iterate_lcgStep_period hy

theorem random_full_period_zero :
    ∃! n, (0 < n ∧ n ≤ 2 ^ 31) ∧ lcgStep^[n] 0 = 5 :=
  random_full_period.2 0 5 (by decide) (by decide)

/-- The state is seeded by the first call of a run only, and every later call returns the
generator's formula of the value returned before. -/
structure SeededOnce (ts : List (BitVec 32)) : Prop where
  branch : ∀ n, n < ts.length → (Unseeded (lcgAfter (ts.take n)) ↔ n = 0)
  values : ∀ n, n + 1 < ts.length →
    (returned ts (n + 1)).toNat = (1103515245 * (returned ts n).toNat + 12345) % 2 ^ 31

variable {ts : List (BitVec 32)} {n : ℕ}

lemma lcgAfter_take (hn : n < ts.length) :
    lcgAfter (ts.take (n + 1)) = (sysRandom (ts.getD n 0) (lcgAfter (ts.take n))).2 := by
  unfold lcgAfter
  rw [List.take_add_one, List.foldl_append, List.getElem?_eq_getElem hn,
    List.getD_eq_getElem _ _ hn]
  rfl

lemma toNat_returned (hn : n < ts.length) :
    (returned ts n).toNat = (lcgAfter (ts.take (n + 1))).toNat := by
  rw [lcgAfter_take hn]
  unfold returned sysRandom
  dsimp only
  rw [BitVec.toNat_setWidth]
  omega

lemma lcgAfter_eq_iterate (hn : n < ts.length)
    (h : ∀ k, 0 < k → k ≤ n → lcgStep^[k] (ts.getD 0 0 + 1) ≠ 1) :
    lcgAfter (ts.take (n + 1)) = lcgStep^[n + 1] (ts.getD 0 0 + 1) := by
  induction n with
  | zero =>
    rw [lcgAfter_take hn]
    rfl
  | succ n ih =>
    have hprev := ih (by omega) fun k h0 hk => h k h0 (by omega)
    have hseeded : ¬ Unseeded (lcgStep^[n + 1] (ts.getD 0 0 + 1)) :=
      h (n + 1) (Nat.succ_pos n) le_rfl
    rw [lcgAfter_take hn, hprev]
    unfold sysRandom
    rw [if_neg hseeded, iterate_succ_apply' lcgStep (n + 1)]

lemma SeededOnce.iterate_ne (h : SeededOnce ts) (h0 : 0 < n)
    (hn : n < ts.length) : lcgStep^[n] (ts.getD 0 0 + 1) ≠ 1 := by
  induction n using Nat.strong_induction_on with
  | _ n ih =>
    intro heq
    obtain ⟨m, rfl⟩ := Nat.exists_eq_succ_of_ne_zero h0.ne'
    have hstate : lcgAfter (ts.take (m + 1)) = lcgStep^[m + 1] (ts.getD 0 0 + 1) :=
      lcgAfter_eq_iterate (by omega) fun k hk hkm => ih k (by omega) hk (by omega)
    exact absurd ((h.branch _ hn).mp (hstate.trans heq)) (Nat.succ_ne_zero m)

/-- A run is seeded once exactly if the steps from the first call's tick value plus one do not come
back to the marker 1 before the run's last call. -/
theorem random_seeded_once_iff (ts : List (BitVec 32)) :
    SeededOnce ts ↔ ∀ n, 0 < n → n < ts.length → lcgStep^[n] (ts.getD 0 0 + 1) ≠ 1 := by
  constructor
  · exact fun h n => h.iterate_ne
  · intro h
    have hseeded : ∀ n, n + 1 < ts.length → ¬ Unseeded (lcgAfter (ts.take (n + 1))) := by
      intro n hn
      rw [lcgAfter_eq_iterate (by omega) fun k hk hkn => h k hk (by omega)]
      exact h (n + 1) (Nat.succ_pos n) hn
    refine ⟨?_, ?_⟩
    · intro n hn
      cases n with
      | zero => exact iff_of_true rfl rfl
      | succ n => exact iff_of_false (hseeded n hn) (Nat.succ_ne_zero n)
    · intro n hn
      rw [toNat_returned hn, toNat_returned (by omega), lcgAfter_take hn]
      unfold sysRandom
      rw [if_neg (hseeded n hn), toNat_lcgStep]
      rfl

theorem random_seeded_once_three : SeededOnce [0, 5, 9] := by
  refine (random_seeded_once_iff [0, 5, 9]).mpr fun n h0 hn => ?_
  have hn3 : n < 3 := hn
  interval_cases n <;> decide

/-- The second of these two calls takes its seed from the ticks again. -/
theorem random_reseeded : ¬ SeededOnce [1798410727, 1] := by
  intro h
  have hback : Unseeded (lcgAfter ([1798410727, 1].take 1)) := by decide
  exact absurd ((h.branch 1 (by decide)).mp hback) (by decide)

end Xv6
