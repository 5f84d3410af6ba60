import Xv6.Block

/-! `memmove` of `kernel/string.c` and of `user/ulib.c`: two tests for the direction of the
copy, one effect. -/
namespace Xv6

open Function

section copies
variable {A B : Type} [DecidableEq A] {m : A → B} {p q : ℕ → A} {n : ℕ}

def copySeq (m : A → B) (p q : ℕ → A) : ℕ → A → B
  | 0 => m
  | n + 1 => update (copySeq m p q n) (p n) (copySeq m p q n (q n))

theorem copySeq_frame {a : A} (h : ∀ i < n, a ≠ p i) : copySeq m p q n a = m a := by
  induction n with
  | zero => rfl
  | succ n ih =>
    rw [copySeq, update_of_ne (h n n.lt_succ_self)]
    exact ih fun i hi => h i (by omega)

/-- A copy that reads no place it has already stored to moves the old contents. -/
theorem copySeq_apply (hp : ∀ i j, i < j → j < n → p i ≠ p j)
    (hq : ∀ i j, i < j → j < n → q j ≠ p i) {i : ℕ} (hi : i < n) :
    copySeq m p q n (p i) = m (q i) := by
  induction n with
  | zero => omega
  | succ n ih =>
    rw [copySeq]
    by_cases hin : i = n
    · subst hin
      rw [update_self]
      exact copySeq_frame fun j hj => hq j i hj (by omega)
    · rw [update_of_ne (hp i n (by omega) (by omega))]
      apply ih
      · intro i j hij hj
        exact hp i j hij (by omega)
      · intro i j hij hj
        exact hq i j hij (by omega)
      · omega

end copies

abbrev Addr := BitVec 64

abbrev Mem := Addr → Byte

def copyForward (m : Mem) (d s : Addr) : ℕ → Mem
  | 0 => m
  | n + 1 => copyForward (update m d (m s)) (d + 1) (s + 1) n

def copyBackward (m : Mem) (d s : Addr) : ℕ → Mem
  | 0 => m
  | n + 1 => copyBackward (update m (d - 1) (m (s - 1))) (d - 1) (s - 1) n

def memmove (m : Mem) (dst src : Addr) (n : BitVec 32) : Addr × Mem :=
  if n = 0 then (dst, m)
  else if src < dst ∧ dst < src + n.setWidth 64 then
    (dst, copyBackward m (dst + n.setWidth 64) (src + n.setWidth 64) n.toNat)
  else (dst, copyForward m dst src n.toNat)

def Ulib.memmove (m : Mem) (vdst vsrc : Addr) (n : BitVec 32) : Addr × Mem :=
  if vdst < vsrc then (vdst, copyForward m vdst vsrc n.toInt.toNat)
  else (vdst, copyBackward m (vdst + n.signExtend 64) (vsrc + n.signExtend 64) n.toInt.toNat)

/-- The `n` bytes from `dst` on are those that were at `src`, the others are as before. -/
def Moved (dst src : Addr) (n : ℕ) (m m' : Mem) : Prop :=
  (∀ i < n, m' (dst + .ofNat 64 i) = m (src + .ofNat 64 i)) ∧
    ∀ a, (∀ i < n, a ≠ dst + .ofNat 64 i) → m' a = m a

section loops
variable {m m' m'' : Mem} {d s dst src : Addr} {n : ℕ}

theorem Moved.unique (h : Moved dst src n m m') (h' : Moved dst src n m m'') : m' = m'' := by
  funext a
  by_cases ha : ∃ i < n, a = dst + .ofNat 64 i
  · obtain ⟨i, hi, rfl⟩ := ha
    rw [h.1 i hi, h'.1 i hi]
  · push Not at ha
    rw [h.2 a ha, h'.2 a ha]

lemma ofNat_succ_add (a : Addr) (n : ℕ) : a + 1 + .ofNat 64 n = a + .ofNat 64 (n + 1) := by
  bv_omega

theorem copyForward_eq : copyForward m d s n =
    copySeq m (fun i => d + .ofNat 64 i) (fun i => s + .ofNat 64 i) n := by
  -- the loop stores at its head, `copySeq` at its end
  have hsnoc : ∀ n m d s, copyForward m d s (n + 1) =
      update (copyForward m d s n) (d + .ofNat 64 n) (copyForward m d s n (s + .ofNat 64 n)) := by
    intro n
    induction n with
    | zero =>
      intro m d s
      simp [copyForward]
    | succ n ih =>
      intro m d s
      rw [copyForward, ih, ofNat_succ_add, ofNat_succ_add]
      rfl
  induction n with
  | zero => rfl
  | succ n ih => rw [hsnoc, ih, copySeq]

theorem copyBackward_eq : copyBackward m d s n =
    copySeq m (fun i => d - 1 - .ofNat 64 i) (fun i => s - 1 - .ofNat 64 i) n := by
  have hsnoc : ∀ n m d s, copyBackward m d s (n + 1) =
      update (copyBackward m d s n) (d - 1 - .ofNat 64 n)
        (copyBackward m d s n (s - 1 - .ofNat 64 n)) := by
    intro n
    induction n with
    | zero =>
      intro m d s
      simp [copyBackward]
    | succ n ih =>
      intro m d s
      have hpred : ∀ a : Addr, a - 1 - 1 - .ofNat 64 n = a - 1 - .ofNat 64 (n + 1) := by
        intro a
        bv_omega
      rw [copyBackward, ih, hpred, hpred]
      rfl
  induction n with
  | zero => rfl
  | succ n ih => rw [hsnoc, ih, copySeq]

lemma toNat_add_ofNat {a : Addr} {i : ℕ} (h : a.toNat + i < 2 ^ 64) :
    (a + .ofNat 64 i).toNat = a.toNat + i := by
  rw [BitVec.toNat_add, BitVec.toNat_ofNat, Nat.mod_eq_of_lt (by omega : i < 2 ^ 64),
    Nat.mod_eq_of_lt h]

lemma add_ofNat_ne {a b : Addr} {i j : ℕ} (ha : a.toNat + i < 2 ^ 64) (hb : b.toNat + j < 2 ^ 64)
    (h : a.toNat + i ≠ b.toNat + j) : a + .ofNat 64 i ≠ b + .ofNat 64 j := by
  intro he
  have hnat := congrArg BitVec.toNat he
  rw [toNat_add_ofNat ha, toNat_add_ofNat hb] at hnat
  exact h hnat

lemma add_sub_ofNat (a : Addr) {i : ℕ} (hi : i < n) :
    a + .ofNat 64 n - 1 - .ofNat 64 i = a + .ofNat 64 (n - 1 - i) := by
  obtain ⟨k, rfl⟩ : ∃ k, n = i + 1 + k := ⟨n - (i + 1), by omega⟩
  rw [show i + 1 + k - 1 - i = k by omega, BitVec.ofNat_add, BitVec.ofNat_add,
    show BitVec.ofNat 64 1 = (1 : Addr) from rfl]
  ring

section ranges
variable (hs : src.toNat + n ≤ 2 ^ 64) (hd : dst.toNat + n ≤ 2 ^ 64)
include hs hd

theorem copyForward_moved (h : dst.toNat ≤ src.toNat ∨ src.toNat + n ≤ dst.toNat) :
    Moved dst src n m (copyForward m dst src n) := by
  rw [copyForward_eq]
  constructor
  · intro i hi
    apply copySeq_apply _ _ hi
    · intro i j hij hj
      exact add_ofNat_ne (by omega) (by omega) (by omega)
    · intro i j hij hj
      exact add_ofNat_ne (by omega) (by omega) (by omega)
  · intro a ha
    exact copySeq_frame ha

/-- Copying downwards is right unless the source starts inside the destination. -/
theorem copyBackward_moved (h : src.toNat ≤ dst.toNat) :
    Moved dst src n m (copyBackward m (dst + .ofNat 64 n) (src + .ofNat 64 n) n) := by
  rw [copyBackward_eq]
  constructor
  · intro i hi
    have hi' : n - 1 - i < n := by omega
    have hback : n - 1 - (n - 1 - i) = i := by omega
    have hmove := copySeq_apply (m := m) (n := n) (p := fun i => dst + .ofNat 64 n - 1 - .ofNat 64 i)
      (q := fun i => src + .ofNat 64 n - 1 - .ofNat 64 i) ?_ ?_ hi'
    · rwa [add_sub_ofNat dst hi', add_sub_ofNat src hi', hback] at hmove
    · intro i j hij hj
      rw [add_sub_ofNat dst hj, add_sub_ofNat dst (hij.trans hj)]
      exact add_ofNat_ne (by omega) (by omega) (by omega)
    · intro i j hij hj
      rw [add_sub_ofNat src hj, add_sub_ofNat dst (hij.trans hj)]
      exact add_ofNat_ne (by omega) (by omega) (by omega)
  · intro a ha
    apply copySeq_frame
    intro i hi
    rw [add_sub_ofNat dst hi]
    exact ha _ (by omega)

end ranges

end loops

section memmove
variable (m : Mem) (dst src : Addr) (n : BitVec 32)

lemma memmove_moved (hs : src.toNat + n.toNat ≤ 2 ^ 64) (hd : dst.toNat + n.toNat ≤ 2 ^ 64) :
    Moved dst src n.toNat m (memmove m dst src n).2 := by
  have hw : n.setWidth 64 = .ofNat 64 n.toNat := by simp
  unfold memmove
  split_ifs with h0 hlap
  · simp [h0, Moved]
  · rw [hw]
    exact copyBackward_moved hs hd (by bv_omega)
  · apply copyForward_moved hs hd
    bv_omega

lemma ulib_memmove_moved (h0 : 0 ≤ n.toInt) (hs : src.toNat + n.toNat ≤ 2 ^ 64)
    (hd : dst.toNat + n.toNat ≤ 2 ^ 64) :
    Moved dst src n.toNat m (Ulib.memmove m dst src n).2 := by
  have hmsb : n.msb = false := by
    simp [BitVec.msb_eq_toInt, h0]
  have hnat : n.toInt.toNat = n.toNat := by
    simp [BitVec.toInt_eq_toNat_of_msb hmsb]
  have hw : n.signExtend 64 = .ofNat 64 n.toNat := by
    rw [BitVec.signExtend_eq_setWidth_of_msb_false hmsb]
    simp
  unfold Ulib.memmove
  rw [hnat, hw]
  split_ifs with hlt
  · exact copyForward_moved hs hd (.inl (by bv_omega))
  · exact copyBackward_moved hs hd (by bv_omega)

/-- Both return `dst` and move the bytes, whatever the overlap; so they agree where both
read `n` alike. -/
theorem memmove_both (hs : src.toNat + n.toNat ≤ 2 ^ 64) (hd : dst.toNat + n.toNat ≤ 2 ^ 64) :
    ((memmove m dst src n).1 = dst ∧ Moved dst src n.toNat m (memmove m dst src n).2) ∧
      (0 ≤ n.toInt →
        (Ulib.memmove m dst src n).1 = dst ∧ Moved dst src n.toNat m (Ulib.memmove m dst src n).2 ∧
          Ulib.memmove m dst src n = memmove m dst src n) := by
  have hk : (memmove m dst src n).1 = dst := by
    unfold memmove
    split_ifs <;> rfl
  have hu : (Ulib.memmove m dst src n).1 = dst := by
    unfold Ulib.memmove
    split_ifs <;> rfl
  have hkm := memmove_moved m dst src n hs hd
  refine ⟨⟨hk, hkm⟩, fun h0 => ?_⟩
  have hum := ulib_memmove_moved m dst src n h0 hs hd
  exact ⟨hu, hum, Prod.ext (hu.trans hk.symm) (hum.unique hkm)⟩

end memmove

theorem memmove_both_overlap :
    Moved 2 1 3 (fun a => a.setWidth 8) (memmove (fun a => a.setWidth 8) 2 1 3).2 ∧
      Ulib.memmove (fun a => a.setWidth 8) 2 1 3 = memmove (fun a => a.setWidth 8) 2 1 3 := by
  have h := memmove_both (fun a => a.setWidth 8) 2 1 3 (by decide) (by decide)
  exact ⟨h.1.2, (h.2 (by decide)).2.2⟩

end Xv6
