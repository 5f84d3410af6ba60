import Xv6.Basic

/-! Disk blocks and the little-endian 32-bit fields in them. -/
namespace Xv6

abbrev Byte := BitVec 8

abbrev Block := Fin bsize → Byte

namespace Block

def byte (d : Block) (i : ℕ) : Byte := if h : i < bsize then d ⟨i, h⟩ else 0

def get32 (d : Block) (off : ℕ) : BitVec 32 :=
  d.byte (off + 3) ++ d.byte (off + 2) ++ d.byte (off + 1) ++ d.byte off

def put32 (d : Block) (off : ℕ) (w : BitVec 32) : Block := fun i =>
  if off ≤ i.val ∧ i.val < off + 4 then w.extractLsb' (8 * (i.val - off)) 8 else d i

section
variable (d : Block) (w : BitVec 32)
include d w

lemma byte_put32_of_lt {off i : ℕ} (h : i < off ∨ off + 4 ≤ i) :
    (d.put32 off w).byte i = d.byte i := by
  unfold byte
  split
  · unfold put32
    rw [if_neg]
    simp only
    omega
  · rfl

theorem byte_put32 {off k : ℕ} (hk : k < 4) (h : off + 4 ≤ bsize) :
    (d.put32 off w).byte (off + k) = w.extractLsb' (8 * k) 8 := by
  have hlt : off + k < bsize := by omega
  unfold byte
  rw [dif_pos hlt]
  unfold put32
  rw [if_pos (by simp only; omega)]
  congr 2
  simp only
  omega

theorem get32_put32 {off : ℕ} (h : off + 4 ≤ bsize) : (d.put32 off w).get32 off = w := by
  have h0 : (d.put32 off w).byte off = w.extractLsb' 0 8 := by
    simpa using byte_put32 d (k := 0) w (by omega) h
  unfold get32
  rw [h0, byte_put32 d w (by omega) h, byte_put32 d w (by omega) h,
    byte_put32 d w (by omega) h]
  apply BitVec.eq_of_getLsbD_eq
  intro i hi
  simp only [BitVec.getLsbD_append]
  rcases (by omega : i < 8 ∨ 8 ≤ i ∧ i < 16 ∨ 16 ≤ i ∧ i < 24 ∨ 24 ≤ i ∧ i < 32) with
    h1 | h1 | h1 | h1
  · simp [h1]
  · have e1 : ¬ i < 8 := by omega
    have e2 : i - 8 < 8 := by omega
    simp [e1, e2]
    congr 1
    omega
  · have e1 : ¬ i < 8 := by omega
    have e2 : ¬ i - 8 < 8 := by omega
    have e3 : i - 8 - 8 < 8 := by omega
    simp [e1, e2, e3]
    congr 1
    omega
  · have e1 : ¬ i < 8 := by omega
    have e2 : ¬ i - 8 < 8 := by omega
    have e3 : ¬ i - 8 - 8 < 8 := by omega
    have e4 : i - 8 - 8 - 8 < 8 := by omega
    simp [e1, e2, e3, e4]
    congr 1
    omega

theorem get32_put32_of_disjoint {off off' : ℕ} (h : off + 4 ≤ off' ∨ off' + 4 ≤ off) :
    (d.put32 off' w).get32 off = d.get32 off := by
  unfold get32
  rw [byte_put32_of_lt _ _ (by omega), byte_put32_of_lt _ _ (by omega),
    byte_put32_of_lt _ _ (by omega), byte_put32_of_lt _ _ (by omega)]

end

end Block

theorem getD_flatMap {α β : Type} {f : α → List β} {l : List α} {m i k : ℕ} {d : β}
    (hlen : ∀ a, (f a).length = m) (hi : i < l.length) (hk : k < m) (a : α) :
    (l.flatMap f).getD (i * m + k) d = (f (l.getD i a)).getD k d := by
  induction l generalizing i with
  | nil => cases hi
  | cons x l ih =>
    rw [List.flatMap_cons]
    cases i with
    | zero =>
      rw [Nat.zero_mul, Nat.zero_add, List.getD_append _ _ _ _ (by rw [hlen]; exact hk)]
      rfl
    | succ i =>
      have hpast : (i + 1) * m + k - m = i * m + k := by
        rw [Nat.succ_mul]
        omega
      rw [List.getD_append_right _ _ _ _ (by rw [hlen, Nat.succ_mul]; omega), hlen, hpast,
        ih (Nat.lt_of_succ_lt_succ hi)]
      rfl

end Xv6
