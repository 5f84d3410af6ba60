import Mathlib

/-! Ring buffers with two counters that wrap around. The size divides the range of the counters,
so a counter names the same slot before and after it wraps. -/
namespace Xv6.Ring

open Function List

variable {α : Type*} {bits size : ℕ} [NeZero size] {data : Fin size → α} {r w : BitVec bits}

def slot (size : ℕ) [NeZero size] (x : BitVec bits) : Fin size := Fin.ofNat size x.toNat

inductive Op (α : Type*)
  | put (a : α)
  | take (a : α)
  deriving DecidableEq, Repr

def serve [DecidableEq α] (size : ℕ) (q : List α) : Op α → Option (List α)
  | .put a => if q.length < size then some (q ++ [a]) else none
  | .take a => if q.head? = some a then some q.tail else none

def count (r w : BitVec bits) : ℕ := (w - r).toNat

def contents (data : Fin size → α) (r w : BitVec bits) : List α :=
  (range (count r w)).map fun j => data (slot size (r + BitVec.ofNat bits j))

theorem count_eq {n : ℕ} (hn : n < 2 ^ bits) : count r w = n ↔ w = r + BitVec.ofNat bits n := by
  unfold count
  constructor
  · rintro rfl
    rw [BitVec.ofNat_toNat, BitVec.setWidth_eq, BitVec.add_comm, BitVec.sub_add_cancel]
  · rintro rfl
    rw [BitVec.add_comm, BitVec.add_sub_cancel, BitVec.toNat_ofNat, Nat.mod_eq_of_lt hn]

lemma add_count (r w : BitVec bits) : r + BitVec.ofNat bits (count r w) = w :=
  ((count_eq (BitVec.isLt _)).mp rfl).symm

theorem count_eq_zero : count r w = 0 ↔ r = w := by
  rw [count_eq (Nat.two_pow_pos bits), BitVec.add_zero, eq_comm]

theorem count_succ (h : count r w + 1 < 2 ^ bits) : count r (w + 1) = count r w + 1 := by
  have hone : (1 : BitVec bits) = BitVec.ofNat bits 1 := rfl
  refine (count_eq h).mpr ?_
  rw [BitVec.ofNat_add, ← BitVec.add_assoc, ← hone, ← (count_eq (by omega)).mp rfl]

theorem count_pred (h : r ≠ w) : count r w = count (r + 1) w + 1 := by
  have hpos : 0 < count r w := Nat.pos_of_ne_zero fun h0 => h (count_eq_zero.mp h0)
  have hlt : count r w < 2 ^ bits := BitVec.isLt _
  have hone : (1 : BitVec bits) = BitVec.ofNat bits 1 := rfl
  have hw := (count_eq hlt).mp (rfl : count r w = count r w)
  have hrest : count (r + 1) w = count r w - 1 := by
    refine (count_eq (by omega)).mpr ?_
    rw [hone, BitVec.add_assoc, ← BitVec.ofNat_add, Nat.add_sub_cancel' hpos]
    exact hw
  omega

lemma count_pred_right (h : r ≠ w) : count r w = count r (w - 1) + 1 := by
  have hpos : 0 < count r w := Nat.pos_of_ne_zero fun h0 => h (count_eq_zero.mp h0)
  have hlt : count r w < 2 ^ bits := BitVec.isLt _
  have hone : (1 : BitVec bits) = BitVec.ofNat bits 1 := rfl
  have hw := (count_eq hlt).mp (rfl : count r w = count r w)
  have hrest : count r (w - 1) = count r w - 1 := by
    refine (count_eq (by omega)).mpr ?_
    refine BitVec.sub_eq_iff_eq_add.mpr ?_
    rw [hone, BitVec.add_assoc, ← BitVec.ofNat_add, Nat.sub_add_cancel hpos]
    exact hw
  omega

theorem count_add {m : BitVec bits} (h : count r m + count m w < 2 ^ bits) :
    count r w = count r m + count m w := by
  refine (count_eq h).mpr ?_
  rw [BitVec.ofNat_add, ← BitVec.add_assoc, add_count, add_count]

lemma slot_ne (hdvd : size ∣ 2 ^ bits) {i j : ℕ} (hij : i < j) (hj : j < size)
    (x : BitVec bits) :
    slot size (x + BitVec.ofNat bits i) ≠ slot size (x + BitVec.ofNat bits j) := by
  intro h
  have hmod : ∀ n, (x + BitVec.ofNat bits n).toNat % size = (x.toNat + n) % size := by
    intro n
    rw [BitVec.toNat_add, BitVec.toNat_ofNat, Nat.add_mod_mod, Nat.mod_mod_of_dvd _ hdvd]
  have hval := congrArg Fin.val h
  simp only [slot, Fin.val_ofNat] at hval
  rw [hmod, hmod] at hval
  have hdiff := (Nat.modEq_iff_dvd.mp hval)
  have hle := Int.le_of_dvd (by omega) hdiff
  omega

theorem contents_empty (data : Fin size → α) (r : BitVec bits) : contents data r r = [] := by
  simp [contents, count]

theorem length_contents (data : Fin size → α) (r w : BitVec bits) :
    (contents data r w).length = count r w := by
  simp [contents]

theorem contents_update (hdvd : size ∣ 2 ^ bits) (h : count r w < size) (a : α) :
    contents (update data (slot size w) a) r w = contents data r w := by
  refine map_congr_left fun j hj => update_of_ne ?_ _ _
  have hne := slot_ne hdvd (mem_range.mp hj) h r
  rwa [add_count] at hne

theorem contents_succ (hsize : count r w + 1 < 2 ^ bits) :
    contents data r (w + 1) = contents data r w ++ [data (slot size w)] := by
  rw [contents, count_succ hsize, range_succ, map_append, map_singleton, add_count]
  rfl

theorem contents_put (hdvd : size ∣ 2 ^ bits) (hsize : size < 2 ^ bits) (h : count r w < size)
    (a : α) :
    contents (update data (slot size w) a) r (w + 1) = contents data r w ++ [a] := by
  rw [contents_succ (by omega), contents_update hdvd h, update_self]

theorem contents_take (h : r ≠ w) :
    contents data r w = data (slot size r) :: contents data (r + 1) w := by
  have hone : (1 : BitVec bits) = BitVec.ofNat bits 1 := rfl
  have hstep : ∀ j, r + BitVec.ofNat bits (j + 1) = r + 1 + BitVec.ofNat bits j := by
    intro j
    rw [hone, BitVec.add_assoc, ← BitVec.ofNat_add, Nat.add_comm]
  rw [contents, count_pred h, range_succ_eq_map, map_cons, map_map]
  simp only [comp_def, hstep]
  simp [contents]

theorem contents_append {m : BitVec bits} (h : count r m + count m w < 2 ^ bits) :
    contents data r w = contents data r m ++ contents data m w := by
  have hstep : ∀ j, r + BitVec.ofNat bits (count r m + j) = m + BitVec.ofNat bits j := by
    intro j
    rw [BitVec.ofNat_add, ← BitVec.add_assoc, add_count]
  rw [contents, count_add h, range_add, map_append, map_map]
  simp only [comp_def, hstep]
  rfl

theorem contents_pred (h : r ≠ w) :
    contents data r w = contents data r (w - 1) ++ [data (slot size (w - 1))] := by
  have hlt : count r w < 2 ^ bits := BitVec.isLt _
  have hcount := count_pred_right h
  have hsucc : contents data r (w - 1 + 1) = _ := contents_succ (by omega)
  rwa [BitVec.sub_add_cancel] at hsucc

end Xv6.Ring
