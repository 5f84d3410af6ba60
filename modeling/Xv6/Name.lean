import Xv6.Directory

/-! Names in arrays of characters: what `namecmp` compares and what `dirlink` stores. -/
namespace Xv6

open List

variable {a b p q : List Byte}

def nameIn (a : List Byte) : List Byte := (a.takeWhile (· ≠ 0)).take dirsiz

/-- A name in the array ends inside it, at a NUL or after `DIRSIZ` bytes. -/
def Terminated (a : List Byte) : Prop := 0 ∈ a ∨ dirsiz ≤ a.length

lemma takeWhile_cons_zero : ((0 : Byte) :: p).takeWhile (· ≠ 0) = [] :=
  takeWhile_cons_of_neg (by simp)

lemma takeWhile_cons_ne {x : Byte} (h : x ≠ 0) :
    (x :: p).takeWhile (· ≠ 0) = x :: p.takeWhile (· ≠ 0) :=
  takeWhile_cons_of_pos (decide_eq_true h)

lemma strncmp_eq_zero {n : ℕ} (hp : p.length ≤ n ∧ (0 ∈ p ∨ p.length = n))
    (hq : q.length ≤ n ∧ (0 ∈ q ∨ q.length = n)) :
    strncmp p q = 0 ↔ p.takeWhile (· ≠ 0) = q.takeWhile (· ≠ 0) := by
  induction n generalizing p q with
  | zero =>
    rw [length_eq_zero_iff.mp (Nat.le_zero.mp hp.1), length_eq_zero_iff.mp
      (Nat.le_zero.mp hq.1)]
    simp [strncmp]
  | succ n ih =>
    cases p with
    | nil => simp at hp
    | cons x p =>
      cases q with
      | nil => simp at hq
      | cons y q =>
        rw [strncmp]
        by_cases hxy : x = y
        · subst hxy
          by_cases hx : x = 0
          · rw [hx]
            simp
          · have hcut : ∀ {r : List Byte}, (x :: r).length ≤ n + 1 ∧
                (0 ∈ x :: r ∨ (x :: r).length = n + 1) → r.length ≤ n ∧ (0 ∈ r ∨ r.length = n) := by
              rintro r ⟨hle, h0 | hlen⟩
              · exact ⟨Nat.le_of_succ_le_succ hle, .inl (mem_of_ne_of_mem (Ne.symm hx) h0)⟩
              · exact ⟨Nat.le_of_succ_le_succ hle, .inr (Nat.succ.inj hlen)⟩
            rw [if_pos ⟨hx, rfl⟩, ih (hcut hp) (hcut hq), takeWhile_cons_ne hx, takeWhile_cons_ne hx]
            simp
        · have hne : (x.toNat : ℤ) - y.toNat ≠ 0 := by
            have h0 : x.toNat ≠ y.toNat := fun h0 => hxy (BitVec.eq_of_toNat_eq h0)
            omega
          have hdiff : (x :: p).takeWhile (· ≠ 0) ≠ (y :: q).takeWhile (· ≠ 0) := by
            by_cases hx : x = 0
            · rw [hx, takeWhile_cons_zero, takeWhile_cons_ne fun h0 => hxy (by rw [hx, h0])]
              exact (cons_ne_nil _ _).symm
            · rw [takeWhile_cons_ne hx]
              by_cases hy : y = 0
              · rw [hy]
                exact cons_ne_nil _ _
              · rw [takeWhile_cons_ne hy]
                exact fun h => hxy (cons.inj h).1
          rw [if_neg fun h => hxy h.2]
          exact iff_of_false hne hdiff

lemma takeWhile_take (n : ℕ) (a : List Byte) :
    (a.take n).takeWhile (· ≠ 0) = (a.takeWhile (· ≠ 0)).take n := by
  induction a generalizing n with
  | nil => simp
  | cons x a ih =>
    cases n with
    | zero => simp
    | succ n =>
      by_cases hx : x = 0
      · rw [hx, take_succ_cons, takeWhile_cons_zero, takeWhile_cons_zero, take_nil]
      · rw [take_succ_cons, takeWhile_cons_ne hx, takeWhile_cons_ne hx, take_succ_cons, ih]

lemma Terminated.take (h : Terminated a) : (a.take dirsiz).length ≤ dirsiz ∧
    (0 ∈ a.take dirsiz ∨ (a.take dirsiz).length = dirsiz) := by
  refine ⟨length_take_le dirsiz a, ?_⟩
  by_cases hlen : dirsiz ≤ a.length
  · exact .inr (length_take_of_le hlen)
  · rw [take_of_length_le (by omega)]
    exact .inl (h.resolve_right hlen)

theorem namecmp_eq_zero (ha : Terminated a) (hb : Terminated b) :
    namecmp a b = 0 ↔ nameIn a = nameIn b := by
  unfold namecmp nameIn
  rw [strncmp_eq_zero ha.take hb.take, takeWhile_take, takeWhile_take]

@[simp]
theorem length_nameOf (p : List Byte) : (nameOf p).length = dirsiz := by
  simp [nameOf]
  omega

theorem terminated_nameOf (p : List Byte) : Terminated (nameOf p) := .inr (length_nameOf p).ge

lemma nameIn_nameOf (hp : 0 ∉ p) : nameIn (nameOf p) = p.take dirsiz := by
  have hpos : ∀ x ∈ p.take dirsiz, decide (x ≠ 0) = true := by
    intro x hx
    exact decide_eq_true fun h0 => hp (h0 ▸ mem_of_mem_take hx)
  have hzero : (replicate (dirsiz - p.length) (0 : Byte)).takeWhile (· ≠ 0) = [] := by
    cases dirsiz - p.length <;> simp
  unfold nameIn nameOf
  rw [takeWhile_append_of_pos hpos, hzero, append_nil, take_take, Nat.min_self]

lemma nonul_takeWhile (a : List Byte) : 0 ∉ a.takeWhile (· ≠ 0) := by
  intro h0
  have hne := mem_takeWhile_imp h0
  simp at hne

theorem nameIn_stored (a : List Byte) : nameIn (nameOf (a.takeWhile (· ≠ 0))) = nameIn a :=
  nameIn_nameOf (nonul_takeWhile a)

theorem namecmp_nameOf (hp : 0 ∉ p) (hq : 0 ∉ q) (hlp : p.length ≤ dirsiz)
    (hlq : q.length ≤ dirsiz) : namecmp (nameOf p) (nameOf q) = 0 ↔ p = q := by
  rw [namecmp_eq_zero (terminated_nameOf p) (terminated_nameOf q), nameIn_nameOf hp,
    nameIn_nameOf hq, take_of_length_le hlp, take_of_length_le hlq]

end Xv6
