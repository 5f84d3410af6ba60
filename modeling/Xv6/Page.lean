import Xv6.Block

/-! Physical pages, the 64-bit words in them, and the page-table entries of `riscv.h`. -/
namespace Xv6

abbrev Page := Fin pgsize → Byte

abbrev Word := BitVec 64

instance : NeZero pgsize := ⟨by decide⟩

namespace Page

def fill (b : Byte) : Page := fun _ => b

section
variable (d : Page) (i : Fin 512)

def at8 (k : Fin 8) : Byte :=
  d ⟨8 * i + k, by unfold pgsize; omega⟩

def get64 : Word :=
  d.at8 i 7 ++ d.at8 i 6 ++ d.at8 i 5 ++ d.at8 i 4 ++ d.at8 i 3 ++ d.at8 i 2 ++ d.at8 i 1 ++
    d.at8 i 0

def put64 (w : Word) : Page := fun j =>
  if j.val / 8 = i.val then w.extractLsb' (8 * (j.val % 8)) 8 else d j

end

def write (d : Page) (off : ℕ) (bs : List Byte) : Page := fun j =>
  if off ≤ j.val then bs.getD (j.val - off) (d j) else d j

def read (d : Page) (off n : ℕ) : List Byte :=
  (List.range n).map fun j => d (Fin.ofNat pgsize (off + j))

lemma at8_put64 (d : Page) (i : Fin 512) (w : Word) (k : Fin 8) :
    (d.put64 i w).at8 i k = w.extractLsb' (8 * k.val) 8 := by
  have hdiv : (8 * i.val + k.val) / 8 = i.val := by omega
  have hmod : (8 * i.val + k.val) % 8 = k.val := by omega
  simp only [at8, put64, hdiv, hmod, if_true]

lemma at8_put64_of_ne (d : Page) {i j : Fin 512} (w : Word) (k : Fin 8) (h : j ≠ i) :
    (d.put64 i w).at8 j k = d.at8 j k := by
  have hdiv : (8 * j.val + k.val) / 8 ≠ i.val := by omega
  simp only [at8, put64, hdiv, if_false]

lemma get64_put64 (d : Page) (i : Fin 512) (w : Word) : (d.put64 i w).get64 i = w := by
  simp only [get64, at8_put64]
  iterate 7
    rw [BitVec.extractLsb'_append_extractLsb'_eq_extractLsb' (by rfl)]
  exact BitVec.extractLsb'_eq_self

theorem get64_put64_of_ne (d : Page) {i j : Fin 512} (w : Word) (h : j ≠ i) :
    (d.put64 i w).get64 j = d.get64 j := by
  simp only [get64, at8_put64_of_ne d w _ h]

theorem get64_fill_zero (i : Fin 512) : (fill 0).get64 i = 0 := by
  simp [get64, at8, fill]

theorem get64_put64_eq_update (d : Page) (i : Fin 512) (w : Word) :
    (d.put64 i w).get64 = Function.update d.get64 i w := by
  funext j
  by_cases h : j = i
  · subst h
    rw [get64_put64, Function.update_self]
  · rw [get64_put64_of_ne d w h, Function.update_of_ne h]

end Page

/-! Page-table entries: a page number above ten flag bits. Physical addresses are page
aligned wherever an entry holds one, so pages are spoken of by number. -/

def pteV : Word := 1
def pteR : Word := 2
def pteW : Word := 4
def pteX : Word := 8
def pteU : Word := 16

def pa2pte (pa : Word) : Word := (pa >>> 12) <<< 10

def pte2pa (pte : Word) : Word := (pte >>> 10) <<< 12

def pteFlags (pte : Word) : Word := pte &&& 0x3ff

def pageAddr (page : ℕ) : Word := BitVec.ofNat 64 (page * pgsize)

def ptePage (pte : Word) : ℕ := (pte2pa pte).toNat / pgsize

def mkPte (page : ℕ) (perm : Word) : Word := pa2pte (pageAddr page) ||| perm ||| pteV

def hasFlag (pte bits : Word) : Prop := pte &&& bits ≠ 0

instance (pte bits : Word) : Decidable (hasFlag pte bits) := inferInstanceAs (Decidable (_ ≠ _))

def IsFlags (perm : Word) : Prop := perm &&& 0x3ff = perm

def maxPage : ℕ := 2 ^ 52

lemma toNat_and_flags (w : Word) : (w &&& 0x3ff).toNat = w.toNat % 1024 :=
  Nat.and_two_pow_sub_one_eq_mod _ 10

theorem pteFlags_pa2pte (pa : Word) : pteFlags (pa2pte pa) = 0#64 := by
  apply BitVec.eq_of_toNat_eq
  rw [pteFlags, toNat_and_flags, pa2pte, BitVec.toNat_shiftLeft, Nat.shiftLeft_eq,
    BitVec.toNat_ofNat]
  omega

variable {perm : Word}

lemma IsFlags.shiftRight (h : IsFlags perm) : perm >>> 10 = 0#64 := by
  apply BitVec.eq_of_toNat_eq
  have hlt : perm.toNat < 1024 := by
    rw [← h, toNat_and_flags]
    exact Nat.mod_lt _ (by norm_num)
  rw [BitVec.toNat_ushiftRight, Nat.shiftRight_eq_div_pow]
  simpa using hlt

theorem pte2pa_or {pte : Word} (h : IsFlags perm) : pte2pa (pte ||| perm) = pte2pa pte := by
  rw [pte2pa, BitVec.ushiftRight_or_distrib, h.shiftRight, BitVec.or_zero, pte2pa]

theorem pte2pa_pa2pte (page : ℕ) : pte2pa (pa2pte (pageAddr page)) = pageAddr page := by
  apply BitVec.eq_of_toNat_eq
  simp only [pte2pa, pa2pte, pageAddr, pgsize, BitVec.toNat_shiftLeft, BitVec.toNat_ushiftRight,
    BitVec.toNat_ofNat, Nat.shiftLeft_eq, Nat.shiftRight_eq_div_pow]
  omega

variable {page : ℕ}

theorem ptePage_mkPte (hp : page < maxPage) (hf : IsFlags perm) :
    ptePage (mkPte page perm) = page := by
  rw [ptePage, mkPte, pte2pa_or (show IsFlags pteV from rfl), pte2pa_or hf, pte2pa_pa2pte]
  unfold maxPage at hp
  simp only [pageAddr, pgsize, BitVec.toNat_ofNat]
  omega

theorem pteFlags_mkPte (hf : IsFlags perm) :
    pteFlags (mkPte page perm) = perm ||| pteV := by
  have hpa := pteFlags_pa2pte (pageAddr page)
  have hV : pteV &&& 0x3ff = pteV := rfl
  unfold pteFlags at hpa ⊢
  rw [mkPte, BitVec.and_or_distrib_right, BitVec.and_or_distrib_right, hpa, hf, hV,
    BitVec.zero_or]

theorem IsFlags.or {a b : Word} (ha : IsFlags a) (hb : IsFlags b) : IsFlags (a ||| b) := by
  unfold IsFlags
  rw [BitVec.and_or_distrib_right, ha, hb]

theorem isFlags_pteFlags (w : Word) : IsFlags (pteFlags w) := by
  unfold IsFlags pteFlags
  rw [BitVec.and_assoc, BitVec.and_self]

variable {bits : Word}

theorem hasFlag_or {a b : Word} :
    hasFlag (a ||| b) bits ↔ hasFlag a bits ∨ hasFlag b bits := by
  unfold hasFlag
  rw [BitVec.and_or_distrib_right, ← not_and_or]
  exact not_congr BitVec.or_eq_zero_iff

theorem hasFlag_pteFlags {pte : Word} (hb : IsFlags bits) :
    hasFlag (pteFlags pte) bits ↔ hasFlag pte bits := by
  unfold hasFlag pteFlags
  rw [BitVec.and_assoc, BitVec.and_comm _ bits, hb]

theorem hasFlag_mkPte (hf : IsFlags perm) (hb : IsFlags bits) :
    hasFlag (mkPte page perm) bits ↔ hasFlag perm bits ∨ hasFlag pteV bits := by
  rw [← hasFlag_pteFlags hb, pteFlags_mkPte hf, hasFlag_or]

variable {w : Word}

theorem pteFlags_or_pteV (h : hasFlag w pteV) : pteFlags w ||| pteV = pteFlags w := by
  have hbit : w.getLsbD 0 = true := by
    by_contra hb
    refine h (BitVec.eq_of_getLsbD_eq fun i hi => ?_)
    cases i with
    | zero =>
      rw [BitVec.getLsbD_and, Bool.eq_false_iff.mpr hb]
      rfl
    | succ i => simp [pteV]
  refine BitVec.eq_of_getLsbD_eq fun i hi => ?_
  cases i with
  | zero => simp [pteFlags, hbit]
  | succ i => simp [pteV]

theorem ptePage_and_not (hf : IsFlags perm) : ptePage (w &&& ~~~perm) = ptePage w := by
  have hsplit : w = (w &&& ~~~perm) ||| (w &&& perm) := by
    ext i
    simp only [BitVec.getElem_or, BitVec.getElem_and, BitVec.getElem_not]
    cases perm[i] <;> simp
  have hflags : IsFlags (w &&& perm) := by
    unfold IsFlags
    rw [BitVec.and_assoc, hf]
  unfold ptePage
  conv_rhs => rw [hsplit, pte2pa_or hflags]

theorem hasFlag_and_not (h : ~~~perm &&& bits = bits) :
    hasFlag (w &&& ~~~perm) bits ↔ hasFlag w bits := by
  unfold hasFlag
  rw [BitVec.and_assoc, h]

end Xv6
