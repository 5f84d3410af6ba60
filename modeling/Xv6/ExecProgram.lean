import Xv6.ExecSpec

/-! The image that a successful `exec` leaves, in terms of the program file: its headers, its
segments, and the arguments on the stack. -/
namespace Xv6.Vm

open Program List

def header (file : List Byte) : Elfhdr := elfhdr (file.take sizeofElfhdr)

def programHeaders (file : List Byte) : List Proghdr :=
  (range (header file).phnum).map fun i =>
    proghdr ((file.drop ((header file).phoff + i * sizeofProghdr)).take sizeofProghdr)

/-- The program header table and the segments lie inside the file, whose size is a `uint`. -/
structure Inside (file : List Byte) : Prop where
  size : file.length < 2 ^ 32
  table : (header file).phoff + (header file).phnum * sizeofProghdr ≤ file.length
  segments : ∀ ph ∈ loads (programHeaders file), ph.off + ph.filesz ≤ file.length

/-- Every page of the range of `ph` is below every page of the range of `ph'`. -/
def PagesBelow (ph ph' : Proghdr) : Prop :=
  ∀ i < ph.memsz, ∀ j < ph'.memsz, (ph.vaddr + i) / pgsize < (ph'.vaddr + j) / pgsize

variable {file : List Byte} {g g' : ℕ → Byte} {argv : List (List Byte)} {ptrs : List ℕ}
  {n sp sp' base top : ℕ}

section headers

lemma readi_inside {off k : ℕ} (hsize : file.length < 2 ^ 32) (h : off + k ≤ file.length) :
    readi file off k = (file.drop off).take k := by
  unfold readi
  rw [if_neg]
  omega

lemma headersFrom_eq {k off : ℕ} (hsize : file.length < 2 ^ 32)
    (h : off + k * sizeofProghdr ≤ file.length) :
    headersFrom file k (off % 2 ^ 32) = (range k).map fun i =>
      proghdr ((file.drop (off + i * sizeofProghdr)).take sizeofProghdr) := by
  induction k generalizing off with
  | zero => rfl
  | succ k ih =>
    have hoff : off % 2 ^ 32 = off := Nat.mod_eq_of_lt (by omega)
    have hrest : off + sizeofProghdr + k * sizeofProghdr ≤ file.length := by
      rw [Nat.succ_mul] at h
      omega
    rw [headersFrom, hoff, readi_inside hsize (by omega), ih hrest, range_succ_eq_map,
      map_cons, map_map]
    refine congrArg₂ cons ?_ ?_
    · simp
    · refine map_congr_left fun i _ => ?_
      simp only [Function.comp_apply, Nat.succ_eq_add_one]
      congr 3
      ring

lemma elfhdr_readi : elfhdr (readi file 0 sizeofElfhdr) = header file := by
  rfl

lemma Inside.programImage (h : Inside file) :
    programImage file = (loads (programHeaders file)).foldl (loadOver file) fun _ => 0 := by
  unfold Vm.programImage
  dsimp only
  rw [elfhdr_readi, headersFrom_eq h.size h.table]
  rfl

end headers

section segments

variable {ph : Proghdr} {phs : List Proghdr} {a : ℕ}

lemma PagesBelow.not_mem {ph' : Proghdr} {i : ℕ} (hi : i < ph'.memsz)
    (hfile : ph.filesz ≤ ph.memsz) (h : PagesBelow ph ph' ∨ PagesBelow ph' ph) :
    ph'.vaddr + i < ph.vaddr ∨ ph.vaddr + ph.filesz ≤ ph'.vaddr + i := by
  by_contra hin
  obtain ⟨j, hj⟩ : ∃ j, ph'.vaddr + i = ph.vaddr + j := ⟨ph'.vaddr + i - ph.vaddr, by omega⟩
  have hjlt : j < ph.memsz := by omega
  rcases h with h | h
  · exact absurd (h j hjlt i hi) (by rw [hj]; exact lt_irrefl _)
  · exact absurd (h i hi j hjlt) (by rw [hj]; exact lt_irrefl _)

end segments

section stack

theorem le_bytes64 (x : ℕ) : le (bytes64 x) 0 8 = x % 2 ^ 64 := by
  simp only [le, bytes64, drop_zero, range_succ, range_zero, nil_append,
    cons_append, map_cons, map_nil, take_succ_cons, take_zero,
    foldr_cons, foldr_nil, BitVec.toNat_ofNat]
  omega

lemma Pushed.getD {i : ℕ} (h : Pushed base top argv ptrs sp') (hi : i < argv.length) :
    ptrs.getD i 0 % 16 = 0 ∧ base ≤ ptrs.getD i 0 ∧ sp' ≤ ptrs.getD i 0 ∧
      ptrs.getD i 0 + ((argv.getD i []).length + 1) ≤ top := by
  induction h generalizing i with
  | nil => cases hi
  | cons aligned hbase room rest ih =>
    cases i with
    | zero => exact ⟨aligned, hbase, rest.le, room⟩
    | succ i =>
      obtain ⟨h1, h2, h3, h4⟩ := ih (i := i) (by simpa using hi)
      simp only [getD_cons_succ]
      exact ⟨h1, h2, h3, by omega⟩

lemma Pushed.disjoint {i j : ℕ} (h : Pushed base top argv ptrs sp') (hij : i < j)
    (hj : j < argv.length) :
    ptrs.getD j 0 + ((argv.getD j []).length + 1) ≤ ptrs.getD i 0 := by
  induction h generalizing i j with
  | nil => cases hj
  | cons _ _ _ rest ih =>
    obtain ⟨j, rfl⟩ : ∃ j', j = j' + 1 := ⟨j - 1, by omega⟩
    have hj' := Nat.lt_of_succ_lt_succ hj
    cases i with
    | zero => exact (rest.getD hj').2.2.2
    | succ i => exact ih (Nat.lt_of_succ_lt_succ hij) hj'

end stack

variable [Image] {A : Multiset ℕ} {P : ℕ → Word → Prop} {path : List Byte} {s : Exe}

end Xv6.Vm
