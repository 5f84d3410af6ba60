import Xv6.UserMemory

/-! `copyout`, `copyin` and `copyinstr`: what they read and write of user memory, for any
address. The memory of a process is spoken of by virtual address; the page table says which
addresses the user may read and which ones it may write. -/
namespace Xv6.Vm

open Program Function List

def Readable (f : ℕ → Word) (va : ℕ) : Prop :=
  va < maxva ∧ hasFlag (f (va / pgsize)) pteV ∧ hasFlag (f (va / pgsize)) pteU

def Writable (f : ℕ → Word) (va : ℕ) : Prop := Readable f va ∧ hasFlag (f (va / pgsize)) pteW

instance (f : ℕ → Word) (va : ℕ) : Decidable (Readable f va) :=
  inferInstanceAs (Decidable (_ ∧ _))

def framePage (f : ℕ → Word) (va : ℕ) : ℕ := ptePage (f (va / pgsize))

def Mach.load (m : Mach) (f : ℕ → Word) (va : ℕ) : Byte :=
  m.mem (framePage f va) (Fin.ofNat pgsize va)

def userByte (m : Mach) (f : ℕ → Word) (va : ℕ) : Option Byte :=
  if Readable f va then some (m.load f va) else none

def userBytes (m : Mach) (f : ℕ → Word) : ℕ → ℕ → Option (List Byte)
  | _, 0 => some []
  | va, len + 1 => (userByte m f va).bind fun b => (userBytes m f (va + 1) len).map (b :: ·)

/-- The string at `va` with its NUL, which is among the first `max` bytes. -/
def userString (m : Mach) (f : ℕ → Word) : ℕ → ℕ → Option (List Byte)
  | _, 0 => none
  | va, max + 1 => (userByte m f va).bind fun b =>
      if b = 0 then some [0] else (userString m f (va + 1) max).map (b :: ·)

/-- The first `k` bytes of `src` have been stored from `va` on, and nothing else. -/
structure Stored (m : Mach) (f : ℕ → Word) (va k : ℕ) (src : List Byte) (m' : Mach) : Prop where
  writable : ∀ i < k, Writable f (va + i)
  stored : ∀ i < k, m'.load f (va + i) = src.getD i 0
  frame : ∀ p j, (∀ i < k, framePage f (va + i) = p → (va + i) % pgsize ≠ j.val) →
    m'.mem p j = m.mem p j
  freelist : m'.freelist = m.freelist

/-- What `copyout` may do: all of `src` is stored, or a part of it that ends where a page
begins that the user may not write. -/
def CopiedOut (m : Mach) (f : ℕ → Word) (va : ℕ) (src : List Byte) (ok : Bool) (m' : Mach) : Prop :=
  ∃ k ≤ src.length, Stored m f va k src m' ∧ (ok = true → k = src.length) ∧
    (ok = false → k < src.length ∧ (k = 0 ∨ pgsize ∣ va + k) ∧ ¬ Writable f (va + k))

section page
variable {m m' : Mach} {f : ℕ → Word} {va k len max : ℕ}

theorem lt_maxva_iff : va < maxva ↔ va / pgsize < 2 ^ 26 := by
  unfold maxva pgsize
  omega

theorem div_of_lt {i : ℕ} (h : i < pgsize - va % pgsize) : (va + i) / pgsize = va / pgsize := by
  unfold pgsize at *
  omega

theorem mod_of_lt {i : ℕ} (h : i < pgsize - va % pgsize) : (va + i) % pgsize = va % pgsize + i := by
  unfold pgsize at *
  omega

theorem Readable.of_page {va' : ℕ} (h : Readable f va) (hp : va' / pgsize = va / pgsize) :
    Readable f va' := by
  refine ⟨?_, ?_⟩
  · rw [lt_maxva_iff, hp]
    exact lt_maxva_iff.mp h.1
  · rw [hp]
    exact h.2

lemma Writable.of_page {va' : ℕ} (h : Writable f va) (hp : va' / pgsize = va / pgsize) :
    Writable f va' := by
  refine ⟨h.1.of_page hp, ?_⟩
  rw [hp]
  exact h.2

lemma read_succ (d : Page) (off n : ℕ) :
    d.read off (n + 1) = d (Fin.ofNat pgsize off) :: d.read (off + 1) n := by
  simp only [Page.read, range_succ_eq_map, map_cons, map_map, Nat.add_zero]
  congr 1
  refine map_congr_left fun j _ => ?_
  simp only [comp_apply, Nat.succ_eq_add_one]
  congr 2
  omega

theorem ofNat_mod (va : ℕ) : Fin.ofNat pgsize (va % pgsize) = Fin.ofNat pgsize va := by
  simp [Fin.ofNat]

lemma userByte_of_readable (h : Readable f va) :
    userByte m f va = some (m.mem (framePage f va) (Fin.ofNat pgsize (va % pgsize))) := by
  rw [userByte, if_pos h, Mach.load, ofNat_mod]

lemma userBytes_unreadable (h : ¬ Readable f va) (hlen : 0 < len) :
    userBytes m f va len = none := by
  obtain ⟨len, rfl⟩ := Nat.exists_eq_succ_of_ne_zero hlen.ne'
  rw [userBytes, userByte, if_neg h]
  rfl

theorem userString_unreadable (h : ¬ Readable f va) : userString m f va max = none := by
  cases max with
  | zero => rfl
  | succ max =>
    rw [userString, userByte, if_neg h]
    rfl

lemma userBytes_page (h : Readable f va) (hk : k ≤ pgsize - va % pgsize) (hle : k ≤ len) :
    userBytes m f va len = (userBytes m f (va + k) (len - k)).map
      ((m.mem (framePage f va)).read (va % pgsize) k ++ ·) := by
  induction k generalizing va len with
  | zero => simp [Page.read]
  | succ k ih =>
    obtain ⟨len, rfl⟩ := Nat.exists_eq_succ_of_ne_zero (by omega : len ≠ 0)
    rw [userBytes, userByte_of_readable h, read_succ, Option.bind_some]
    rcases Nat.eq_zero_or_pos k with rfl | hpos
    · simp [Page.read]
    · have hlt : 1 < pgsize - va % pgsize := by omega
      have hpage : (va + 1) / pgsize = va / pgsize := div_of_lt hlt
      have hmod : (va + 1) % pgsize = va % pgsize + 1 := mod_of_lt hlt
      have hsame : framePage f (va + 1) = framePage f va := by rw [framePage, hpage, framePage]
      rw [ih (h.of_page hpage) (by omega) (by omega), Option.map_map, hsame, hmod,
        Nat.succ_eq_add_one, Nat.add_sub_add_right, Nat.add_right_comm, Nat.add_assoc va]
      rfl

lemma userString_page (h : Readable f va) (hk : k ≤ pgsize - va % pgsize) (hle : k ≤ max) :
    userString m f va max =
      (let p := untilNul ((m.mem (framePage f va)).read (va % pgsize) k)
       if p.2 then some p.1 else (userString m f (va + k) (max - k)).map (p.1 ++ ·)) := by
  induction k generalizing va max with
  | zero => simp [Page.read, untilNul]
  | succ k ih =>
    obtain ⟨max, rfl⟩ := Nat.exists_eq_succ_of_ne_zero (by omega : max ≠ 0)
    rw [userString, userByte_of_readable h, read_succ, Option.bind_some]
    generalize m.mem (framePage f va) (Fin.ofNat pgsize (va % pgsize)) = b
    by_cases hnul : b = 0
    · simp [untilNul, hnul]
    rw [if_neg hnul]
    rcases Nat.eq_zero_or_pos k with rfl | hpos
    · simp only [Page.read, range_zero, map_nil, untilNul, if_neg hnul]
      simp
    · have hlt : 1 < pgsize - va % pgsize := by omega
      have hpage : (va + 1) / pgsize = va / pgsize := div_of_lt hlt
      have hmod : (va + 1) % pgsize = va % pgsize + 1 := mod_of_lt hlt
      have hsame : framePage f (va + 1) = framePage f va := by rw [framePage, hpage, framePage]
      rw [ih (h.of_page hpage) (by omega) (by omega), hsame, hmod, Nat.succ_eq_add_one,
        Nat.add_sub_add_right, Nat.add_right_comm, Nat.add_assoc va]
      simp only [untilNul, if_neg hnul]
      split_ifs
      · rfl
      · rw [Option.map_map]
        rfl

theorem next_page (va : ℕ) : va + (pgsize - va % pgsize) = pgrounddown va + pgsize := by
  unfold pgrounddown pgsize
  omega

theorem offset_eq (va : ℕ) : va - pgrounddown va = va % pgsize := by
  unfold pgrounddown pgsize
  omega

end page

variable [Image] {m m' m'' : Mach} {root n tf va k len max : ℕ} {f : ℕ → Word} {X : Multiset ℕ}
  {src : List Byte}

section lookup

theorem lt_maxPage_of_le (hd : X + frames f 0 n ≤ ram) : ∀ p ∈ X, p < maxPage := fun _ hp =>
  lt_maxPage_of_mem_ram (Multiset.mem_of_le hd (Multiset.mem_add.mpr (.inl hp)))

theorem Readable.mem_frames (h : Readable f va) (hs : Space m root n tf f X) :
    va / pgsize < n ∧ framePage f va ∈ frames f 0 n := by
  have hv := lt_maxva_iff.mp h.1
  have hn := hs.layout.lt_of_user (by omega) h.2.2
  exact ⟨hn, Vm.mem_frames (Nat.zero_le _) (by omega)⟩

theorem Readable.page_ne_zero (h : Readable f va) (hs : Space m root n tf f X)
    (hd : X + frames f 0 n ≤ ram) : framePage f va ≠ 0 := by
  have hram := Multiset.mem_of_le hd (Multiset.mem_add.mpr (.inr (h.mem_frames hs).2))
  have hk := Image.kernbase_le
  have hle := (mem_ram.mp hram).1
  unfold kernbase at hk
  intro h0
  rw [h0] at hle
  omega

omit [Image] in
theorem walkaddr_find (hm : Maps m root f X) (hX : ∀ p ∈ X, p < maxPage) :
    wp (walkaddr root (pgrounddown va)) (fun p m' => m' = m ∧
      p = if Readable f va then framePage f va else 0) never m := by
  have hdown : pgrounddown va < maxva ↔ va < maxva := by
    unfold pgrounddown maxva pgsize
    omega
  unfold walkaddr
  by_cases hlt : va < maxva
  swap
  · have hno : ¬ Readable f va := fun h => hlt h.1
    rw [if_pos (not_lt.mp (mt hdown.mp hlt)), if_neg hno]
    exact wp_pure ⟨rfl, rfl⟩
  rw [if_neg (not_le.mpr (hdown.mpr hlt))]
  have hv := lt_maxva_iff.mp hlt
  refine wp_seq (walk_find hm hX hv) ?_
  rintro r m₁ ⟨rfl, ⟨rfl, hzero⟩ | ⟨pte, rfl, hpte⟩⟩
  · have hno : ¬ Readable f va := fun h => not_hasFlag_zero pteV (hzero ▸ h.2.1)
    rw [if_neg hno]
    exact wp_pure ⟨rfl, rfl⟩
  refine wp_bind (wp_loadPte ?_)
  rw [hpte.read (by omega)]
  by_cases hflags : hasFlag (f (va / pgsize)) pteV ∧ hasFlag (f (va / pgsize)) pteU
  · have hread : Readable f va := ⟨hlt, hflags⟩
    rw [if_pos hflags, if_pos hread]
    exact wp_pure ⟨rfl, rfl⟩
  · have hno : ¬ Readable f va := fun h => hflags h.2
    rw [if_neg hflags, if_neg hno]
    exact wp_pure ⟨rfl, rfl⟩

theorem walkaddr_spec (hs : Space m root n tf f X) (hd : X + frames f 0 n ≤ ram) :
    wp (walkaddr root (pgrounddown va)) (fun p m' => m' = m ∧
      p = if Readable f va then framePage f va else 0) never m :=
  walkaddr_find hs.maps (lt_maxPage_of_le hd)

end lookup

section read

section
variable (hs : Space m root n tf f X) (hd : X + frames f 0 n ≤ ram)
include hs hd

lemma copyinFrom_spec {fuel : ℕ} {dst : List Byte} (hfuel : len ≤ fuel) :
    wp (copyinFrom root fuel va len dst) (fun r m' => m' = m ∧
      r = (userBytes m f va len).map (dst ++ ·)) never m := by
  induction fuel generalizing va len dst with
  | zero =>
    obtain rfl : len = 0 := by omega
    exact wp_pure ⟨rfl, by simp [userBytes]⟩
  | succ fuel ih =>
    unfold copyinFrom
    split_ifs with hlen
    · subst hlen
      exact wp_pure ⟨rfl, by simp [userBytes]⟩
    refine wp_seq (walkaddr_spec hs hd) ?_
    rintro p m₁ ⟨rfl, rfl⟩
    by_cases hread : Readable f va
    · have hne := hread.page_ne_zero hs hd
      simp only [if_pos hread, if_neg hne, offset_eq]
      refine wp_bind (wp_page ?_)
      have hmod : va % pgsize < pgsize := Nat.mod_lt _ (by decide)
      refine wp_post (ih (by omega)) ?_
      rintro r m' ⟨rfl, rfl⟩
      refine ⟨rfl, ?_⟩
      rw [userBytes_page hread (Nat.min_le_left _ _) (Nat.min_le_right _ _), Option.map_map]
      rcases le_total (pgsize - va % pgsize) len with hle | hle
      · rw [Nat.min_eq_left hle, next_page]
        simp [comp_def, append_assoc]
      · -- the last turn: nothing is left, wherever the next page is
        rw [Nat.min_eq_right hle, Nat.sub_self]
        simp [userBytes]
    · simp only [if_neg hread, if_true]
      refine wp_pure ⟨rfl, ?_⟩
      rw [userBytes_unreadable hread (by omega)]
      rfl

lemma copyin_spec :
    wp (copyin root va len) (fun r m' => m' = m ∧ r = userBytes m f va len) never m := by
  refine wp_post (copyinFrom_spec hs hd le_rfl) ?_
  rintro r m' ⟨rfl, rfl⟩
  exact ⟨rfl, by simp⟩

lemma copyinstrFrom_spec {fuel : ℕ} {dst : List Byte} (hfuel : max ≤ fuel) :
    wp (copyinstrFrom root fuel va max dst) (fun r m' => m' = m ∧
      r = (userString m f va max).map (dst ++ ·)) never m := by
  induction fuel generalizing va max dst with
  | zero =>
    obtain rfl : max = 0 := by omega
    exact wp_pure ⟨rfl, rfl⟩
  | succ fuel ih =>
    unfold copyinstrFrom
    split_ifs with hmax
    · subst hmax
      exact wp_pure ⟨rfl, rfl⟩
    refine wp_seq (walkaddr_spec hs hd) ?_
    rintro p m₁ ⟨rfl, rfl⟩
    by_cases hread : Readable f va
    · have hne := hread.page_ne_zero hs hd
      simp only [if_pos hread, if_neg hne, offset_eq]
      refine wp_bind (wp_page ?_)
      have hmod : va % pgsize < pgsize := Nat.mod_lt _ (by decide)
      have hpage := userString_page (m := m₁) hread
        (Nat.min_le_left (pgsize - va % pgsize) max) (Nat.min_le_right _ _)
      dsimp only at hpage
      split_ifs with hnul
      · rw [if_pos hnul] at hpage
        refine wp_pure ⟨rfl, ?_⟩
        rw [hpage]
        rfl
      · rw [if_neg hnul] at hpage
        refine wp_post (ih (by omega)) ?_
        rintro r m' ⟨rfl, rfl⟩
        refine ⟨rfl, ?_⟩
        rw [hpage, Option.map_map]
        rcases le_total (pgsize - va % pgsize) max with hle | hle
        · rw [Nat.min_eq_left hle, next_page]
          simp [comp_def, append_assoc]
        · rw [Nat.min_eq_right hle, Nat.sub_self]
          rfl
    · simp only [if_neg hread, if_true]
      refine wp_pure ⟨rfl, ?_⟩
      rw [userString_unreadable hread]
      rfl

lemma copyinstr_spec :
    wp (copyinstr root va max) (fun r m' => m' = m ∧ r = userString m f va max) never m := by
  refine wp_post (copyinstrFrom_spec hs hd le_rfl) ?_
  rintro r m' ⟨rfl, rfl⟩
  exact ⟨rfl, by simp⟩

end

omit [Image] in
lemma userByte_congr (h : ∀ a, va ≤ a → Readable f a → m'.load f a = m.load f a) :
    ∀ a, va ≤ a → userByte m' f a = userByte m f a := by
  intro a ha
  unfold userByte
  split_ifs with hr
  · rw [h a ha hr]
  · rfl

omit [Image] in
lemma userBytes_congr (h : ∀ a, va ≤ a → Readable f a → m'.load f a = m.load f a) :
    userBytes m' f va len = userBytes m f va len := by
  induction len generalizing va with
  | zero => rfl
  | succ len ih =>
    rw [userBytes, userBytes, userByte_congr h va le_rfl, ih fun a ha => h a (by omega)]

omit [Image] in
lemma userString_congr (h : ∀ a, va ≤ a → Readable f a → m'.load f a = m.load f a) :
    userString m' f va max = userString m f va max := by
  induction max generalizing va with
  | zero => rfl
  | succ max ih =>
    rw [userString, userString, userByte_congr h va le_rfl, ih fun a ha => h a (by omega)]

end read

section write

omit [Image] in
theorem frames_inj {u v : ℕ} (hd : (frames f 0 n).Nodup) (hu : u < n) (hv : v < n)
    (h : ptePage (f u) = ptePage (f v)) : u = v := by
  have hlist : ((range' 0 n).map fun v => ptePage (f v)).Nodup := Multiset.coe_nodup.mp hd
  refine inj_on_of_nodup_map hlist ?_ ?_ h
  · exact mem_range'_1.mpr ⟨Nat.zero_le _, by omega⟩
  · exact mem_range'_1.mpr ⟨Nat.zero_le _, by omega⟩

theorem Readable.inj {a b : ℕ} (ha : Readable f a) (hb : Readable f b)
    (hs : Space m root n tf f X) (hd : X + frames f 0 n ≤ ram)
    (hp : framePage f a = framePage f b) (hj : a % pgsize = b % pgsize) : a = b := by
  have hnodup : (frames f 0 n).Nodup :=
    Multiset.nodup_of_le ((Multiset.le_add_left _ _).trans hd) (Finset.nodup _)
  have hpage : a / pgsize = b / pgsize :=
    frames_inj hnodup (ha.mem_frames hs).1 (hb.mem_frames hs).1 hp
  rw [← Nat.div_add_mod a pgsize, ← Nat.div_add_mod b pgsize, hpage, hj]

omit [Image] in
theorem Stored.nil (m : Mach) (f : ℕ → Word) (va : ℕ) (src : List Byte) :
    Stored m f va 0 src m :=
  ⟨fun _ h => absurd h (Nat.not_lt_zero _), fun _ h => absurd h (Nat.not_lt_zero _),
    fun _ _ _ => rfl, rfl⟩

theorem Stored.trans (h : Stored m f va k src m') (h' : Stored m' f (va + k) len (src.drop k) m'')
    (hs : Space m root n tf f X) (hd : X + frames f 0 n ≤ ram) :
    Stored m f va (k + len) src m'' := by
  have hsplit : ∀ i < k + len, i < k ∨ ∃ j < len, i = k + j := by
    intro i hi
    rcases lt_or_ge i k with hlt | hge
    · exact .inl hlt
    · exact .inr ⟨i - k, by omega, by omega⟩
  have hwritable : ∀ i < k + len, Writable f (va + i) := by
    intro i hi
    rcases hsplit i hi with hlt | ⟨j, hj, rfl⟩
    · exact h.writable i hlt
    · rw [← Nat.add_assoc]
      exact h'.writable j hj
  refine ⟨hwritable, ?_, ?_, by rw [h'.freelist, h.freelist]⟩
  · intro i hi
    rcases hsplit i hi with hlt | ⟨j, hj, rfl⟩
    · -- the second part does not come back to an address of the first
      rw [← h.stored i hlt]
      refine h'.frame _ _ ?_
      intro j hj hp hm
      have heq : va + k + j = va + i :=
        (h'.writable j hj).1.inj (h.writable i hlt).1 hs hd hp (hm.trans (by simp [Fin.ofNat]))
      omega
    · rw [← Nat.add_assoc, h'.stored j hj]
      simp [getD_eq_getElem?_getD]
  · intro p j hj
    rw [h'.frame p j, h.frame p j]
    · exact fun i hi => hj i (by omega)
    · intro i hi
      rw [Nat.add_assoc]
      exact hj (k + i) (by omega)

omit [Image] in
theorem write_of_lt {d : Page} {off : ℕ} {bs : List Byte} {j : Fin pgsize}
    (h : j.val < off ∨ off + bs.length ≤ j.val) : d.write off bs j = d j := by
  unfold Page.write
  split_ifs with hle
  · rw [getD_eq_default _ _ (by omega)]
  · rfl

omit [Image] in
lemma write_of_mem {d : Page} {off i : ℕ} {bs : List Byte} (hi : i < bs.length)
    (hlt : off + i < pgsize) : d.write off bs ⟨off + i, hlt⟩ = bs.getD i 0 := by
  unfold Page.write
  rw [if_pos (by simp)]
  simp [getD_eq_getElem?_getD, hi]

omit [Image] in
lemma stored_page (hw : Writable f va) (hk : k = min (pgsize - va % pgsize) src.length) :
    Stored m f va k src (m.put (framePage f va) ((m.mem (framePage f va)).write (va % pgsize)
      (src.take (pgsize - va % pgsize)))) := by
  have hlen : (src.take (pgsize - va % pgsize)).length = k := by
    rw [length_take, hk]
  have hpage : ∀ i < k, framePage f (va + i) = framePage f va := by
    intro i hi
    rw [framePage, framePage, div_of_lt (by omega)]
  refine ⟨?_, ?_, ?_, rfl⟩
  · intro i hi
    exact hw.of_page (div_of_lt (by omega))
  · intro i hi
    have hmod : (va + i) % pgsize = va % pgsize + i := mod_of_lt (by omega)
    have hfin : Fin.ofNat pgsize (va + i) = ⟨va % pgsize + i, hmod ▸ Nat.mod_lt _ (by decide)⟩ :=
      Fin.ext hmod
    rw [Mach.load, hpage i hi, Mach.put]
    dsimp only
    rw [update_self, hfin, write_of_mem (by omega)]
    simp only [getD_eq_getElem?_getD]
    rw [getElem?_take_of_lt (by omega)]
  · intro p j hj
    rw [Mach.put]
    dsimp only
    by_cases hp : p = framePage f va
    · subst hp
      rw [update_self]
      refine write_of_lt ?_
      rw [hlen]
      by_contra hin
      push Not at hin
      have hi : j.val - va % pgsize < k := by omega
      refine hj _ hi (hpage _ hi) ?_
      rw [mod_of_lt (by omega)]
      omega
    · rw [update_of_ne hp]

omit [Image] in
lemma copyoutFrom_nil (root fuel va : ℕ) : copyoutFrom root fuel va [] = pure true := by
  cases fuel with
  | zero => rfl
  | succ fuel =>
    unfold copyoutFrom
    rw [if_pos rfl]

section
variable (hs : Space m root n tf f X) (hd : X + frames f 0 n ≤ ram)
include hs hd

lemma copyoutFrom_stores {fuel : ℕ} (hfuel : src.length ≤ fuel) :
    wp (copyoutFrom root fuel va src) (CopiedOut m f va src) never m := by
  induction fuel generalizing m va src with
  | zero =>
    obtain rfl : src = [] := length_eq_zero_iff.mp (by omega)
    exact wp_pure ⟨0, le_rfl, .nil .., fun _ => rfl, fun h => (by cases h)⟩
  | succ fuel ih =>
    have fails (h : src ≠ []) (hw : ¬ Writable f va) : CopiedOut m f va src false m :=
      ⟨0, Nat.zero_le _, .nil .., fun h => (by cases h),
        fun _ => ⟨length_pos_iff.mpr h, .inl rfl, hw⟩⟩
    unfold copyoutFrom
    split_ifs with hnil hva
    · subst hnil
      exact wp_pure ⟨0, le_rfl, .nil .., fun _ => rfl, fun h => (by cases h)⟩
    · refine wp_pure (fails hnil fun hw => ?_)
      have hlt := hw.1.1
      unfold pgrounddown maxva pgsize at *
      omega
    have hlt : va < maxva := by
      unfold pgrounddown maxva pgsize at *
      omega
    have hv := lt_maxva_iff.mp hlt
    refine wp_seq (walk_find hs.maps (lt_maxPage_of_le hd) hv) ?_
    rintro r m₁ ⟨rfl, ⟨rfl, hzero⟩ | ⟨pte, rfl, hpte⟩⟩
    · exact wp_pure (fails hnil fun hw => not_hasFlag_zero pteW (hzero ▸ hw.2))
    refine wp_bind (wp_loadPte ?_)
    rw [hpte.read (by omega)]
    split_ifs with hflags
    · have hw : Writable f va := ⟨⟨hlt, hflags.1, hflags.2.1⟩, hflags.2.2⟩
      have hmod : va % pgsize < pgsize := Nat.mod_lt _ (by decide)
      have hpos := length_pos_iff.mpr hnil
      have hstored := stored_page (m := m₁) hw (Eq.refl (min (pgsize - va % pgsize) src.length))
      simp only [offset_eq]
      refine wp_bind (wp_page (wp_bind (wp_setPage ?_)))
      have hX : framePage f va ∉ X := fun hx =>
        Multiset.disjoint_left.mp (Multiset.nodup_add.mp
          (Multiset.nodup_of_le hd (Finset.nodup _))).2.2 hx (hw.1.mem_frames hs).2
      have hs₂ : Space (m₁.put (framePage f va) ((m₁.mem (framePage f va)).write (va % pgsize)
          (src.take (pgsize - va % pgsize)))) root n tf f X :=
        ⟨hs.maps.frame (Keeps.put hX), hs.layout⟩
      rcases lt_or_ge (pgsize - va % pgsize) src.length with hle | hle
      · rw [Nat.min_eq_left hle.le] at hstored
        rw [← next_page]
        refine wp_post (ih hs₂ (by rw [length_drop]; omega)) ?_
        rintro ok m' ⟨k, hk, hst, htrue, hfalse⟩
        rw [length_drop] at hk htrue hfalse
        refine ⟨pgsize - va % pgsize + k, by omega, hstored.trans hst hs hd, ?_, ?_⟩
        · intro h
          have := htrue h
          omega
        · intro h
          obtain ⟨hklt, hbound, hno⟩ := hfalse h
          refine ⟨by omega, .inr ?_, by rwa [← Nat.add_assoc]⟩
          rw [← Nat.add_assoc]
          rcases hbound with rfl | hdvd
          · rw [Nat.add_zero, next_page]
            exact ⟨va / pgsize + 1, by unfold pgrounddown; ring⟩
          · exact hdvd
      · rw [Nat.min_eq_right hle] at hstored
        rw [drop_eq_nil_of_le hle, copyoutFrom_nil]
        exact wp_pure ⟨src.length, le_rfl, hstored, fun _ => rfl, fun h => (by cases h)⟩
    · refine wp_pure (fails hnil fun hw => ?_)
      exact hflags ⟨hw.1.2.1, hw.1.2.2, hw.2⟩

theorem copyout_stores : wp (copyout root va src) (CopiedOut m f va src) never m :=
  copyoutFrom_stores hs hd le_rfl

end

theorem Stored.space (h : Stored m f va k src m') (hs : Space m root n tf f X)
    (hd : X + frames f 0 n ≤ ram) : Space m' root n tf f X := by
  refine ⟨hs.maps.frame ?_, hs.layout⟩
  intro q hq
  funext j
  refine h.frame q j ?_
  intro i hi hp _
  have hmem := ((h.writable i hi).1.mem_frames hs).2
  rw [hp] at hmem
  exact Multiset.disjoint_left.mp (Multiset.nodup_add.mp
    (Multiset.nodup_of_le hd (Finset.nodup _))).2.2 hq hmem

omit [Image] in
lemma Stored.userBytes (h : Stored m f va src.length src m') :
    Vm.userBytes m' f va src.length = some src := by
  have main : ∀ (l : List Byte) (a : ℕ), (∀ i < l.length, Writable f (a + i)) →
      (∀ i < l.length, m'.load f (a + i) = l.getD i 0) →
      Vm.userBytes m' f a l.length = some l := by
    intro l
    induction l with
    | nil => exact fun _ _ _ => rfl
    | cons b l ih =>
      intro a hw hl
      have hfirst : m'.load f a = b := by simpa using hl 0 (by simp)
      have hread : Readable f a := (hw 0 (by simp)).1
      have hrest := ih (a + 1) ?_ ?_
      · rw [length_cons, Vm.userBytes, userByte, if_pos hread, hfirst, Option.bind_some, hrest]
        rfl
      · intro i hi
        rw [Nat.add_assoc, Nat.add_comm 1]
        exact hw (i + 1) (by simpa using hi)
      · intro i hi
        rw [Nat.add_assoc, Nat.add_comm 1, hl (i + 1) (by simpa using hi)]
        simp
  exact main src va h.writable h.stored

end write

def result {α : Type} (x : M α) (m : Mach) : Option α := (x.run m).1.toOption

omit [Image] in
lemma result_of_wp {α : Type} {x : M α} {a : α} (h : wp x (fun r _ => r = a) never m) :
    result x m = some a := by
  unfold wp at h
  unfold result
  rcases hx : x.run m with ⟨r, t⟩
  rw [hx] at h
  cases r with
  | ok b => exact congrArg some h
  | error e => exact h.elim

/-- The copy routines keep to the memory of the user, for every address and length: none of them
stops; `copyout` writes only bytes that the user may write, all of `src` if it succeeds, and
otherwise a part that ends at the page that the user may not write; `copyin` and `copyinstr`
change nothing and return what the user may read, whatever the rest of memory holds; and what
`copyout` has stored, `copyin` returns. -/
theorem copy_isolation (hs : Space m root n tf f X) (hd : X + frames f 0 n ≤ ram)
    (va len max : ℕ) (src : List Byte) :
    wp (copyout root va src) (fun ok m' => CopiedOut m f va src ok m' ∧
      (ok = true → wp (copyin root va src.length) (fun r _ => r = some src) never m')) never m ∧
    wp (copyin root va len) (fun r m' => m' = m ∧ r = userBytes m f va len) never m ∧
    wp (copyinstr root va max) (fun r m' => m' = m ∧ r = userString m f va max) never m ∧
    ∀ m₂, Space m₂ root n tf f X →
      (∀ a, va ≤ a → Readable f a → m₂.load f a = m.load f a) →
      result (copyin root va len) m₂ = result (copyin root va len) m ∧
      result (copyinstr root va max) m₂ = result (copyinstr root va max) m := by
  refine ⟨?_, copyin_spec hs hd, copyinstr_spec hs hd, ?_⟩
  · refine wp_post (copyout_stores hs hd) ?_
    intro ok m' h
    refine ⟨h, fun hok => ?_⟩
    obtain ⟨k, _, hst, htrue, _⟩ := h
    obtain rfl := htrue hok
    refine wp_post (copyin_spec (hst.space hs hd) hd) ?_
    rintro r _ ⟨_, rfl⟩
    exact hst.userBytes
  · intro m₂ hs₂ hsame
    have hin : ∀ {m₁ : Mach}, Space m₁ root n tf f X →
        result (copyin root va len) m₁ = some (userBytes m₁ f va len) := fun h =>
      result_of_wp (wp_post (copyin_spec h hd) (fun _ _ h => h.2))
    have hstr : ∀ {m₁ : Mach}, Space m₁ root n tf f X →
        result (copyinstr root va max) m₁ = some (userString m₁ f va max) := fun h =>
      result_of_wp (wp_post (copyinstr_spec h hd) (fun _ _ h => h.2))
    rw [hin hs₂, hin hs, hstr hs₂, hstr hs, userBytes_congr hsame, userString_congr hsame]
    exact ⟨rfl, rfl⟩

section small

@[reducible] def smallImage : Image where
  kend := phystop - 16 * pgsize
  trampolinePage := kernbase / pgsize
  kernbase_le := by decide

def smallMach : Mach := ⟨fun _ => .fill 0, range' (phystop / pgsize - 16) 16, []⟩

omit [Image] in
theorem owns_smallMach : @Owns smallImage smallMach 0 := by
  unfold Owns
  decide +kernel

def onePage (tf : ℕ) : M (Option ℕ) := do
  match ← procPagetable tf with
  | none => return none
  | some root =>
      let sz ← uvmalloc root 0 pgsize pteW
      return if sz = pgsize then some root else none

theorem onePage_spec {A : Multiset ℕ} (ho : Owns m A) :
    wp (onePage tf) (fun r m' => ∀ root, r = some root →
      ∃ f X, Space m' root 1 tf f X ∧ X + frames f 0 1 ≤ ram) never m := by
  unfold onePage
  refine wp_seq (procPagetable_spec ho) ?_
  rintro (_ | root) m₁ ⟨_, h⟩
  · exact wp_pure fun _ h => (by cases h)
  obtain ⟨f, X, hs, ho1⟩ := h
  have hs0 : Space m₁ root (npages 0) tf f X := hs
  refine wp_seq (uvmalloc_spec (by rfl) hs0 ho1 (Nat.zero_le _)) ?_
  rintro r m₂ (⟨hlt, _⟩ | ⟨_, rfl, _, f', X', _, h⟩ | ⟨_, rfl, _⟩)
  · exact absurd hlt (by decide)
  · obtain ⟨hs', ho', _⟩ := h
    refine wp_pure fun root' hroot => ?_
    obtain rfl := Option.some.inj hroot
    refine ⟨f', X', hs', ?_⟩
    rw [← add_assoc] at ho'
    calc X' + frames f' 0 1 ≤ X' + frames f' 0 1 + A := Multiset.le_add_right _ _
      _ ≤ m₂.freelist + (X' + frames f' 0 1 + A) := Multiset.le_add_left _ _
      _ = ram := ho'
  · exact wp_pure fun _ h => (by cases h)

omit [Image] in
theorem exists_onePage : ∃ m root f X,
    @Space smallImage m root 1 0 f X ∧ X + frames f 0 1 ≤ @ram smallImage := by
  have hsome : (result (@onePage smallImage 0) smallMach).any Option.isSome = true := by
    decide +kernel
  have hspec := @onePage_spec smallImage smallMach 0 0 owns_smallMach
  unfold wp at hspec
  unfold result at hsome
  rcases hx : (@onePage smallImage 0).run smallMach with ⟨r, m⟩
  rw [hx] at hspec hsome
  cases r with
  | error e => exact hspec.elim
  | ok r =>
    obtain ⟨root, rfl⟩ := Option.isSome_iff_exists.mp hsome
    obtain ⟨f, X, hs, hd⟩ := hspec root rfl
    exact ⟨m, root, f, X, hs, hd⟩

end small

omit [Image] in
theorem copy_isolation_page : ∃ (_ : Image) (m : Mach) (root : ℕ) (f : ℕ → Word) (X : Multiset ℕ),
    Space m root 1 0 f X ∧ X + frames f 0 1 ≤ ram ∧
    wp (copyout root 5 [1, 2]) (fun ok m' => CopiedOut m f 5 [1, 2] ok m' ∧
      (ok = true → wp (copyin root 5 2) (fun r _ => r = some [1, 2]) never m')) never m ∧
    wp (copyin root 5 3) (fun r m' => m' = m ∧ r = userBytes m f 5 3) never m ∧
    wp (copyinstr root 5 9) (fun r m' => m' = m ∧ r = userString m f 5 9) never m := by
  obtain ⟨m, root, f, X, hs, hd⟩ := exists_onePage
  have h := @copy_isolation smallImage m root 1 0 f X hs hd 5 3 9 [1, 2]
  exact ⟨smallImage, m, root, f, X, hs, hd, h.1, h.2.1, h.2.2.1⟩

end Xv6.Vm
