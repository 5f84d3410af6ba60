import Xv6.PageMap

/-! User address spaces: the memory of a process from address 0 up to its size, and the
trapframe and trampoline pages at the top. -/
namespace Xv6.Vm

open Program Function Multiset

def trapframeVpn : ℕ := 2 ^ 26 - 2

def trampolineVpn : ℕ := 2 ^ 26 - 1

lemma trapframe_eq : trapframe = trapframeVpn * pgsize := rfl

lemma trampoline_eq : trampoline = trampolineVpn * pgsize := rfl

def npages (sz : ℕ) : ℕ := (sz + pgsize - 1) / pgsize

theorem pgroundup_eq {sz : ℕ} (h : sz ≤ 2 ^ 64 - pgsize) : pgroundup sz = npages sz * pgsize := by
  unfold pgroundup npages pgsize at *
  omega

@[simp] lemma npages_zero : npages 0 = 0 := by decide

theorem npages_mul (n : ℕ) : npages (n * pgsize) = n := by
  unfold npages pgsize
  omega

theorem npages_mono {a b : ℕ} (h : a ≤ b) : npages a ≤ npages b := by
  unfold npages pgsize
  omega

theorem le_npages_mul (sz : ℕ) : sz ≤ npages sz * pgsize := by
  unfold npages pgsize
  omega

/-- The map of a process with `n` pages of memory whose trapframe is in page `tf`. -/
structure Layout [Image] (n tf : ℕ) (f : ℕ → Word) : Prop where
  user : ∀ v < n, IsLeaf (f v)
  trapframe : f trapframeVpn = mkPte tf (pteR ||| pteW)
  trampoline : f trampolineVpn = mkPte Image.trampolinePage (pteR ||| pteX)
  rest : ∀ v < 2 ^ 27, n ≤ v → v ≠ trapframeVpn → v ≠ trampolineVpn → f v = 0

/-- The page table at `root` is that of such a process, kept in the pages `X`. -/
structure Space [Image] (m : Mach) (root n tf : ℕ) (f : ℕ → Word) (X : Multiset ℕ) : Prop where
  maps : Maps m root f X
  layout : Layout n tf f

lemma isLeaf_mkPte {p : ℕ} {perm : Word} (hf : IsFlags perm)
    (hx : hasFlag perm (pteR ||| pteW ||| pteX)) : IsLeaf (mkPte p perm) :=
  ⟨(hasFlag_mkPte hf (by rfl)).mpr (.inr (by decide)),
    (hasFlag_mkPte hf (by rfl)).mpr (.inl hx)⟩

variable [Image] {m m' : Mach} {root n k tf v lo oldsz newsz : ℕ} {f g : ℕ → Word}
  {X A B : Multiset ℕ} {xperm : Word}

lemma isLeaf_trampoline : IsLeaf (mkPte Image.trampolinePage (pteR ||| pteX)) :=
  isLeaf_mkPte rfl (by decide)

omit [Image] in
lemma isLeaf_trapframe : IsLeaf (mkPte tf (pteR ||| pteW)) := isLeaf_mkPte rfl (by decide)

omit [Image] in
@[simp] theorem card_frames : (frames f lo n).card = n := by
  simp [frames]

theorem Owns.card_le (h : Owns m X) : X.card ≤ 2 ^ 15 := by
  have hc := congrArg card h
  have hk := Image.kernbase_le
  rw [card_add, ram, Finset.card_val, Nat.card_Ico] at hc
  unfold phystop pgsize at hc
  unfold kernbase at hc hk
  omega

lemma Layout.congr (h : Layout n tf f) (hn : n ≤ trapframeVpn) (hk : k ≤ n)
    (hg : ∀ v < 2 ^ 27, g v = cleared f k (n - k) v) : Layout k tf g := by
  have htv : trapframeVpn = 2 ^ 26 - 2 := rfl
  have hpv : trampolineVpn = 2 ^ 26 - 1 := rfl
  refine ⟨?_, ?_, ?_, ?_⟩
  · intro v hv
    rw [hg v (by omega), cleared, if_neg (by omega)]
    exact h.user v (by omega)
  · rw [hg _ (by omega), cleared, if_neg (by omega), h.trapframe]
  · rw [hg _ (by omega), cleared, if_neg (by omega), h.trampoline]
  · intro v hv hkv h1 h2
    rw [hg v hv, cleared]
    split_ifs with hc
    · rfl
    · exact h.rest v hv (by omega) h1 h2

lemma Layout.snoc {w : Word} (h : Layout n tf f) (hn : n < trapframeVpn) (hw : IsLeaf w) :
    Layout (n + 1) tf (update f n w) := by
  have htv : trapframeVpn = 2 ^ 26 - 2 := rfl
  have hpv : trampolineVpn = 2 ^ 26 - 1 := rfl
  refine ⟨?_, ?_, ?_, ?_⟩
  · intro v hv
    by_cases hvn : v = n
    · rwa [hvn, update_self]
    · rw [update_of_ne hvn]
      exact h.user v (by omega)
  · rw [update_of_ne (by omega), h.trapframe]
  · rw [update_of_ne (by omega), h.trampoline]
  · intro v hv hnv h1 h2
    rw [update_of_ne (by omega)]
    exact h.rest v hv (by omega) h1 h2

theorem Layout.lt_of_user (h : Layout n tf f) (hv : v < 2 ^ 27) (hu : hasFlag (f v) pteU) :
    v < n := by
  by_contra hn
  by_cases h1 : v = trapframeVpn
  · subst h1
    rw [h.trapframe, hasFlag_mkPte (by rfl) (by rfl)] at hu
    exact absurd hu (by decide)
  by_cases h2 : v = trampolineVpn
  · subst h2
    rw [h.trampoline, hasFlag_mkPte (by rfl) (by rfl)] at hu
    exact absurd hu (by decide)
  rw [h.rest v hv (by omega) h1 h2] at hu
  exact not_hasFlag_zero _ hu

lemma uvmfree_empty (hm : Maps m root f X) (hz : ∀ v < 2 ^ 27, f v = 0) (ho : Owns m (X + A)) :
    wp (uvmfree root 0) (fun _ m' => Owns m' A ∧ Keeps A m m') never m := by
  unfold uvmfree
  rw [if_neg (by omega)]
  exact freewalk_spec hm hz ho

theorem procPagetable_spec (ho : Owns m A) :
    wp (procPagetable tf) (fun r m' => Keeps A m m' ∧ match r with
      | none => Owns m' A
      | some root => ∃ f X, Space m' root 0 tf f X ∧ Owns m' (X + A)) never m := by
  unfold procPagetable
  refine wp_seq (uvmcreate_spec ho) ?_
  rintro (_ | root) m1 ⟨hk1, h⟩
  · exact wp_pure ⟨hk1, h⟩
  obtain ⟨ho1, hm1⟩ := h
  rw [trampoline_eq, trapframe_eq]
  refine wp_seq (mappages_spec hm1 ho1 (by decide) rfl) ?_
  rintro (_ | _) m2 ⟨X2, ho2, hk2, hm2⟩
  · refine wp_seq (uvmfree_empty hm2 (fun _ _ => rfl) ho2) ?_
    rintro _ m3 ⟨ho3, hk3⟩
    exact wp_pure ⟨(hk1.trans hk2).trans hk3, ho3⟩
  rw [if_pos rfl] at hm2
  rw [if_pos rfl]
  refine wp_seq (mappages_spec hm2 ho2 (by decide) (update_of_ne (by decide) ..)) ?_
  rintro (_ | _) m3 ⟨X3, ho3, hk3, hm3⟩
  · rw [if_neg (by decide)] at hm3
    rw [if_neg (by decide)]
    have hleaf : ∀ v, trampolineVpn ≤ v → v < trampolineVpn + 1 →
        IsLeaf (update (fun _ => (0 : Word)) trampolineVpn
          (mkPte Image.trampolinePage (pteR ||| pteX)) v) := by
      intro v hv hv'
      obtain rfl : v = trampolineVpn := by omega
      rw [update_self]
      exact isLeaf_trampoline
    refine wp_seq (uvmunmap_keep hm3 ho3 hleaf (by decide)) ?_
    rintro _ m4 ⟨hm4, ho4, hk4⟩
    refine wp_seq (uvmfree_empty hm4 ?_ ho4) ?_
    · intro v _
      unfold cleared
      split_ifs
      · rfl
      · exact update_of_ne (by omega) ..
    · rintro _ m5 ⟨ho5, hk5⟩
      exact wp_pure ⟨(((hk1.trans hk2).trans hk3).trans hk4).trans hk5, ho5⟩
  · rw [if_pos rfl] at hm3
    rw [if_pos rfl]
    refine wp_pure ⟨(hk1.trans hk2).trans hk3, _, X3, ⟨hm3, ?_⟩, ho3⟩
    refine ⟨fun v hv => absurd hv (by omega), update_self .., ?_, ?_⟩
    · rw [update_of_ne (by decide), update_self]
    · intro v _ _ h1 h2
      rw [update_of_ne h1, update_of_ne h2]

theorem uvmdealloc_spec (hs : Space m root (npages oldsz) tf f X)
    (ho : Owns m (X + (frames f (npages newsz) (npages oldsz - npages newsz) + B)))
    (hn : npages oldsz ≤ trapframeVpn) (hlt : newsz < oldsz) :
    wp (uvmdealloc root oldsz newsz) (fun r m' => r = newsz ∧
      Space m' root (npages newsz) tf (cleared f (npages newsz) (npages oldsz - npages newsz)) X ∧
      Owns m' (X + B) ∧ Keeps B m m') never m := by
  have htv : trapframeVpn = 2 ^ 26 - 2 := rfl
  have hsz := le_npages_mul oldsz
  have hle : npages newsz ≤ npages oldsz := npages_mono hlt.le
  unfold uvmdealloc
  rw [if_neg (by omega), pgroundup_eq (by unfold pgsize at *; omega),
    pgroundup_eq (by unfold pgsize at *; omega)]
  split_ifs with hpg
  · have hcount : signExtend32 ((npages oldsz * pgsize - npages newsz * pgsize) / pgsize) =
        npages oldsz - npages newsz := by
      unfold signExtend32 pgsize
      split_ifs <;> omega
    rw [hcount]
    refine wp_seq (uvmunmap_free hs.maps ho (fun v _ hv => hs.layout.user v (by omega))
      (by omega)) ?_
    rintro _ m' ⟨hm', ho', hk'⟩
    exact wp_pure ⟨rfl, ⟨hm', hs.layout.congr hn hle fun _ _ => rfl⟩, ho', hk'⟩
  · have heq : npages oldsz = npages newsz := by
      unfold pgsize at hpg
      omega
    rw [heq, Nat.sub_self, frames_zero, zero_add] at ho
    refine wp_pure ⟨rfl, ?_, ho, Keeps.refl B m⟩
    rw [heq, Nat.sub_self, cleared_zero]
    exact heq ▸ hs

omit [Image] in
lemma frames_update_snoc {w : Word} (hf : ptePage w = v) :
    frames (update f (lo + k) w) lo (k + 1) = {v} + frames f lo k := by
  have hsame : frames (update f (lo + k) w) lo k = frames f lo k := by
    refine frames_congr fun u _ hu => update_of_ne ?_ ..
    omega
  rw [frames_add, hsame, frames_succ, update_self, hf, frames_zero, add_zero, add_comm]

/-- How `uvmalloc` ends when it was to grow memory from `lo` to `n` pages: with the new
pages zeroed and mapped for the user, or with the old ones alone. -/
def Grown (m : Mach) (root lo n tf : ℕ) (f : ℕ → Word) (B : Multiset ℕ) (ok : Bool) (m' : Mach) :
    Prop :=
  Keeps B m m' ∧ ∃ f' X', (∀ v < lo, f' v = f v) ∧
    if ok then
      Space m' root n tf f' X' ∧ Owns m' (X' + (frames f' lo (n - lo) + B)) ∧
        ∀ v, lo ≤ v → v < n → hasFlag (f' v) pteU ∧ m'.mem (ptePage (f' v)) = .fill 0
    else Space m' root lo tf f' X' ∧ Owns m' (X' + B)

lemma uvmalloc_undo {m1 : Mach} (hs : Space m1 root (lo + k) tf f X)
    (ho : Owns m1 (X + (frames f lo k + B))) (hn : lo + k ≤ trapframeVpn) (hk : Keeps B m m1) :
    wp (do
      let _ ← uvmdealloc root ((lo + k) * pgsize) (lo * pgsize)
      return false) (Grown m root lo n tf f B) never m1 := by
  by_cases hk0 : k = 0
  · subst hk0
    unfold uvmdealloc
    rw [add_zero, if_pos le_rfl]
    rw [frames_zero, zero_add] at ho
    exact wp_bind (wp_pure (wp_pure ⟨hk, f, X, fun _ _ => rfl, hs, ho⟩))
  · have hlt : lo * pgsize < (lo + k) * pgsize := by
      unfold pgsize
      omega
    rw [← npages_mul (lo + k)] at hs hn
    have hsub : npages ((lo + k) * pgsize) - npages (lo * pgsize) = k := by
      rw [npages_mul, npages_mul]
      omega
    refine wp_seq (uvmdealloc_spec hs (by rwa [hsub, npages_mul]) hn hlt) ?_
    rintro _ m2 ⟨_, hs2, ho2, hk2⟩
    rw [npages_mul lo] at hs2
    refine wp_pure ⟨hk.trans hk2, _, X, ?_, hs2, ho2⟩
    intro v hv
    rw [cleared, if_neg (by omega)]

/-- The loop of `uvmalloc`: `lo` pages were there before the call, `k` have been added, and
`j` are to come. -/
lemma uvmallocFrom_spec {j : ℕ} (hx : IsFlags xperm) (hs : Space m root (lo + k) tf f X)
    (ho : Owns m (X + (frames f lo k + B))) (hB : lo ≤ B.card)
    (hu : ∀ v, lo ≤ v → v < lo + k → hasFlag (f v) pteU ∧ m.mem (ptePage (f v)) = .fill 0) :
    wp (uvmallocFrom root (lo * pgsize) xperm j ((lo + k) * pgsize))
      (Grown m root lo (lo + k + j) tf f B) never m := by
  have htv : trapframeVpn = 2 ^ 26 - 2 := rfl
  induction j generalizing m k f X with
  | zero =>
    refine wp_pure ⟨Keeps.refl B m, f, X, fun _ _ => rfl, hs, ?_, hu⟩
    rwa [show lo + k + 0 - lo = k by omega]
  | succ j ih =>
    have hperm : IsFlags (pteR ||| pteU ||| xperm) := IsFlags.or (by rfl) hx
    unfold uvmallocFrom
    refine wp_seq (kalloc_spec ho) ?_
    rintro (_ | mem) m1 ⟨ho1, hk1⟩
    · have hcard := ho.card_le
      simp only [card_add, card_frames] at hcard
      refine uvmalloc_undo ⟨hs.maps.frame hk1.left, hs.layout⟩ (by simpa using ho1) (by omega)
        hk1.right.right
    have hcard := ho1.card_le
    simp only [Option.elim_some, card_add, card_singleton, card_frames] at hcard
    -- the fresh page belongs to nobody else while it is being mapped
    have hmem : mem ∉ X + (frames f lo k + B) := ho1.not_mem (mem_singleton_self mem)
    have hk2 : Keeps (X + (frames f lo k + B)) m (m1.put mem (.fill 0)) :=
      hk1.trans (Keeps.put hmem)
    have ho2 : Owns (m1.put mem (.fill 0)) (X + ({mem} + (frames f lo k + B))) := by
      rw [add_left_comm]
      exact ho1
    have hlt : mem < maxPage := ho1.lt_maxPage (by simp)
    refine wp_bind (wp_setPage ?_)
    refine wp_seq (mappages_spec (hs.maps.frame hk2.left) ho2 (by omega)
      (hs.layout.rest _ (by omega) le_rfl (by omega) (by unfold trampolineVpn; omega))) ?_
    rintro (_ | _) m3 ⟨X3, ho3, hk3, hm3⟩
    · rw [if_neg (by decide)] at hm3 ⊢
      rw [add_left_comm] at ho3
      refine wp_seq (kfree_spec ho3) ?_
      rintro _ m4 ⟨ho4, hk4⟩
      exact uvmalloc_undo ⟨hm3.frame hk4.left, hs.layout⟩ ho4 (by omega)
        ((hk2.right.right.trans hk3.right.right).trans hk4.right.right)
    · rw [if_pos rfl] at hm3 ⊢
      have hleaf : IsLeaf (mkPte mem (pteR ||| pteU ||| xperm)) :=
        isLeaf_mkPte hperm (hasFlag_or.mpr (.inl (by decide)))
      have hnext := ih (k := k + 1) ⟨hm3, hs.layout.snoc (by omega) hleaf⟩ ?_ ?_
      · rw [show lo + (k + 1) + j = lo + k + (j + 1) by omega,
          show (lo + (k + 1)) * pgsize = (lo + k) * pgsize + pgsize by
            unfold pgsize; omega] at hnext
        refine wp_post hnext ?_
        rintro ok m' ⟨hk', f', X', hsame, hrest⟩
        refine ⟨(hk2.right.right.trans hk3.right.right).trans hk', f', X', ?_, hrest⟩
        intro v hv
        rw [hsame v hv, update_of_ne (by omega)]
      · rw [frames_update_snoc (ptePage_mkPte hlt hperm), add_assoc]
        exact ho3
      · intro v h1 h2
        by_cases hv : v = lo + k
        · rw [hv, update_self, hasFlag_mkPte hperm (by rfl), ptePage_mkPte hlt hperm,
            hk3 mem (by simp)]
          exact ⟨.inl (hasFlag_or.mpr (.inl (by decide))), update_self ..⟩
        · rw [update_of_ne hv]
          have hold := hu v h1 (by omega)
          have hin : ptePage (f v) ∈ frames f lo k := mem_frames h1 (by omega)
          refine ⟨hold.1, ?_⟩
          rw [hk3 _ (by simp [hin]), hk2 _ (by simp [hin])]
          exact hold.2

theorem uvmalloc_spec (hx : IsFlags xperm) (hs : Space m root (npages oldsz) tf f X)
    (ho : Owns m (X + B)) (hB : npages oldsz ≤ B.card) :
    wp (uvmalloc root oldsz newsz xperm) (fun r m' =>
      newsz < oldsz ∧ r = oldsz ∧ m' = m ∨
      oldsz ≤ newsz ∧ r = newsz ∧ Grown m root (npages oldsz) (npages newsz) tf f B true m' ∨
      oldsz ≤ newsz ∧ r = 0 ∧ Grown m root (npages oldsz) (npages newsz) tf f B false m')
      never m := by
  have hcard := ho.card_le
  rw [card_add] at hcard
  have hsz := le_npages_mul oldsz
  unfold uvmalloc
  split_ifs with hlt
  · exact wp_pure (.inl ⟨hlt, rfl, rfl⟩)
  · have hle : oldsz ≤ newsz := by omega
    have hturns : turns (npages oldsz * pgsize) newsz = npages newsz - npages oldsz := by
      unfold turns npages pgsize
      omega
    have hnn := npages_mono hle
    rw [pgroundup_eq (by unfold pgsize at *; omega)]
    simp only [hturns]
    have hs0 : Space m root (npages oldsz + 0) tf f X := hs
    have hloop := uvmallocFrom_spec (j := npages newsz - npages oldsz) hx hs0
      (by simpa using ho) hB (fun v h1 h2 => by omega)
    rw [add_zero, Nat.add_sub_cancel' hnn] at hloop
    refine wp_seq hloop ?_
    rintro (_ | _) m' h
    · exact wp_pure (.inr (.inr ⟨hle, rfl, h⟩))
    · exact wp_pure (.inr (.inl ⟨hle, rfl, h⟩))

lemma uvmfree_spec {sz : ℕ} (hm : Maps m root f X)
    (ho : Owns m (X + (frames f 0 (npages sz) + A))) (huser : ∀ v < npages sz, IsLeaf (f v))
    (hrest : ∀ v < 2 ^ 27, npages sz ≤ v → f v = 0) :
    wp (uvmfree root sz) (fun _ m' => Owns m' A ∧ Keeps A m m') never m := by
  have hcard := ho.card_le
  rw [card_add, card_add, card_frames] at hcard
  have hsz := le_npages_mul sz
  unfold uvmfree
  split_ifs with h0
  · rw [pgroundup_eq (by unfold pgsize at *; omega),
      Nat.mul_div_cancel _ (show 0 < pgsize by decide)]
    have hun := uvmunmap_free hm ho (fun v _ hv => huser v (by omega)) (by omega)
    rw [zero_mul] at hun
    refine wp_seq hun ?_
    rintro _ m1 ⟨hm1, ho1, hk1⟩
    have hz : ∀ v < 2 ^ 27, cleared f 0 (npages sz) v = 0 := by
      intro v hv
      unfold cleared
      split_ifs with hc
      · rfl
      · exact hrest v hv (by omega)
    refine wp_post (freewalk_spec hm1 hz ho1) ?_
    rintro _ m2 ⟨ho2, hk2⟩
    exact ⟨ho2, hk1.trans hk2⟩
  · obtain rfl : sz = 0 := by omega
    refine freewalk_spec hm (fun v hv => hrest v hv ?_) (by simpa using ho)
    exact Nat.zero_le v

/-- `proc_freepagetable` gives back the memory of a process and its tables, but not its
trapframe. -/
theorem procFreepagetable_spec {sz : ℕ} (hs : Space m root (npages sz) tf f X)
    (ho : Owns m (X + (frames f 0 (npages sz) + A))) :
    wp (procFreepagetable root sz) (fun _ m' => Owns m' A ∧ Keeps A m m') never m := by
  have htv : trapframeVpn = 2 ^ 26 - 2 := rfl
  have hpv : trampolineVpn = 2 ^ 26 - 1 := rfl
  have hcard := ho.card_le
  rw [card_add, card_add, card_frames] at hcard
  have hl := hs.layout
  unfold procFreepagetable
  rw [trampoline_eq, trapframe_eq]
  have hleaf : ∀ v, trampolineVpn ≤ v → v < trampolineVpn + 1 → IsLeaf (f v) := by
    intro v h1 h2
    obtain rfl : v = trampolineVpn := by omega
    rw [hl.trampoline]
    exact isLeaf_trampoline
  refine wp_seq (uvmunmap_keep hs.maps ho hleaf (by omega)) ?_
  rintro _ m1 ⟨hm1, ho1, hk1⟩
  have hleaf' : ∀ v, trapframeVpn ≤ v → v < trapframeVpn + 1 →
      IsLeaf (cleared f trampolineVpn 1 v) := by
    intro v h1 h2
    obtain rfl : v = trapframeVpn := by omega
    rw [cleared, if_neg (by omega), hl.trapframe]
    exact isLeaf_trapframe
  refine wp_seq (uvmunmap_keep hm1 ho1 hleaf' (by omega)) ?_
  rintro _ m2 ⟨hm2, ho2, hk2⟩
  set g := cleared (cleared f trampolineVpn 1) trapframeVpn 1
  have hg : ∀ v, v ≠ trapframeVpn → v ≠ trampolineVpn → g v = f v := by
    intro v h1 h2
    unfold g
    rw [cleared, if_neg (by omega), cleared, if_neg (by omega)]
  have hfr : frames g 0 (npages sz) = frames f 0 (npages sz) :=
    frames_congr fun v _ hv => hg v (by omega) (by omega)
  have huser : ∀ v < npages sz, IsLeaf (g v) := by
    intro v hv
    rw [hg v (by omega) (by omega)]
    exact hl.user v hv
  have hrest : ∀ v < 2 ^ 27, npages sz ≤ v → g v = 0 := by
    intro v hv hn
    by_cases h1 : v = trapframeVpn
    · unfold g
      rw [cleared, if_pos (by omega)]
    by_cases h2 : v = trampolineVpn
    · unfold g
      rw [cleared, if_neg (by omega), cleared, if_pos (by omega)]
    rw [hg v h1 h2]
    exact hl.rest v hv hn h1 h2
  refine wp_post (uvmfree_spec hm2 (hfr ▸ ho2) huser hrest) ?_
  rintro _ m3 ⟨ho3, hk3⟩
  exact ⟨ho3, (hk1.right.trans hk2.right).trans hk3⟩

/-- How `uvmcopy` of `n` pages of the map `g` ends: with all of them, under the flags they had,
or with none. -/
def Copied (m : Mach) (g : ℕ → Word) (new n tf : ℕ) (B : Multiset ℕ) (ok : Bool) (m' : Mach) :
    Prop :=
  Keeps B m m' ∧ ∃ f' X',
    if ok then
      Space m' new n tf f' X' ∧ Owns m' (X' + (frames f' 0 n + B)) ∧
        ∀ v < n, pteFlags (f' v) = pteFlags (g v) ∧
          m'.mem (ptePage (f' v)) = m.mem (ptePage (g v))
    else Space m' new 0 tf f' X' ∧ Owns m' (X' + B)

lemma uvmcopy_undo {m1 : Mach} (hs : Space m1 root k tf f X)
    (ho : Owns m1 (X + (frames f 0 k + B))) (hk : Keeps B m m1) :
    wp (do
      uvmunmap root 0 (k * pgsize / pgsize) true
      return false) (Copied m g root n tf B) never m1 := by
  have htv : trapframeVpn = 2 ^ 26 - 2 := rfl
  have hcard := ho.card_le
  rw [card_add, card_add, card_frames] at hcard
  have hun := uvmunmap_free hs.maps ho (fun v _ hv => hs.layout.user v (by omega)) (by omega)
  rw [zero_mul] at hun
  rw [Nat.mul_div_cancel _ (show 0 < pgsize by decide)]
  refine wp_seq hun ?_
  rintro _ m2 ⟨hm2, ho2, hk2⟩
  exact wp_pure ⟨hk.trans hk2, _, X, ⟨hm2, hs.layout.congr (by omega) (Nat.zero_le k)
    fun _ _ => rfl⟩, ho2⟩

/-- The loop of `uvmcopy`: the parent's table in the pages `Y` and its memory are among what is
kept. -/
lemma uvmcopyFrom_spec {old j : ℕ} {Y C : Multiset ℕ} (hold : Maps m old g Y)
    (hleaf : ∀ v < k + j, IsLeaf (g v)) (hmem : ∀ v < k + j, ptePage (g v) ∈ Y + C)
    (hs : Space m root k tf f X) (ho : Owns m (X + (frames f 0 k + (Y + C))))
    (hcopy : ∀ v < k, pteFlags (f v) = pteFlags (g v) ∧
      m.mem (ptePage (f v)) = m.mem (ptePage (g v))) :
    wp (uvmcopyFrom old root j (k * pgsize)) (Copied m g root (k + j) tf (Y + C)) never m := by
  have htv : trapframeVpn = 2 ^ 26 - 2 := rfl
  induction j generalizing m k f X with
  | zero => exact wp_pure ⟨Keeps.refl _ m, f, X, hs, ho, hcopy⟩
  | succ j ih =>
    have hcard := ho.card_le
    simp only [card_add, card_frames] at hcard
    have hl := hleaf k (by omega)
    have hlt : ∀ p ∈ Y, p < maxPage := fun p hp => ho.lt_maxPage (by
      simp only [mem_add]
      exact .inr (.inr (.inl hp)))
    unfold uvmcopyFrom
    refine wp_seq (walk_find hold hlt (by omega)) ?_
    rintro r m1 ⟨rfl, ⟨_, hzero⟩ | ⟨pte, rfl, hpte⟩⟩
    · exact absurd hzero hl.ne_zero
    refine wp_bind (wp_loadPte ?_)
    rw [hpte.read (by omega), if_neg (not_not.mpr hl.1)]
    refine wp_seq (kalloc_spec ho) ?_
    rintro (_ | mem) m2 ⟨ho2, hk2⟩
    · exact uvmcopy_undo ⟨hs.maps.frame hk2.left, hs.layout⟩ (by simpa using ho2) hk2.right.right
    have hcard2 := ho2.card_le
    simp only [Option.elim_some, card_add, card_singleton, card_frames] at hcard2
    have hfresh := ho2.not_mem (mem_singleton_self mem)
    have hmlt : mem < maxPage := ho2.lt_maxPage (by simp)
    refine wp_bind (wp_page (wp_bind (wp_setPage ?_)))
    set m3 := m2.put mem (m2.mem (ptePage (g k))) with hm3
    have hk3 : Keeps (X + (frames f 0 k + (Y + C))) m1 m3 := hk2.trans (Keeps.put hfresh)
    have ho3 : Owns m3 (X + ({mem} + (frames f 0 k + (Y + C)))) := by
      rw [add_left_comm]
      exact ho2
    refine wp_seq (mappages_spec (hs.maps.frame hk3.left) ho3 (by omega)
      (hs.layout.rest _ (by omega) le_rfl (by omega) (by unfold trampolineVpn; omega))) ?_
    rintro (_ | _) m4 ⟨X4, ho4, hk4, hm4⟩
    · rw [if_neg (by decide)] at hm4 ⊢
      rw [add_left_comm] at ho4
      refine wp_seq (kfree_spec ho4) ?_
      rintro _ m5 ⟨ho5, hk5⟩
      exact uvmcopy_undo ⟨hm4.frame hk5.left, hs.layout⟩ ho5
        ((hk3.right.right.trans hk4.right.right).trans hk5.right.right)
    · rw [if_pos rfl] at hm4 ⊢
      have hkeep : Keeps (Y + C) m1 m4 := hk3.right.right.trans hk4.right.right
      have hleaf' : IsLeaf (mkPte mem (pteFlags (g k))) :=
        isLeaf_mkPte (isFlags_pteFlags _) ((hasFlag_pteFlags (by rfl)).mpr hl.2)
      have hpage : ptePage (mkPte mem (pteFlags (g k))) = mem :=
        ptePage_mkPte hmlt (isFlags_pteFlags (g k))
      have hown : Owns m4 (X4 + (frames (update f k (mkPte mem (pteFlags (g k)))) 0 (k + 1) +
          (Y + C))) := by
        have hfr : frames (update f (0 + k) (mkPte mem (pteFlags (g k)))) 0 (k + 1) =
            {mem} + frames f 0 k := frames_update_snoc hpage
        rw [zero_add] at hfr
        rw [hfr, add_assoc]
        exact ho4
      have hcopy' : ∀ v < k + 1,
          pteFlags (update f k (mkPte mem (pteFlags (g k))) v) = pteFlags (g v) ∧
          m4.mem (ptePage (update f k (mkPte mem (pteFlags (g k))) v)) =
            m4.mem (ptePage (g v)) := by
        intro v hv
        rw [hkeep _ (hmem v (by omega))]
        by_cases hvk : v = k
        · subst hvk
          rw [update_self, pteFlags_mkPte (isFlags_pteFlags _), hpage,
            pteFlags_or_pteV hl.1, hk4 mem (by simp), hm3, ← hk2.right.right _ (hmem v (by omega))]
          exact ⟨rfl, update_self ..⟩
        · rw [update_of_ne hvk]
          have hin : ptePage (f v) ∈ frames f 0 k := mem_frames (Nat.zero_le v) (by omega)
          have hold' := hcopy v (by omega)
          rw [hk4 _ (by simp [hin]), hk3 _ (by simp [hin])]
          exact hold'
      have hnext := ih (hold.frame hkeep.left) (fun v hv => hleaf v (by omega))
        (fun v hv => hmem v (by omega)) ⟨hm4, hs.layout.snoc (by omega) hleaf'⟩ hown hcopy'
      rw [show k + 1 + j = k + (j + 1) by omega,
        show (k + 1) * pgsize = k * pgsize + pgsize by unfold pgsize; omega] at hnext
      refine wp_post hnext ?_
      rintro (_ | _) m' ⟨hk', f', X', hrest⟩
      · exact ⟨hkeep.trans hk', f', X', hrest⟩
      · refine ⟨hkeep.trans hk', f', X', hrest.1, hrest.2.1, ?_⟩
        intro v hv
        rw [← hkeep _ (hmem v hv)]
        exact hrest.2.2 v hv

theorem uvmcopy_spec {old sz : ℕ} {Y C : Multiset ℕ} (hold : Maps m old g Y)
    (hleaf : ∀ v < npages sz, IsLeaf (g v)) (hmem : ∀ v < npages sz, ptePage (g v) ∈ Y + C)
    (hs : Space m root 0 tf f X) (ho : Owns m (X + (Y + C))) :
    wp (uvmcopy old root sz) (Copied m g root (npages sz) tf (Y + C)) never m := by
  have hloop := uvmcopyFrom_spec (k := 0) (j := npages sz) hold (by simpa using hleaf)
    (by simpa using hmem) hs (by simpa using ho) (fun v hv => absurd hv (by omega))
  rw [zero_add, zero_mul] at hloop
  exact hloop

section
variable (hs : Space m root n tf f X) (ho : Owns m (X + (frames f 0 n + A)))
include hs ho

theorem uvmclear_spec (hv : v < n) :
    wp (uvmclear root (v * pgsize)) (fun _ m' =>
      Space m' root n tf (update f v (f v &&& ~~~pteU)) X ∧
      Owns m' (X + (frames f 0 n + A)) ∧ Keeps (frames f 0 n + A) m m') never m := by
  have hcard := ho.card_le
  rw [card_add, card_add, card_frames] at hcard
  have htv : trapframeVpn = 2 ^ 26 - 2 := rfl
  have hpv : trampolineVpn = 2 ^ 26 - 1 := rfl
  have hl := hs.layout
  have hlt : ∀ p ∈ X, p < maxPage := fun p hp => ho.lt_maxPage (mem_add.mpr (.inl hp))
  unfold uvmclear
  refine wp_seq (walk_find hs.maps hlt (by omega)) ?_
  rintro r m1 ⟨rfl, ⟨_, hzero⟩ | ⟨pte, rfl, hpte⟩⟩
  · exact absurd hzero (hl.user v hv).ne_zero
  refine wp_bind (wp_loadPte (wp_storePte ?_))
  rw [hpte.read (by omega)]
  refine ⟨⟨hpte.write (nodup_add.mp ho.nodup).1 (by omega) _, ?_⟩, ho,
    Keeps.put (ho.not_mem hpte.mem)⟩
  refine ⟨?_, ?_, ?_, ?_⟩
  · intro u hu
    by_cases huv : u = v
    · subst huv
      rw [update_self]
      exact ⟨(hasFlag_and_not (by decide)).mpr (hl.user u hu).1,
        (hasFlag_and_not (by decide)).mpr (hl.user u hu).2⟩
    · rw [update_of_ne huv]
      exact hl.user u hu
  · rw [update_of_ne (by omega), hl.trapframe]
  · rw [update_of_ne (by omega), hl.trampoline]
  · intro u hu hn h1 h2
    rw [update_of_ne (by omega)]
    exact hl.rest u hu hn h1 h2

theorem Space.write {p : ℕ} {d : Page} (hp : p ∈ frames f 0 n) :
    Space (m.put p d) root n tf f X ∧ Keeps A m (m.put p d) := by
  rw [add_left_comm] at ho
  have hnot := ho.not_mem hp
  refine ⟨⟨hs.maps.frame (Keeps.put fun h => hnot (mem_add.mpr (.inl h))), hs.layout⟩,
    Keeps.put fun h => hnot (mem_add.mpr (.inr h))⟩

end

end Xv6.Vm
