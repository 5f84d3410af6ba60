import Xv6.CopyUser
import Xv6.Exec

/-! The memory that `exec` builds. Each routine is described by the bytes of the new image: a
segment and a pushed string lie over what was there, and new pages are zero. -/
namespace Xv6.Vm

open Program Function

def Mach.image (m : Mach) (f : ℕ → Word) (n a : ℕ) : Byte :=
  if a < n * pgsize then m.load f a else 0

def overlay (g : ℕ → Byte) (va : ℕ) (bs : List Byte) (a : ℕ) : Byte :=
  if va ≤ a ∧ a < va + bs.length then bs.getD (a - va) 0 else g a

def user (_ : ℕ) (w : Word) : Prop := hasFlag w pteU

def guarded (guard v : ℕ) (w : Word) : Prop := hasFlag w pteU ↔ v ≠ guard

variable [Image] {m m' : Mach} {root n tf sz : ℕ} {f : ℕ → Word} {X A : Multiset ℕ}
  {P : ℕ → Word → Prop} {g : ℕ → Byte} {file : List Byte} {argv : List (List Byte)}

/-- The page table at `root` is that of a process with `n` pages of memory, whose entries are as
`P` says and whose bytes are `g`; the other pages in use are `A`. -/
def Holds (m : Mach) (root n tf : ℕ) (P : ℕ → Word → Prop) (g : ℕ → Byte) (A : Multiset ℕ) :
    Prop :=
  ∃ f X, Space m root n tf f X ∧ (∀ v < n, P v (f v)) ∧ m.image f n = g ∧
    Owns m (X + (frames f 0 n + A))

theorem Owns.le_ram (h : Owns m (X + (frames f 0 n + A))) : X + frames f 0 n ≤ ram := by
  rw [← add_assoc] at h
  calc X + frames f 0 n ≤ X + frames f 0 n + A := Multiset.le_add_right _ _
    _ ≤ m.freelist + (X + frames f 0 n + A) := Multiset.le_add_left _ _
    _ = ram := h

lemma Owns.nodup_frames (h : Owns m (X + (frames f 0 n + A))) : (frames f 0 n).Nodup :=
  (Multiset.nodup_add.mp (Multiset.nodup_add.mp h.nodup).2.1).1

theorem Holds.le (h : Holds m root n tf P g A) : n ≤ 2 ^ 15 := by
  obtain ⟨f, X, _, _, _, ho⟩ := h
  have hcard := ho.card_le
  simp only [Multiset.card_add, card_frames] at hcard
  omega

theorem procPagetable_holds (ho : Owns m A) :
    wp (procPagetable tf) (fun r m' => Keeps A m m' ∧ match r with
      | none => Owns m' A
      | some root => Holds m' root 0 tf P (fun _ => 0) A) never m := by
  refine wp_post (procPagetable_spec ho) ?_
  rintro (_ | root) m' ⟨hk, h⟩
  · exact ⟨hk, h⟩
  · obtain ⟨f, X, hs, ho'⟩ := h
    refine ⟨hk, f, X, hs, fun v hv => absurd hv (by omega), ?_, by simpa using ho'⟩
    funext a
    exact if_neg (by omega)

theorem procFreepagetable_holds (h : Holds m root (npages sz) tf P g A) :
    wp (procFreepagetable root sz) (fun _ m' => Owns m' A ∧ Keeps A m m') never m := by
  obtain ⟨f, X, hs, _, _, ho⟩ := h
  exact procFreepagetable_spec hs ho

omit [Image] in
theorem image_grow {f' : ℕ → Word} {n' : ℕ} (hle : n ≤ n') (hsame : ∀ v < n, f' v = f v)
    (hk : Keeps (frames f 0 n) m m')
    (hz : ∀ v, n ≤ v → v < n' → m'.mem (ptePage (f' v)) = .fill 0) :
    m'.image f' n' = m.image f n := by
  funext a
  unfold Mach.image Mach.load framePage
  have hmul : n * pgsize ≤ n' * pgsize := Nat.mul_le_mul_right _ hle
  by_cases h : a < n * pgsize
  · have hv : a / pgsize < n := Nat.div_lt_of_lt_mul (by rwa [Nat.mul_comm])
    rw [if_pos (by omega), if_pos h, hsame _ hv, hk _ (mem_frames (Nat.zero_le _) (by omega))]
  · rw [if_neg h]
    split_ifs with h'
    · have hv : a / pgsize < n' := Nat.div_lt_of_lt_mul (by rwa [Nat.mul_comm])
      have hn : n ≤ a / pgsize := (Nat.le_div_iff_mul_le (by decide)).mpr (by omega)
      rw [hz _ hn hv]
      rfl
    · rfl

theorem uvmalloc_holds {oldsz newsz : ℕ} {xperm : Word} (hx : IsFlags xperm)
    (h : Holds m root (npages oldsz) tf user g A) :
    wp (uvmalloc root oldsz newsz xperm) (fun r m' => Keeps A m m' ∧
      Holds m' root (npages (if r = 0 then oldsz else r)) tf user g A ∧
      (r = 0 ∨ newsz ≤ r ∧ oldsz ≤ r ∧ (r = oldsz ∨ r = newsz))) never m := by
  obtain ⟨f, X, hs, hf, hg, ho⟩ := h
  refine wp_post (uvmalloc_spec hx hs ho (by simp)) ?_
  rintro r m' (⟨hlt, rfl, rfl⟩ | ⟨hle, rfl, hk, f', X', hsame, hs', ho', hu⟩ |
    ⟨hle, rfl, hk, f', X', hsame, hs', ho'⟩)
  · rw [if_neg (by omega)]
    exact ⟨Keeps.refl A m', ⟨f, X, hs, hf, hg, ho⟩, .inr ⟨hlt.le, le_rfl, .inl rfl⟩⟩
  · have hfr : frames f' 0 (npages r) =
        frames f 0 (npages oldsz) + frames f' (npages oldsz) (npages r - npages oldsz) := by
      have hsplit := frames_add f' 0 (npages oldsz) (npages r - npages oldsz)
      rw [Nat.add_sub_cancel' (npages_mono hle), zero_add] at hsplit
      rw [hsplit, frames_congr fun v _ hv => hsame v (by omega)]
    have hsz : npages (if r = 0 then oldsz else r) = npages r := by
      split_ifs with h0
      · rw [h0, show oldsz = 0 by omega]
      · rfl
    rw [hsz]
    refine ⟨hk.right, ⟨f', X', hs', ?_, ?_, ?_⟩, .inr ⟨le_rfl, hle, .inr rfl⟩⟩
    · intro v hv
      by_cases hlo : v < npages oldsz
      · rw [hsame v hlo]
        exact hf v hlo
      · exact (hu v (by omega) hv).1
    · rw [← hg]
      exact image_grow (npages_mono hle) hsame hk.left fun v h1 h2 => (hu v h1 h2).2
    · have hmove : X' + (frames f' 0 (npages r) + A) =
          X' + (frames f' (npages oldsz) (npages r - npages oldsz) +
            (frames f 0 (npages oldsz) + A)) := by
        rw [hfr]
        abel
      rw [hmove]
      exact ho'
  · rw [if_pos rfl]
    refine ⟨hk.right, ⟨f', X', hs', ?_, ?_, ?_⟩, .inl rfl⟩
    · intro v hv
      rw [hsame v hv]
      exact hf v hv
    · rw [← hg]
      exact image_grow le_rfl hsame hk.left fun v h1 h2 => absurd h2 (by omega)
    · rw [frames_congr fun v _ hv => hsame v (by omega)]
      exact ho'

lemma Holds.putPage {v : ℕ} {d : Page} (hs : Space m root n tf f X) (hf : ∀ v < n, P v (f v))
    (hg : m.image f n = g) (ho : Owns m (X + (frames f 0 n + A))) (hv : v < n) :
    Keeps A m (m.put (ptePage (f v)) d) ∧
    Holds (m.put (ptePage (f v)) d) root n tf P
      (fun a => if a / pgsize = v then d (Fin.ofNat pgsize a) else g a) A := by
  have hmem : ptePage (f v) ∈ frames f 0 n := mem_frames (Nat.zero_le _) (by omega)
  obtain ⟨hs', hk⟩ := hs.write (d := d) ho hmem
  refine ⟨hk, f, X, hs', hf, ?_, ho⟩
  funext a
  rw [← hg]
  unfold Mach.image Mach.load framePage Mach.put
  dsimp only
  have hdiv : a < n * pgsize ↔ a / pgsize < n := by
    rw [Nat.div_lt_iff_lt_mul (by decide)]
  by_cases hav : a / pgsize = v
  · rw [if_pos (hdiv.mpr (hav ▸ hv)), hav, update_self, if_pos rfl]
  · rw [if_neg hav]
    split_ifs with ha
    · have hne : ptePage (f (a / pgsize)) ≠ ptePage (f v) := fun he =>
        hav (frames_inj ho.nodup_frames (hdiv.mp ha) hv he)
      rw [update_of_ne hne]
    · rfl

lemma Stored.image {va : ℕ} {src : List Byte} (h : Stored m f va src.length src m')
    (hs : Space m root n tf f X) (hd : (frames f 0 n).Nodup) :
    m'.image f n = overlay (m.image f n) va src := by
  funext a
  unfold overlay
  simp only [Mach.image]
  have hdiv : a < n * pgsize ↔ a / pgsize < n := by
    rw [Nat.div_lt_iff_lt_mul (by decide)]
  by_cases hin : va ≤ a ∧ a < va + src.length
  · have hi : a - va < src.length := by omega
    have hstored := h.stored _ hi
    have hn := ((h.writable _ hi).1.mem_frames hs).1
    rw [Nat.add_sub_cancel' hin.1] at hstored hn
    rw [if_pos hin, if_pos (hdiv.mpr hn), hstored]
  · rw [if_neg hin]
    split_ifs with ha
    · refine h.frame _ _ ?_
      intro i hi hp hm
      have hn := ((h.writable i hi).1.mem_frames hs).1
      have hpage : (va + i) / pgsize = a / pgsize := frames_inj hd hn (hdiv.mp ha) hp
      have hmod : (va + i) % pgsize = a % pgsize := hm.trans (by simp [Fin.ofNat])
      have heq : va + i = a := by
        rw [← Nat.div_add_mod (va + i) pgsize, ← Nat.div_add_mod a pgsize, hpage, hmod]
      omega
    · rfl

lemma Stored.keeps {va k : ℕ} {src : List Byte} (h : Stored m f va k src m')
    (hs : Space m root n tf f X) (ho : Owns m (X + (frames f 0 n + A))) : Keeps A m m' := by
  rw [add_left_comm] at ho
  intro q hq
  funext j
  refine h.frame q j ?_
  intro i hi hp _
  have hmem := ((h.writable i hi).1.mem_frames hs).2
  rw [hp] at hmem
  exact ho.not_mem hmem (Multiset.mem_add.mpr (.inr hq))

theorem copyout_holds {va : ℕ} {src : List Byte} (h : Holds m root n tf P g A) :
    wp (copyout root va src) (fun ok m' => Keeps A m m' ∧ ∃ g', Holds m' root n tf P g' A ∧
      (ok = true → g' = overlay g va src ∧ ∀ i < src.length, va + i < n * pgsize)) never m := by
  obtain ⟨f, X, hs, hf, rfl, ho⟩ := h
  refine wp_post (copyout_stores hs ho.le_ram) ?_
  rintro ok m' ⟨k, hk, hst, htrue, _⟩
  have ho' : Owns m' (X + (frames f 0 n + A)) := by
    unfold Owns
    rw [hst.freelist]
    exact ho
  refine ⟨hst.keeps hs ho, _, ⟨f, X, hst.space hs ho.le_ram, hf, rfl, ho'⟩, ?_⟩
  intro hok
  obtain rfl := htrue hok
  refine ⟨hst.image hs ho.nodup_frames, fun i hi => ?_⟩
  have hn := ((hst.writable i hi).1.mem_frames hs).1
  rwa [Nat.div_lt_iff_lt_mul (by decide)] at hn

theorem uvmclear_holds {v : ℕ} (h : Holds m root n tf user g A) (hv : v < n) :
    wp (uvmclear root (v * pgsize)) (fun _ m' => Keeps A m m' ∧
      Holds m' root n tf (guarded v) g A) never m := by
  obtain ⟨f, X, hs, hf, rfl, ho⟩ := h
  refine wp_post (uvmclear_spec hs ho hv) ?_
  rintro _ m' ⟨hs', ho', hk⟩
  have hpage : ∀ u, ptePage (update f v (f v &&& ~~~pteU) u) = ptePage (f u) := by
    intro u
    by_cases hu : u = v
    · rw [hu, update_self, ptePage_and_not (by rfl)]
    · rw [update_of_ne hu]
  have hfr : frames (update f v (f v &&& ~~~pteU)) 0 n = frames f 0 n := by
    unfold frames
    congr 1
    exact List.map_congr_left fun u _ => hpage u
  refine ⟨hk.right, _, X, hs', ?_, ?_, by rwa [hfr]⟩
  · intro u hu
    unfold guarded
    by_cases huv : u = v
    · rw [huv, update_self]
      have hno : ¬ hasFlag (f v &&& ~~~pteU) pteU := by
        unfold hasFlag
        rw [BitVec.and_assoc, BitVec.and_comm (~~~pteU), BitVec.and_not_self]
        exact fun h => h BitVec.and_zero
      exact ⟨fun h => absurd h hno, fun h => absurd rfl h⟩
    · rw [update_of_ne huv]
      exact ⟨fun _ => huv, fun _ => hf u hu⟩
  · funext a
    unfold Mach.image Mach.load framePage
    rw [hpage]
    split_ifs with ha
    · have hdiv : a / pgsize < n := (Nat.div_lt_iff_lt_mul (by decide)).mpr ha
      rw [hk _ (Multiset.mem_add.mpr (.inl (mem_frames (Nat.zero_le _) (by omega))))]
    · rfl

section load

/-- Byte `x` of a segment that starts at `offset` of the file; both are `uint`s. -/
def segByte (file : List Byte) (offset x : ℕ) : Byte :=
  file.getD ((offset + x / pgsize * pgsize) % 2 ^ 32 + x % pgsize) 0

/-- The first `sz` bytes of a segment at `va`, from page `i` of it on, over `g`. -/
def segment (file : List Byte) (va offset sz i : ℕ) (g : ℕ → Byte) (a : ℕ) : Byte :=
  if va + i * pgsize ≤ a ∧ a < va + sz then segByte file offset (a - va) else g a

omit [Image] in
lemma getD_readi {off k j : ℕ} (h : (readi file off k).length = k) (hj : j < k) :
    (readi file off k).getD j 0 = file.getD (off + j) 0 := by
  unfold readi at h ⊢
  split_ifs at h ⊢ with hout
  · exact absurd h (by simp; omega)
  · simp [List.getD_eq_getElem?_getD, hj]

lemma walkaddr_page {v : ℕ} (hs : Space m root n tf f X) (hd : X + frames f 0 n ≤ ram)
    (hv : v < n) (hn : n ≤ 2 ^ 15) (hu : hasFlag (f v) pteU) :
    wp (walkaddr root (v * pgsize)) (fun p m' => m' = m ∧ p = ptePage (f v) ∧ p ≠ 0) never m := by
  have hdown : pgrounddown (v * pgsize) = v * pgsize := by
    unfold pgrounddown pgsize
    omega
  have hdiv : v * pgsize / pgsize = v := Nat.mul_div_cancel _ (by decide)
  have hread : Readable f (v * pgsize) := by
    refine ⟨?_, ?_⟩
    · rw [lt_maxva_iff, hdiv]
      omega
    · rw [hdiv]
      exact ⟨(hs.layout.user v hv).1, hu⟩
  have hspec : wp (walkaddr root (pgrounddown (v * pgsize))) _ never m := walkaddr_spec hs hd
  rw [hdown, if_pos hread] at hspec
  refine wp_post hspec ?_
  rintro p m' ⟨rfl, rfl⟩
  refine ⟨rfl, ?_, hread.page_ne_zero hs hd⟩
  rw [framePage, hdiv]

omit [Image] in
lemma segment_step {v i offset : ℕ} {d : Page} {bs : List Byte}
    (hd : ∀ a, a / pgsize = v + i → d (Fin.ofNat pgsize a) = g a)
    (hlen : bs.length = min (sz - i * pgsize) pgsize)
    (hbs : ∀ k < bs.length, bs.getD k 0 = file.getD ((offset + i * pgsize) % 2 ^ 32 + k) 0) :
    segment file (v * pgsize) offset sz (i + 1) (fun a =>
      if a / pgsize = v + i then d.write 0 bs (Fin.ofNat pgsize a) else g a) =
    segment file (v * pgsize) offset sz i g := by
  funext a
  simp only [segment]
  have hsucc : (i + 1) * pgsize = i * pgsize + pgsize := Nat.succ_mul i pgsize
  by_cases hlater : v * pgsize + (i + 1) * pgsize ≤ a ∧ a < v * pgsize + sz
  · rw [if_pos hlater, if_pos (by omega)]
  rw [if_neg hlater]
  have hmod : a % pgsize < pgsize := Nat.mod_lt _ (by decide)
  have hsplit : pgsize * (a / pgsize) + a % pgsize = a := Nat.div_add_mod a pgsize
  by_cases hpage : a / pgsize = v + i
  · have ha : a = v * pgsize + i * pgsize + a % pgsize := by
      rw [hpage, Nat.mul_comm, Nat.add_mul] at hsplit
      exact hsplit.symm
    have hx : a - v * pgsize = i * pgsize + a % pgsize := by omega
    rw [if_pos hpage]
    by_cases hin : a % pgsize < bs.length
    · have hdiv : (a - v * pgsize) / pgsize = i := by
        rw [hx, Nat.add_comm, Nat.add_mul_div_right _ _ (by decide), Nat.div_eq_of_lt hmod,
          Nat.zero_add]
      have hmod' : (a - v * pgsize) % pgsize = a % pgsize := by
        rw [hx, Nat.mul_comm, Nat.mul_add_mod, Nat.mod_mod]
      rw [if_pos (by omega), segByte, hdiv, hmod', ← hbs _ hin, Page.write,
        if_pos (Nat.zero_le _), Nat.sub_zero]
      simp [List.getD_eq_getElem?_getD, Fin.ofNat, hin]
    · have hout : 0 + bs.length ≤ (Fin.ofNat pgsize a).val := by
        rw [Nat.zero_add]
        exact not_lt.mp hin
      rw [if_neg (by omega), write_of_lt (.inr hout), hd a hpage]
  · rw [if_neg hpage, if_neg]
    rintro ⟨h1, h2⟩
    refine hpage (Nat.div_eq_of_lt_le ?_ ?_)
    · rw [Nat.add_mul]
      exact h1
    · rw [Nat.succ_mul, Nat.add_mul]
      omega

lemma loadsegFrom_holds {v i j offset : ℕ} (h : Holds m root n tf user g A)
    (hin : v + i + j ≤ n) (hj : sz ≤ (i + j) * pgsize)
    (hlast : j ≠ 0 → (i + j - 1) * pgsize < sz) :
    wp (loadsegFrom root (v * pgsize) file offset sz j (i * pgsize)) (fun ok m' =>
      Keeps A m m' ∧ ∃ g', Holds m' root n tf user g' A ∧
        (ok = true → g' = segment file (v * pgsize) offset sz i g)) never m := by
  induction j generalizing m i g with
  | zero =>
    refine wp_pure ⟨Keeps.refl A m, g, h, fun _ => ?_⟩
    funext a
    rw [add_zero] at hj
    exact (if_neg (by omega)).symm
  | succ j ih =>
    have hn := h.le
    obtain ⟨f, X, hs, hf, hg, ho⟩ := h
    have hva : (v * pgsize + i * pgsize) % 2 ^ 64 = (v + i) * pgsize := by
      unfold pgsize
      omega
    unfold loadsegFrom
    rw [hva]
    refine wp_seq (walkaddr_page hs ho.le_ram (by omega) hn (hf _ (by omega))) ?_
    rintro p m1 ⟨rfl, rfl, hne⟩
    rw [if_neg hne]
    have hcnt : (if sz - i * pgsize < pgsize then sz - i * pgsize else pgsize) =
        min (sz - i * pgsize) pgsize := by
      split_ifs <;> omega
    simp only [hcnt]
    generalize hbs : readi file ((offset + i * pgsize) % 2 ^ 32) (min (sz - i * pgsize) pgsize) = bs
    refine wp_bind (wp_page (wp_bind (wp_setPage ?_)))
    obtain ⟨hk, hnext⟩ := Holds.putPage (d := (m1.mem (ptePage (f (v + i)))).write 0 bs)
      hs hf hg ho (by omega : v + i < n)
    split_ifs with hlen
    swap
    · exact wp_pure ⟨hk, _, hnext, fun h => (by cases h)⟩
    have hidx : i + 1 + j = i + (j + 1) := by omega
    have hend := hlast (by omega)
    rw [show i * pgsize + pgsize = (i + 1) * pgsize by unfold pgsize; omega]
    refine wp_post (ih hnext (by omega) (hidx ▸ hj) ?_) ?_
    · intro _
      rw [hidx]
      exact hend
    rintro ok m' ⟨hk', g', h', hok⟩
    refine ⟨hk.trans hk', g', h', fun htrue => ?_⟩
    rw [hok htrue]
    refine segment_step ?_ hlen ?_
    · intro a ha
      have hlt : a < n * pgsize := (Nat.div_lt_iff_lt_mul (by decide)).mp (by omega)
      rw [← hg, Mach.image, if_pos hlt, Mach.load, framePage, ha]
    · intro k hklt
      rw [← hbs] at hlen hklt ⊢
      exact getD_readi hlen (by omega)

lemma loadseg_holds {v offset : ℕ} (h : Holds m root n tf user g A)
    (hin : v * pgsize + sz ≤ n * pgsize) :
    wp (loadseg root (v * pgsize) file offset sz) (fun ok m' =>
      Keeps A m m' ∧ ∃ g', Holds m' root n tf user g' A ∧
        (ok = true → g' = segment file (v * pgsize) offset sz 0 g)) never m := by
  have hturns : turns 0 sz = (sz + pgsize - 1) / pgsize := by
    unfold turns
    rw [Nat.sub_zero]
  unfold loadseg
  rw [← zero_mul pgsize]
  refine loadsegFrom_holds h ?_ ?_ ?_
  all_goals
    rw [zero_mul, hturns]
    unfold pgsize at *
    omega

omit [Image] in
lemma isFlags_flags2perm (flags : ℕ) : IsFlags (flags2perm flags) := by
  unfold flags2perm
  apply IsFlags.or <;> split_ifs <;> rfl

omit [Image] in
lemma le_lt (bs : List Byte) (off k : ℕ) : le bs off k < 256 ^ k := by
  have main : ∀ l : List Byte, l.foldr (fun b acc => b.toNat + 256 * acc) 0 < 256 ^ l.length := by
    intro l
    induction l with
    | nil => simp
    | cons b l ih =>
      have hb : b.toNat < 256 := b.isLt
      rw [List.foldr_cons, List.length_cons, pow_succ]
      omega
  refine lt_of_lt_of_le (main _) (Nat.pow_le_pow_right (by norm_num) ?_)
  simp

def headersFrom (file : List Byte) : ℕ → ℕ → List Proghdr
  | 0, _ => []
  | n + 1, off =>
      proghdr (readi file off sizeofProghdr) ::
        headersFrom file n ((off + sizeofProghdr) % 2 ^ 32)

def loads (phs : List Proghdr) : List Proghdr := phs.filter (·.type = elfProgLoad)

def loadOver (file : List Byte) (g : ℕ → Byte) (ph : Proghdr) : ℕ → Byte :=
  segment file ph.vaddr (ph.off % 2 ^ 32) (ph.filesz % 2 ^ 32) 0 g

/-- What `exec` has checked of a header it has loaded, in an image of `sz` bytes. -/
structure Checked (sz : ℕ) (ph : Proghdr) : Prop where
  filesz : ph.filesz ≤ ph.memsz
  fits : ph.vaddr + ph.memsz ≤ sz
  aligned : ph.vaddr % pgsize = 0

theorem loadProgram_holds {k off : ℕ} (h : Holds m root (npages sz) tf user g A) :
    wp (loadProgram file root k off sz) (fun r m' => Keeps A m m' ∧
      ∃ g', Holds m' root (npages r.2) tf user g' A ∧ sz ≤ r.2 ∧
        (r.1 = true → g' = (loads (headersFrom file k off)).foldl (loadOver file) g ∧
          ∀ ph ∈ loads (headersFrom file k off), Checked r.2 ph)) never m := by
  induction k generalizing m off sz g with
  | zero =>
    refine wp_pure ⟨Keeps.refl A m, g, h, le_rfl, fun _ => ⟨rfl, ?_⟩⟩
    intro ph hph
    cases hph
  | succ k ih =>
    have hfail : wp (pure (false, sz) : M (Bool × ℕ)) (fun r m' => Keeps A m m' ∧
        ∃ g', Holds m' root (npages r.2) tf user g' A ∧ sz ≤ r.2 ∧
          (r.1 = true → g' = (loads (headersFrom file (k + 1) off)).foldl (loadOver file) g ∧
            ∀ ph ∈ loads (headersFrom file (k + 1) off), Checked r.2 ph)) never m :=
      wp_pure ⟨Keeps.refl A m, g, h, le_rfl, fun h => (by cases h)⟩
    unfold loadProgram
    rw [headersFrom] at hfail ⊢
    have hvaddr : (proghdr (readi file off sizeofProghdr)).vaddr < 2 ^ 64 :=
      le_lt (readi file off sizeofProghdr) 16 8
    have hmemsz : (proghdr (readi file off sizeofProghdr)).memsz < 2 ^ 64 :=
      le_lt (readi file off sizeofProghdr) 40 8
    dsimp only
    generalize proghdr (readi file off sizeofProghdr) = ph at *
    split_ifs with hlen htype hmem hwrap halign
    · exact hfail
    · have hskip : ∀ phs, loads (ph :: phs) = loads phs := fun phs =>
        List.filter_cons_of_neg (by simpa using htype)
      rw [hskip]
      exact ih h
    · exact hfail
    · exact hfail
    · exact hfail
    have htake : ∀ phs, loads (ph :: phs) = ph :: loads phs := fun phs =>
      List.filter_cons_of_pos (by simpa using htype)
    have hsum : (ph.vaddr + ph.memsz) % 2 ^ 64 = ph.vaddr + ph.memsz := by omega
    have hv : ph.vaddr = ph.vaddr / pgsize * pgsize := by
      unfold pgsize at *
      omega
    rw [hsum]
    refine wp_seq (uvmalloc_holds (isFlags_flags2perm _) h) ?_
    rintro sz1 m1 ⟨hk1, h₁, hsz⟩
    by_cases h0 : sz1 = 0
    · rw [if_pos h0] at h₁ ⊢
      exact wp_pure ⟨hk1, g, h₁, le_rfl, fun h => (by cases h)⟩
    rw [if_neg h0] at h₁ ⊢
    obtain ⟨hnew, hgrow, _⟩ := hsz.resolve_left h0
    have hfits : ph.vaddr / pgsize * pgsize + ph.filesz % 2 ^ 32 ≤ npages sz1 * pgsize := by
      have hle := le_npages_mul sz1
      have hmodle := Nat.mod_le ph.filesz (2 ^ 32)
      omega
    have hload : wp (loadseg root (ph.vaddr / pgsize * pgsize) file (ph.off % 2 ^ 32)
        (ph.filesz % 2 ^ 32)) _ never m1 := loadseg_holds h₁ hfits
    rw [← hv] at hload
    refine wp_seq hload ?_
    rintro (_ | _) m2 ⟨hk2, g2, h₂, hg2⟩
    · exact wp_pure ⟨hk1.trans hk2, g2, h₂, hgrow, fun h => (by cases h)⟩
    refine wp_post (ih h₂) ?_
    rintro r m' ⟨hk', g', h', hle', hok⟩
    refine ⟨(hk1.trans hk2).trans hk', g', h', hgrow.trans hle', fun htrue => ?_⟩
    obtain ⟨hg', hchecked⟩ := hok htrue
    rw [htake, List.foldl_cons, hg', hg2 rfl]
    refine ⟨rfl, ?_⟩
    intro ph' hph'
    rcases List.mem_cons.mp hph' with rfl | hph'
    · exact ⟨not_lt.mp hmem, hnew.trans hle', not_not.mp halign⟩
    · exact hchecked ph' hph'

end load

end Xv6.Vm
