import Xv6.ProcessSpec

/-! The size of a process: what `growproc` makes of its memory, and what `sbrk` reports. -/
namespace Xv6.Process

open Program Vm

variable [Image] {k k' : Kern} {p : Fin nproc} {root tf sz : ℕ} {f : ℕ → Word}
  {X A : Multiset ℕ} {n : BitVec 32}

/-- Process `p` now has `sz` bytes of memory: the pages of the old and the new size are as they
were, new ones are zero, and nothing else has changed. -/
structure Sized (k : Kern) (p : Fin nproc) (root tf : ℕ) (f : ℕ → Word) (A : Multiset ℕ) (sz : ℕ)
    (k' : Kern) (f' : ℕ → Word) (X' : Multiset ℕ) : Prop where
  space : AddressSpace k' p root tf f' X' A
  size : (k'.proc p).sz = sz
  entry : ∀ v < npages (k.proc p).sz, v < npages sz → f' v = f v
  page : ∀ v < npages (k.proc p).sz, v < npages sz →
    k'.mach.mem (ptePage (f v)) = k.mach.mem (ptePage (f v))
  zero : ∀ v, npages (k.proc p).sz ≤ v → v < npages sz → k'.mach.mem (ptePage (f' v)) = .fill 0
  keeps : Vm.Keeps ({tf} + A) k.mach k'.mach
  rest : k' = { k.setProc p { k.proc p with sz := sz } with mach := k'.mach }

omit [Image] in
lemma addInt_of_nonneg (hsz : sz ≤ 2 ^ 27) (h : 0 ≤ (sz : ℤ) + n.toInt) :
    addInt sz n = ((sz : ℤ) + n.toInt).toNat := by
  have hlt := n.toInt_lt
  unfold addInt
  rw [Int.emod_eq_of_lt h (by omega)]

omit [Image] in
lemma le_addInt_of_neg (hsz : sz ≤ 2 ^ 27) (h : (sz : ℤ) + n.toInt < 0) : sz ≤ addInt sz n := by
  have hle := n.le_toInt
  unfold addInt
  omega

lemma Sized.refl (h : AddressSpace k p root tf f X A) :
    Sized k p root tf f A (k.proc p).sz k f X where
  space := h
  size := rfl
  entry := fun _ _ _ => rfl
  page := fun _ _ _ => rfl
  zero := fun v h1 h2 => absurd h2 (by omega)
  keeps := Vm.Keeps.refl _ _
  rest := by
    simp [Kern.setProc]

variable {m' : Mach}

section
variable (h : AddressSpace k p root tf f X A)
include h

lemma Sized.of_grown (hle : (k.proc p).sz ≤ sz)
    (hg : Grown k.mach root (npages (k.proc p).sz) (npages sz) tf f (frames f 0 (npages (k.proc p).sz) + ({tf} + A)) true m')
    :
    ∃ f' X', Sized k p root tf f A sz
      { k.setProc p { k.proc p with sz := sz } with mach := m' } f' X' := by
  obtain ⟨hk, f', X', hsame, hs', ho', hz⟩ := hg
  have hnn := npages_mono hle
  have hfr : frames f' 0 (npages sz) = frames f 0 (npages (k.proc p).sz) +
      frames f' (npages (k.proc p).sz) (npages sz - npages (k.proc p).sz) := by
    have hsplit := frames_add f' 0 (npages (k.proc p).sz) (npages sz - npages (k.proc p).sz)
    rw [Nat.add_sub_cancel' hnn, zero_add] at hsplit
    rw [hsplit, frames_congr fun v _ hv => hsame v (by omega)]
  have hproc : ({ k.setProc p { k.proc p with sz := sz } with mach := m' } : Kern).proc p =
      { k.proc p with sz := sz } := Kern.setProc_self _ _ _
  refine ⟨f', X', ⟨?_, ?_, ?_, ?_⟩, ?_, fun v hv _ => hsame v hv, ?_, ?_, hk.right, rfl⟩
  · rw [hproc]
    exact h.pagetable
  · rw [hproc]
    exact h.trapframe
  · rw [hproc]
    exact hs'
  · rw [hproc, hfr]
    convert ho' using 1
    abel
  · rw [hproc]
  · intro v hv _
    exact hk.left _ (mem_frames (Nat.zero_le v) (by omega))
  · intro v h1 h2
    exact (hz v h1 h2).2

lemma Sized.of_not_grown {c : ℕ}
    (hg : Grown k.mach root (npages (k.proc p).sz) c tf f (frames f 0 (npages (k.proc p).sz) + ({tf} + A)) false m')
    :
    ∃ f' X', Sized k p root tf f A (k.proc p).sz { k with mach := m' } f' X' := by
  obtain ⟨hk, f', X', hsame, hs', ho'⟩ := hg
  refine ⟨f', X', ⟨h.pagetable, h.trapframe, hs', ?_⟩, rfl, fun v hv _ => hsame v hv, ?_, ?_,
    hk.right, ?_⟩
  · change Owns m' (X' + (frames f' 0 (npages (k.proc p).sz) + ({tf} + A)))
    rw [frames_congr fun v _ hv => hsame v (by omega)]
    exact ho'
  · intro v hv _
    exact hk.left _ (mem_frames (Nat.zero_le v) (by omega))
  · intro v h1 h2
    exact absurd h2 (by omega)
  · simp [Kern.setProc]

lemma Sized.of_shrunk (hle : sz ≤ (k.proc p).sz)
    (hs' : Space m' root (npages sz) tf
      (Vm.cleared f (npages sz) (npages (k.proc p).sz - npages sz)) X)
    (ho' : Owns m' (X + (frames f 0 (npages sz) + ({tf} + A))))
    (hk : Vm.Keeps (frames f 0 (npages sz) + ({tf} + A)) k.mach m') :
    ∃ f' X', Sized k p root tf f A sz
      { k.setProc p { k.proc p with sz := sz } with mach := m' } f' X' := by
  have hsame : ∀ v < npages sz,
      Vm.cleared f (npages sz) (npages (k.proc p).sz - npages sz) v = f v := fun v hv => if_neg (by omega)
  have hproc : ({ k.setProc p { k.proc p with sz := sz } with mach := m' } : Kern).proc p =
      { k.proc p with sz := sz } := Kern.setProc_self _ _ _
  have hnn := npages_mono hle
  refine ⟨_, X, ⟨?_, ?_, ?_, ?_⟩, ?_, fun v _ hv => hsame v hv, ?_, ?_, hk.right, rfl⟩
  · rw [hproc]
    exact h.pagetable
  · rw [hproc]
    exact h.trapframe
  · rw [hproc]
    exact hs'
  · rw [hproc]
    change Owns m' (X + (frames (Vm.cleared _ _ _) 0 (npages sz) + ({tf} + A)))
    rw [frames_congr fun v _ hv => hsame v (by omega)]
    exact ho'
  · rw [hproc]
  · intro v _ hv
    exact hk.left _ (mem_frames (Nat.zero_le v) (by omega))
  · intro v h1 h2
    exact absurd h2 (by omega)

end

def grownTo (ok : Bool) (sz : ℕ) (n : ℤ) : ℕ := if ok ∧ 0 ≤ sz + n then (sz + n).toNat else sz

theorem growproc_spec (h : AddressSpace k p root tf f X A) :
    wp (growproc p n) (fun ok k' => (n.toInt ≤ 0 → ok = true) ∧
      ∃ f' X', Sized k p root tf f A (grownTo ok (k.proc p).sz n.toInt) k' f' X') nowhere k := by
  have hsz := h.sz_le
  refine wp_bind (wp_get ?_)
  split_ifs with hpos hneg
  · have hnn : 0 ≤ ((k.proc p).sz : ℤ) + n.toInt := by omega
    refine wp_bind (wp_deref h.pagetable (wp_bind (wp_zoom ?_)))
    rw [addInt_of_nonneg hsz hnn]
    have hcard : npages (k.proc p).sz ≤
        (frames f 0 (npages (k.proc p).sz) + ({tf} + A)).card := by
      rw [Multiset.card_add, card_frames]
      exact Nat.le_add_right _ _
    refine wp_post (uvmalloc_spec (by rfl) h.space h.owns hcard) ?_
    rintro r m' (⟨hlt, _⟩ | ⟨hle, rfl, hg⟩ | ⟨_, rfl, hg⟩)
    · omega
    · rw [if_neg (by omega)]
      refine wp_bind (wp_modify (wp_pure ⟨fun _ => rfl, ?_⟩))
      rw [grownTo, if_pos ⟨rfl, hnn⟩]
      exact Sized.of_grown h hle hg
    · refine wp_pure ⟨fun hn => absurd hpos (by omega), ?_⟩
      exact Sized.of_not_grown h hg
  · refine wp_bind (wp_deref h.pagetable (wp_bind (wp_zoom ?_)))
    by_cases hnn : 0 ≤ ((k.proc p).sz : ℤ) + n.toInt
    · rw [addInt_of_nonneg hsz hnn]
      set sz := (((k.proc p).sz : ℤ) + n.toInt).toNat with hszdef
      have hlt : sz < (k.proc p).sz := by omega
      have hnp := npages_mono hlt.le
      have hcap := h.npages_le
      have hsplit := frames_add f 0 (npages sz) (npages (k.proc p).sz - npages sz)
      rw [Nat.add_sub_cancel' hnp] at hsplit
      have ho : Owns k.mach (X + (frames f (npages sz) (npages (k.proc p).sz - npages sz) +
          (frames f 0 (npages sz) + ({tf} + A)))) := by
        have howns := h.owns
        rw [hsplit] at howns
        convert howns using 1
        abel
      refine wp_post (uvmdealloc_spec h.space ho (by unfold trapframeVpn; omega) hlt) ?_
      rintro _ m' ⟨rfl, hs', ho', hk'⟩
      refine wp_bind (wp_modify (wp_pure ⟨fun _ => rfl, ?_⟩))
      rw [grownTo, if_pos ⟨rfl, hnn⟩]
      exact Sized.of_shrunk h hlt.le hs' ho' hk'
    · unfold uvmdealloc
      rw [if_pos (le_addInt_of_neg hsz (by omega))]
      refine wp_pure (wp_bind (wp_modify (wp_pure ⟨fun _ => rfl, ?_⟩)))
      rw [grownTo, if_neg (by simp [hnn])]
      have hsame : ({ k with mach := k.mach } : Kern).setProc p { k.proc p with sz := (k.proc p).sz } =
          k := by
        simp [Kern.setProc]
      refine ⟨f, X, ?_⟩
      rw [show k.setProc p (k.proc p) = k from hsame]
      exact Sized.refl h
  · refine wp_pure ⟨fun _ => rfl, f, X, ?_⟩
    have hto : grownTo true (k.proc p).sz n.toInt = (k.proc p).sz := by
      rw [grownTo, if_pos ⟨rfl, by omega⟩]
      omega
    rw [hto]
    exact Sized.refl h

structure Resized (k : Kern) (p : Fin nproc) (root tf : ℕ) (f : ℕ → Word) (n : ℤ) (k' : Kern) :
    Prop where
  size : ((k'.proc p).sz : ℤ) = (k.proc p).sz + n
  memory : ∃ f' X', Space k'.mach root (npages (k'.proc p).sz) tf f' X' ∧
    (∀ a < min (k.proc p).sz (k'.proc p).sz, k'.mach.load f' a = k.mach.load f a) ∧
    ∀ a, npages (k.proc p).sz * pgsize ≤ a → a < (k'.proc p).sz → k'.mach.load f' a = 0

lemma layout_unique {c : ℕ} {g : ℕ → Word} (hf : Layout c tf f) (hg : Layout c tf g)
    (h : ∀ v < c, g v = f v) {v : ℕ} (hv : v < 2 ^ 27) : g v = f v := by
  by_cases hc : v < c
  · exact h v hc
  by_cases h1 : v = trapframeVpn
  · rw [h1, hf.trapframe, hg.trapframe]
  by_cases h2 : v = trampolineVpn
  · rw [h2, hf.trampoline, hg.trampoline]
  rw [hf.rest v hv (by omega) h1 h2, hg.rest v hv (by omega) h1 h2]

section
variable (k : Kern) (p : Fin nproc) (root tf : ℕ) (f : ℕ → Word)

structure NotResized (k' : Kern) : Prop where
  size : (k'.proc p).sz = (k.proc p).sz
  memory : ∃ X', Space k'.mach root (npages (k.proc p).sz) tf f X'
  bytes : ∀ a < (k.proc p).sz, k'.mach.load f a = k.mach.load f a

/-- `sbrk` returns the old size and has changed it by exactly `n`, or fails and has changed
nothing. -/
def Exactly (n : ℤ) (r : Option ℕ) (k' : Kern) : Prop :=
  match r with
  | some a => a = (k.proc p).sz ∧ Resized k p root tf f n k'
  | none => NotResized k p root tf f k'

end

omit [Image] in
lemma div_lt_npages {a : ℕ} (h : a < sz) : a / pgsize < npages sz := by
  unfold npages pgsize
  omega

variable {f' : ℕ → Word} {X' : Multiset ℕ}

lemma Sized.load {a : ℕ}
    (h : Sized k p root tf f A sz k' f' X') (h1 : a < (k.proc p).sz) (h2 : a < sz) :
    k'.mach.load f' a = k.mach.load f a := by
  have hv1 := div_lt_npages h1
  have hv2 := div_lt_npages h2
  unfold Mach.load framePage
  rw [h.entry _ hv1 hv2, h.page _ hv1 hv2]

lemma Sized.resized
    (h : Sized k p root tf f A sz k' f' X') (hn : (sz : ℤ) = (k.proc p).sz + n.toInt) :
    Resized k p root tf f n.toInt k' := by
  refine ⟨by rw [h.size, hn], f', X', h.space.space, ?_, ?_⟩
  · intro a ha
    rw [h.size] at ha
    exact h.load (by omega) (by omega)
  · intro a h1 h2
    rw [h.size] at h2
    unfold Mach.load framePage
    rw [h.zero _ ((Nat.le_div_iff_mul_le (by decide)).mpr h1) (div_lt_npages h2)]
    rfl

lemma Sized.notResized (hk : AddressSpace k p root tf f X A)
    (h : Sized k p root tf f A (k.proc p).sz k' f' X') : NotResized k p root tf f k' := by
  have hlay := h.space.space.layout
  rw [h.size] at hlay
  have hsame : ∀ v < 2 ^ 27, f' v = f v := fun v hv =>
    layout_unique hk.space.layout hlay (fun u hu => h.entry u hu hu) hv
  obtain ⟨t, ht⟩ := h.space.space.maps
  refine ⟨h.size, ⟨X', ⟨t, ht.root, ht.rep, ht.pages, fun v hv => ?_⟩, hk.space.layout⟩, ?_⟩
  · rw [ht.lookup v hv, hsame v hv]
  · intro a ha
    have hv := div_lt_npages ha
    unfold Mach.load framePage
    rw [h.page _ hv hv]

lemma sysSbrk_spec (h : AddressSpace k p root tf f X A) :
    wp (sysSbrk p n) (fun r k' =>
      (0 ≤ ((k.proc p).sz : ℤ) + n.toInt → Exactly k p root tf f n.toInt r k') ∧
      (((k.proc p).sz : ℤ) + n.toInt < 0 → r = some (k.proc p).sz ∧ (k'.proc p).sz = (k.proc p).sz))
      nowhere k := by
  refine wp_bind (wp_get (wp_seq (growproc_spec h) ?_))
  rintro (_ | _) k' ⟨hok, f', X', hk'⟩
  · refine wp_pure ⟨fun _ => hk'.notResized h, fun hneg => ?_⟩
    exact absurd (hok (by omega)) (by decide)
  · refine wp_pure ⟨fun hnn => ⟨rfl, hk'.resized ?_⟩, fun hneg => ⟨rfl, ?_⟩⟩
    · rw [grownTo, if_pos ⟨rfl, hnn⟩]
      omega
    · rw [hk'.size, grownTo, if_neg (by omega)]

/-- `sbrk(n)` keeps to `n` exactly for the increments that do not go below zero. -/
theorem sbrk_exactly_iff (h : AddressSpace k p root tf f X A) :
    wp (sysSbrk p n) (Exactly k p root tf f n.toInt) nowhere k ↔
      0 ≤ ((k.proc p).sz : ℤ) + n.toInt := by
  constructor
  · intro hwp
    by_contra hneg
    obtain ⟨r, k', hex, -, hlow⟩ := exists_of_wp (wp_mono (wp_and hwp (sysSbrk_spec h))
      (fun _ _ h => h) fun _ _ h => h.1.elim)
    obtain ⟨rfl, hsz⟩ := hlow (by omega)
    have hsize := hex.2.size
    have hle := h.sz_le
    rw [hsz] at hsize
    omega
  · intro hnn
    exact wp_post (sysSbrk_spec h) (fun _ _ h => h.1 hnn)

section small

def small : Kern where
  mach := smallMach
  proc := fun _ => ⟨.unused, false, 0, 0, 0, none, 0, none, none, fun _ => none, none, [], 0, 0, 0,
    0, 0⟩
  fref := fun _ => 0
  iref := fun _ => 0
  nextpid := 1
  ticks := 0

def onePageProcess : P Bool := do
  match ← allocproc with
  | none => return false
  | some p => if p = 0 then growproc 0 4096 else return false

lemma onePageProcess_spec (ho : Owns small.mach 0) :
    wp onePageProcess (fun ok k => ok = true → (k.proc 0).sz = pgsize ∧
      (k.proc 0).state = .used ∧ (∀ q, q ≠ 0 → (k.proc q).Clean) ∧
      ∃ root tf f X, AddressSpace k 0 root tf f X 0) nowhere small := by
  refine wp_seq (allocproc_spec (fun _ _ => ⟨rfl, rfl, rfl, fun _ => rfl⟩) ho) ?_
  rintro (_ | p) k1 ⟨-, -, -, h₁⟩
  · exact wp_pure fun h => (by cases h)
  obtain ⟨root, tf, f, X, hs⟩ := h₁.space
  simp only
  split_ifs with hp
  · subst hp
    refine wp_post (growproc_spec hs) ?_
    rintro ok k2 ⟨-, f', X', hk2⟩ rfl
    refine ⟨?_, ?_, ?_, root, tf, f', X', hk2.space⟩
    · rw [hk2.size, h₁.sz]
      decide
    · rw [hk2.rest]
      exact (congrArg Proc.state (Kern.setProc_self _ _ _)).trans h₁.used
    · intro q hq
      have hsame : k2.proc q = small.proc q := by
        rw [hk2.rest]
        exact (Kern.setProc_of_ne _ _ hq).trans (h₁.other q hq)
      rw [hsame]
      exact ⟨rfl, rfl, rfl, fun _ => rfl⟩
  · exact wp_pure fun h => (by cases h)

omit [Image] in
theorem exists_onePageProcess : ∃ k root tf f X, (k.proc 0).sz = pgsize ∧
    (k.proc 0).state = .used ∧ (∀ q, q ≠ 0 → (k.proc q).Clean) ∧
    @AddressSpace smallImage k 0 root tf f X 0 := by
  have htrue : ((@onePageProcess smallImage).run small).1.toOption = some true := by
    decide +kernel
  have hspec := @onePageProcess_spec smallImage owns_smallMach
  unfold wp at hspec
  rcases hx : (@onePageProcess smallImage).run small with ⟨r, k⟩
  rw [hx] at hspec htrue
  cases r with
  | error e => exact hspec.elim
  | ok ok =>
    obtain ⟨hsz, hst, hcl, root, tf, f, X, hs⟩ := hspec (Option.some.inj htrue)
    exact ⟨k, root, tf, f, X, hsz, hst, hcl, hs⟩

end small

omit [Image] in
/-- A process of one page asks to give back one byte more than it has: `sbrk` returns the old
size, and the size stays. -/
theorem sbrk_below_zero : ∃ (_ : Image) (k : Kern) (root tf : ℕ) (f : ℕ → Word) (X : Multiset ℕ),
    AddressSpace k 0 root tf f X 0 ∧ (k.proc 0).sz = 4096 ∧
    wp (sysSbrk 0 (-4097)) (fun r k' => r = some 4096 ∧ (k'.proc 0).sz = 4096) nowhere k ∧
    ¬ wp (sysSbrk 0 (-4097)) (Exactly k 0 root tf f (-4097)) nowhere k := by
  obtain ⟨k, root, tf, f, X, hsz, -, -, h⟩ := exists_onePageProcess
  have hspec : wp (@sysSbrk smallImage 0 (-4097))
      (fun r k' => r = some 4096 ∧ (k'.proc 0).sz = 4096) nowhere k := by
    refine wp_post (@sysSbrk_spec smallImage k 0 root tf f X 0 (-4097) h) ?_
    intro r k' hr
    rw [hsz] at hr
    exact hr.2 (by decide)
  refine ⟨smallImage, k, root, tf, f, X, h, hsz, hspec, fun hex => ?_⟩
  obtain ⟨r, k', ⟨rfl, hsz'⟩, hres⟩ := exists_of_wp (wp_mono (wp_and hspec hex) (fun _ _ h => h)
    fun _ _ h => h.1.elim)
  have hsize : ((k'.proc 0).sz : ℤ) = (k.proc 0).sz + -4097 :=
    @Resized.size smallImage _ _ _ _ _ _ _ hres.2
  rw [hsz', hsz] at hsize
  exact absurd hsize (by decide)

omit [Image] in
theorem sbrk_exactly_iff_onePage :
    ∃ (_ : Image) (k : Kern) (root tf : ℕ) (f : ℕ → Word) (X : Multiset ℕ),
    AddressSpace k 0 root tf f X 0 ∧ 0 ≤ ((k.proc 0).sz : ℤ) + (-4000 : BitVec 32).toInt ∧
    wp (sysSbrk 0 (-4000)) (Exactly k 0 root tf f (-4000 : BitVec 32).toInt) nowhere k := by
  obtain ⟨k, root, tf, f, X, hsz, -, -, h⟩ := exists_onePageProcess
  have hnn : 0 ≤ ((k.proc 0).sz : ℤ) + (-4000 : BitVec 32).toInt := by
    rw [hsz]
    decide
  exact ⟨smallImage, k, root, tf, f, X, h, hnn,
    (@sbrk_exactly_iff smallImage k 0 root tf f X 0 (-4000) h).mpr hnn⟩

end Xv6.Process
