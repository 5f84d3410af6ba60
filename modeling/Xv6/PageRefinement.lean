import Xv6.CopyUser

/-! The three-level page table as a partial map. A table is reached from an empty one by `walk`,
`mappages` and `uvmunmap`, while other code allocates pages and stores to its own; what the
table translates is what the map says. -/
namespace Xv6.Vm

open Program Radix

variable {m m' : Mach} {root va : ℕ} {f : ℕ → Word} {X A : Multiset ℕ}

def pteAt (m : Mach) (root va : ℕ) : Word :=
  match ((walk root va false).run m).1 with
  | .ok (some pte) => m.cell pte.page pte.index
  | _ => 0

/-- The physical page and the flags that the table at `root` has for `va`. -/
def translate (m : Mach) (root va : ℕ) : Option (ℕ × Word) :=
  if hasFlag (pteAt m root va) pteV then
    some (ptePage (pteAt m root va), pteFlags (pteAt m root va))
  else none

section reach
variable [Image]

/-- The page tables at `root` that come from an empty one, with the memory they are in; `A` are the
pages that other code has. Pages that `uvmunmap` is to free are among them. -/
inductive Reach (root : ℕ) : Mach → Multiset ℕ → Prop
  | create {m m' : Mach} {A : Multiset ℕ} : Owns m A → uvmcreate.run m = (.ok (some root), m') →
      Reach root m' A
  | kalloc {m m' : Mach} {A : Multiset ℕ} {p : ℕ} : Reach root m A →
      Vm.kalloc.run m = (.ok (some p), m') → Reach root m' ({p} + A)
  | store {m : Mach} {A : Multiset ℕ} {p : ℕ} {d : Page} : Reach root m A → p ∈ A →
      Reach root (m.put p d) A
  | walk {m m' : Mach} {A : Multiset ℕ} {va : ℕ} {alloc : Bool} {r : Option PteRef} :
      Reach root m A → va < maxva → (Vm.walk root va alloc).run m = (.ok r, m') → Reach root m' A
  | mappages {m m' : Mach} {A : Multiset ℕ} {va size pa : ℕ} {perm : Word} {ok : Bool} :
      Reach root m A → va + size ≤ maxva →
      (Vm.mappages root va size pa perm).run m = (.ok ok, m') → Reach root m' A
  | uvmunmap {m m' : Mach} {A : Multiset ℕ} {va n : ℕ} : Reach root m A →
      va + n * pgsize ≤ maxva → (Vm.uvmunmap root va n false).run m = (.ok ⟨⟩, m') →
      Reach root m' A
  | uvmunmapFree {m m' : Mach} {A : Multiset ℕ} {va n : ℕ} :
      Reach root m (frames (fun v => pteAt m root (v * pgsize)) (va / pgsize) n + A) →
      va + n * pgsize ≤ maxva → (Vm.uvmunmap root va n true).run m = (.ok ⟨⟩, m') →
      Reach root m' A

end reach

/-! What a run that has returned has done. -/

lemma of_run {α : Type} {x : M α} {Q : α → Mach → Prop} {E : Halt → Mach → Prop} {a : α}
    (h : wp x Q E m) (hx : x.run m = (.ok a, m')) : Q a m' := by
  unfold wp at h
  rwa [hx] at h

lemma exists_run {α : Type} {x : M α} {Q : α → Mach → Prop} (h : wp x Q never m) :
    ∃ a m', x.run m = (.ok a, m') := by
  unfold wp at h
  rcases hx : x.run m with ⟨r, m'⟩
  rw [hx] at h
  cases r with
  | ok a => exact ⟨a, m', rfl⟩
  | error e => exact h.elim

variable {va' : ℕ}

section
variable (h : va / pgsize = va' / pgsize)
include h

lemma walkFrom_congr {alloc : Bool} (n p : ℕ) : walkFrom va alloc n p = walkFrom va' alloc n p := by
  induction n generalizing p with
  | zero => rfl
  | succ n ih => simp only [walkFrom, px_eq_path, h, ih]

lemma walk_congr {alloc : Bool} (hva : va < maxva) (hva' : va' < maxva) :
    walk root va alloc = walk root va' alloc := by
  unfold walk
  rw [if_neg (by omega), if_neg (by omega), walkFrom_congr h, px_eq_path, px_eq_path, h]

lemma pteAt_congr (hva : va < maxva) (hva' : va' < maxva) : pteAt m root va = pteAt m root va' := by
  unfold pteAt
  rw [walk_congr h hva hva']

end

theorem pteAt_eq (hm : Maps m root f X) (hlt : ∀ p ∈ X, p < maxPage) (hva : va < maxva) :
    pteAt m root va = f (va / pgsize) := by
  have hv := lt_maxva_iff.mp hva
  have hva' : va / pgsize * pgsize < maxva := by
    unfold maxva pgsize at *
    omega
  have hdiv : va / pgsize = va / pgsize * pgsize / pgsize := by
    unfold pgsize
    omega
  rw [pteAt_congr hdiv hva hva']
  have hwp := walk_find hm hlt hv
  unfold pteAt
  unfold wp at hwp
  rcases hx : (walk root (va / pgsize * pgsize) false).run m with ⟨r, m'⟩
  rw [hx] at hwp
  cases r with
  | error e => exact hwp.elim
  | ok r =>
    obtain ⟨rfl, ⟨rfl, h0⟩ | ⟨pte, rfl, hpte⟩⟩ := hwp
    · exact h0.symm
    · exact hpte.read (by omega)

lemma frames_pteAt {n : ℕ} (hm : Maps m root f X) (hlt : ∀ p ∈ X, p < maxPage)
    (hle : va + n * pgsize ≤ maxva) :
    frames (fun v => pteAt m root (v * pgsize)) (va / pgsize) n = frames f (va / pgsize) n := by
  refine frames_congr fun v h1 h2 => ?_
  rw [pteAt_eq hm hlt (by unfold maxva pgsize at *; omega), Nat.mul_div_cancel v (by decide)]

section run
variable [Image]

variable {alloc : Bool}

lemma walk_run {t : Table 2} (ht : Backs m root f X t) (ho : Owns m (X + A))
    (hva : va < maxva) :
    wp (walk root va alloc) (fun r m' => ∃ t', Backs m' root f t'.pages t' ∧
      Owns m' (t'.pages + A) ∧ (∀ ix p, t.slot ix = some p → t'.slot ix = some p) ∧
      ∀ pte, r = some pte → t'.slot (path (va / pgsize)) = some pte.page ∧
        pte.index = path (va / pgsize) 0) never m := by
  cases alloc with
  | true =>
    refine wp_post (walk_extends ht ho hva) ?_
    rintro r m' ⟨t', hb, ho', -, hst, hr⟩
    exact ⟨t', hb, ho', hst, hr⟩
  | false =>
    have hlt : ∀ p ∈ t.pages, p < maxPage := by
      rw [ht.pages]
      exact fun p hp => ho.lt_maxPage (Multiset.mem_add.mpr (.inl hp))
    unfold walk
    rw [if_neg (by omega), ← ht.root]
    refine wp_seq (walkFrom_find ht.rep hlt) ?_
    rintro r m' ⟨rfl, rfl⟩
    refine wp_pure ⟨t, ⟨rfl, ht.rep, rfl, ht.lookup⟩, ht.pages ▸ ho, fun _ _ h => h, ?_⟩
    intro pte hpte
    obtain ⟨p, hp, rfl⟩ := Option.map_eq_some_iff.mp hpte
    exact ⟨hp, px_eq_path 0 va⟩

variable {size pa : ℕ} {perm : Word}

lemma mappages_run {E : Halt → Mach → Prop} (hm : Maps m root f X)
    (ho : Owns m (X + A)) (hle : va + size ≤ maxva)
    (hE : (va % pgsize ≠ 0 ∨ size % pgsize ≠ 0 ∨ size = 0 ∨
      ∃ k < size / pgsize, hasFlag (f (va / pgsize + k)) pteV) → ∀ e s, E e s) :
    wp (mappages root va size pa perm) (fun ok m' => ∃ j X', Owns m' (X' + A) ∧
      Maps m' root (mapped f (va / pgsize) j pa perm) X' ∧
      (ok = true → j = size / pgsize)) E m := by
  unfold mappages
  split_ifs with h1 h2 h3
  · exact wp_throw (hE (.inl h1) _ _)
  · exact wp_throw (hE (.inr (.inl h2)) _ _)
  · exact wp_throw (hE (.inr (.inr (.inl h3))) _ _)
  · have hva : va = va / pgsize * pgsize := by
      unfold pgsize at *
      omega
    have hrange : va / pgsize + (size / pgsize - 1) < 2 ^ 26 := by
      unfold maxva pgsize at *
      omega
    have hpos : 0 < size / pgsize := by
      unfold pgsize at *
      omega
    have hrun : wp (mappagesFrom root perm (size / pgsize - 1) (va / pgsize * pgsize) pa) _ E m :=
      mappagesFrom_run hm ho hrange ?_
    · rw [← hva] at hrun
      refine wp_post hrun ?_
      rintro ok m' ⟨j, X', ho', -, hm', hj⟩
      refine ⟨j, X', ho', hm', ?_⟩
      rintro rfl
      rw [if_pos rfl] at hj
      omega
    · rintro ⟨u, hu1, hu2, hu⟩
      refine hE (.inr (.inr (.inr ⟨u - va / pgsize, by omega, ?_⟩)))
      rwa [Nat.add_sub_cancel' hu1]

lemma unmap_run {n : ℕ} {doFree : Bool} (hm : Maps m root f X)
    (ho : Owns m (X + ((if doFree then frames f (va / pgsize) n else 0) + A)))
    (hle : va + n * pgsize ≤ maxva) :
    wp (uvmunmap root va n doFree) (fun _ m' => Maps m' root (cleared f (va / pgsize) n) X ∧
      Owns m' (X + A) ∧ ∀ k < n, hasFlag (f (va / pgsize + k)) pteV) (fun _ _ => True) m := by
  by_cases hal : va % pgsize = 0
  · have hva : va = va / pgsize * pgsize := by
      unfold pgsize at *
      omega
    have hrun : wp (uvmunmap root (va / pgsize * pgsize) n doFree) _ (fun _ _ => True) m :=
      uvmunmap_run hm ho (by unfold maxva pgsize at *; omega) fun _ _ _ => trivial
    rw [← hva] at hrun
    refine wp_post hrun ?_
    rintro _ m' ⟨hm', ho', -, hp⟩
    exact ⟨hm', ho', fun k hk => (hp _ (by omega) (by omega)).1⟩
  · unfold uvmunmap
    rw [if_pos hal]
    exact wp_throw trivial

/-- A table that has been reached is the map `f` of its entries, in pages of its own. -/
lemma Reach.maps (h : Reach root m A) : ∃ f X, Maps m root f X ∧ Owns m (X + A) := by
  induction h with
  | create ho hrun =>
    obtain ⟨-, ho', hm⟩ := of_run (uvmcreate_spec ho) hrun
    exact ⟨_, _, hm, ho'⟩
  | @kalloc m m' A p _ hrun ih =>
    obtain ⟨f, X, hm, ho⟩ := ih
    obtain ⟨ho', hk⟩ := of_run (kalloc_spec ho) hrun
    refine ⟨f, X, hm.frame hk.left, ?_⟩
    rw [add_left_comm]
    exact ho'
  | store _ hp ih =>
    obtain ⟨f, X, hm, ho⟩ := ih
    rw [add_comm] at ho
    exact ⟨f, X, hm.frame (Keeps.put (ho.not_mem hp)), by rw [add_comm]; exact ho⟩
  | walk _ hva hrun ih =>
    obtain ⟨f, X, ⟨t, ht⟩, ho⟩ := ih
    obtain ⟨t', hb, ho', -⟩ := of_run (walk_run ht ho hva) hrun
    exact ⟨f, t'.pages, ⟨t', hb⟩, ho'⟩
  | mappages _ hle hrun ih =>
    obtain ⟨f, X, hm, ho⟩ := ih
    obtain ⟨j, X', ho', hm', -⟩ := of_run (mappages_run hm ho hle fun _ _ _ => trivial) hrun
    exact ⟨_, X', hm', ho'⟩
  | uvmunmap _ hle hrun ih =>
    obtain ⟨f, X, hm, ho⟩ := ih
    obtain ⟨hm', ho', -⟩ := of_run (unmap_run hm (by simpa using ho) hle) hrun
    exact ⟨_, X, hm', ho'⟩
  | @uvmunmapFree m m' A va n _ hle hrun ih =>
    obtain ⟨f, X, hm, ho⟩ := ih
    rw [frames_pteAt hm (fun p hp => ho.lt_maxPage (Multiset.mem_add.mpr (.inl hp))) hle] at ho
    obtain ⟨hm', ho', -⟩ := of_run (unmap_run hm ho hle) hrun
    exact ⟨_, X, hm', ho'⟩

lemma translate_eq (hm : Maps m root f X) (ho : Owns m (X + A)) (hva : va < maxva) :
    translate m root va = if hasFlag (f (va / pgsize)) pteV then
      some (ptePage (f (va / pgsize)), pteFlags (f (va / pgsize))) else none := by
  unfold translate
  rw [pteAt_eq hm (fun p hp => ho.lt_maxPage (Multiset.mem_add.mpr (.inl hp))) hva]

/-- The table at `root` behaves as a partial map from pages to pages with flags. -/
structure RefinesMap (root : ℕ) (m : Mach) (A : Multiset ℕ) : Prop where
  slot : ∀ {va va' : ℕ} {alloc alloc' : Bool} {pte pte' : PteRef} {m₁ m₂ : Mach}, va < maxva →
    va' < maxva → (walk root va alloc).run m = (.ok (some pte), m₁) →
    (walk root va' alloc').run m₁ = (.ok (some pte'), m₂) →
    (pte = pte' ↔ va / pgsize = va' / pgsize)
  walk : ∀ {va : ℕ} {alloc : Bool} {r : Option PteRef} {m' : Mach}, va < maxva →
    (walk root va alloc).run m = (.ok r, m') →
    ∀ a < maxva, translate m' root a = translate m root a
  mapReturns : ∀ {va size pa : ℕ} {perm : Word}, va + size ≤ maxva → va % pgsize = 0 →
    size % pgsize = 0 → 0 < size →
    (∀ a, va ≤ a → a < va + size → translate m root a = none) →
    ∃ ok m', (mappages root va size pa perm).run m = (.ok ok, m')
  map : ∀ {va size pa : ℕ} {perm : Word} {m' : Mach}, va + size ≤ maxva → IsFlags perm →
    pa + size / pgsize ≤ 2 ^ 44 → (mappages root va size pa perm).run m = (.ok true, m') →
    (∀ k < size / pgsize, ∀ a, a / pgsize = va / pgsize + k →
      translate m' root a = some (pa + k, perm ||| pteV)) ∧
    ∀ a < maxva, (∀ k < size / pgsize, a / pgsize ≠ va / pgsize + k) →
      translate m' root a = translate m root a
  unmap : ∀ {va n : ℕ} {doFree : Bool} {m' : Mach}, va + n * pgsize ≤ maxva →
    (doFree = true → frames (fun v => pteAt m root (v * pgsize)) (va / pgsize) n ≤ A) →
    (uvmunmap root va n doFree).run m = (.ok ⟨⟩, m') →
    (∀ k < n, ∀ a, a / pgsize = va / pgsize + k →
      translate m root a ≠ none ∧ translate m' root a = none) ∧
    ∀ a < maxva, (∀ k < n, a / pgsize ≠ va / pgsize + k) →
      translate m' root a = translate m root a

omit [Image] in
lemma slot_eq_iff {t : Table 2} {pte pte' : PteRef} (hd : t.pages.Nodup)
    (hva : va < maxva) (hva' : va' < maxva) (hp : t.slot (path (va / pgsize)) = some pte.page)
    (hi : pte.index = path (va / pgsize) 0)
    (hp' : t.slot (path (va' / pgsize)) = some pte'.page)
    (hi' : pte'.index = path (va' / pgsize) 0) : pte = pte' ↔ va / pgsize = va' / pgsize := by
  have hv := lt_maxva_iff.mp hva
  have hv' := lt_maxva_iff.mp hva'
  constructor
  · rintro rfl
    by_contra hne
    obtain ⟨l, hl, hpath⟩ := path_ne (v := va' / pgsize) (by omega) (by omega) hne
    rcases Nat.eq_zero_or_pos l with rfl | hpos
    · exact hpath (hi.symm.trans hi')
    · exact hpath (Tree.slot_inj hd hp hp' l hpos hl)
  · intro h
    rw [← h] at hp' hi'
    have hpage : pte.page = pte'.page := Option.some.inj (hp.symm.trans hp')
    have hindex : pte.index = pte'.index := hi.trans hi'.symm
    cases pte
    cases pte'
    simp_all

lemma Reach.slot (h : Reach root m A) {alloc' : Bool} {pte pte' : PteRef}
    {m₁ m₂ : Mach} (hva : va < maxva) (hva' : va' < maxva)
    (hrun : (Vm.walk root va alloc).run m = (.ok (some pte), m₁))
    (hrun' : (Vm.walk root va' alloc').run m₁ = (.ok (some pte'), m₂)) :
    pte = pte' ↔ va / pgsize = va' / pgsize := by
  obtain ⟨f, X, ⟨t, ht⟩, ho⟩ := h.maps
  obtain ⟨t1, hb1, ho1, -, hr⟩ := of_run (walk_run ht ho hva) hrun
  obtain ⟨t2, hb2, ho2, hstay, hr'⟩ := of_run (walk_run hb1 ho1 hva') hrun'
  obtain ⟨hp, hi⟩ := hr pte rfl
  obtain ⟨hp', hi'⟩ := hr' pte' rfl
  exact slot_eq_iff (Multiset.nodup_add.mp ho2.nodup).1 hva hva' (hstay _ _ hp) hi hp' hi'

lemma translate_other {g : ℕ → Word} {X' A' : Multiset ℕ} (hm : Maps m root f X)
    (ho : Owns m (X + A)) (hm' : Maps m' root g X') (ho' : Owns m' (X' + A')) (hva : va < maxva)
    (h : g (va / pgsize) = f (va / pgsize)) : translate m' root va = translate m root va := by
  rw [translate_eq hm' ho' hva, translate_eq hm ho hva, h]

section
variable (h : Reach root m A)
include h

lemma Reach.walk_translate {r : Option PteRef} (hva : va < maxva)
    (hrun : (Vm.walk root va alloc).run m = (.ok r, m')) :
    ∀ a < maxva, translate m' root a = translate m root a := by
  obtain ⟨f, X, ⟨t, ht⟩, ho⟩ := h.maps
  obtain ⟨t', hb, ho', -⟩ := of_run (walk_run ht ho hva) hrun
  exact fun a ha => translate_other ⟨t, ht⟩ ho ⟨t', hb⟩ ho' ha rfl

lemma Reach.map_returns (hle : va + size ≤ maxva) (h1 : va % pgsize = 0) (h2 : size % pgsize = 0)
    (h3 : 0 < size) (hfree : ∀ a, va ≤ a → a < va + size → translate m root a = none) :
    ∃ ok m', (Vm.mappages root va size pa perm).run m = (.ok ok, m') := by
  obtain ⟨f, X, hm, ho⟩ := h.maps
  refine exists_run (mappages_run hm ho hle ?_)
  rintro (hn | hn | hn | ⟨k, hk, hflag⟩)
  · exact absurd h1 hn
  · exact absurd h2 hn
  · omega
  · have hdiv : (va + k * pgsize) / pgsize = va / pgsize + k := by
      unfold pgsize
      omega
    have hlt : va + k * pgsize < va + size := by
      unfold pgsize at *
      omega
    have hnone := hfree (va + k * pgsize) (by omega) hlt
    rw [translate_eq hm ho (by omega), hdiv, if_pos hflag] at hnone
    cases hnone

lemma Reach.map_translate (hle : va + size ≤ maxva) (hperm : IsFlags perm)
    (hpa : pa + size / pgsize ≤ 2 ^ 44)
    (hrun : (Vm.mappages root va size pa perm).run m = (.ok true, m')) :
    (∀ k < size / pgsize, ∀ a, a / pgsize = va / pgsize + k →
      translate m' root a = some (pa + k, perm ||| pteV)) ∧
    ∀ a < maxva, (∀ k < size / pgsize, a / pgsize ≠ va / pgsize + k) →
      translate m' root a = translate m root a := by
  obtain ⟨f, X, hm, ho⟩ := h.maps
  obtain ⟨j, X', ho', hm', hj⟩ := of_run (mappages_run hm ho hle fun _ _ _ => trivial) hrun
  obtain rfl := hj rfl
  refine ⟨fun k hk a ha => ?_, fun a ha hout => translate_other hm ho hm' ho' ha ?_⟩
  · have hmax : a < maxva := by
      rw [lt_maxva_iff, ha]
      unfold maxva pgsize at *
      omega
    have hentry : mapped f (va / pgsize) (size / pgsize) pa perm (a / pgsize) =
        mkPte (pa + k) perm := by
      rw [ha, mapped, if_pos (by omega), Nat.add_sub_cancel_left]
    have hvalid : hasFlag (mkPte (pa + k) perm) pteV :=
      (hasFlag_mkPte hperm (by rfl)).mpr (.inr (by decide))
    rw [translate_eq hm' ho' hmax, hentry, if_pos hvalid,
      ptePage_mkPte (by unfold maxPage; omega) hperm, pteFlags_mkPte hperm]
  · rw [mapped, if_neg]
    rintro ⟨h1, h2⟩
    exact hout (a / pgsize - va / pgsize) (by omega) (by omega)

lemma Reach.unmap_translate {n : ℕ} {doFree : Bool} (hle : va + n * pgsize ≤ maxva)
    (hfree : doFree = true → frames (fun v => pteAt m root (v * pgsize)) (va / pgsize) n ≤ A)
    (hrun : (Vm.uvmunmap root va n doFree).run m = (.ok ⟨⟩, m')) :
    (∀ k < n, ∀ a, a / pgsize = va / pgsize + k →
      translate m root a ≠ none ∧ translate m' root a = none) ∧
    ∀ a < maxva, (∀ k < n, a / pgsize ≠ va / pgsize + k) →
      translate m' root a = translate m root a := by
  obtain ⟨f, X, hm, ho⟩ := h.maps
  obtain ⟨A', hA⟩ : ∃ A', A = (if doFree then frames f (va / pgsize) n else 0) + A' := by
    cases doFree with
    | false => exact ⟨A, by simp⟩
    | true =>
      obtain ⟨A', hA'⟩ := Multiset.le_iff_exists_add.mp (hfree rfl)
      rw [frames_pteAt hm (fun p hp => ho.lt_maxPage (Multiset.mem_add.mpr (.inl hp))) hle] at hA'
      exact ⟨A', hA'⟩
  rw [hA] at ho
  obtain ⟨hm', ho', hv⟩ := of_run (unmap_run hm ho hle) hrun
  refine ⟨fun k hk a ha => ?_, fun a ha hout => translate_other hm ho hm' ho' ha ?_⟩
  · have hmax : a < maxva := by
      rw [lt_maxva_iff, ha]
      unfold maxva pgsize at *
      omega
    have hzero : cleared f (va / pgsize) n (va / pgsize + k) = 0 := if_pos (by omega)
    rw [translate_eq hm ho hmax, translate_eq hm' ho' hmax, ha, hzero, if_pos (hv k hk),
      if_neg (not_hasFlag_zero _)]
    exact ⟨Option.some_ne_none _, rfl⟩
  · rw [cleared, if_neg]
    rintro ⟨h1, h2⟩
    exact hout (a / pgsize - va / pgsize) (by omega) (by omega)

end

omit [Image] in
lemma pte_round_trip {pa flags : Word} (hal : pa.toNat % pgsize = 0) (hf : IsFlags flags) :
    pte2pa (pa2pte pa ||| flags) = pa ∧ pteFlags (pa2pte pa ||| flags) = flags := by
  have hpa : pa = pageAddr (pa.toNat / pgsize) := by
    apply BitVec.eq_of_toNat_eq
    have hlt := pa.isLt
    rw [pageAddr, BitVec.toNat_ofNat, Nat.div_mul_cancel (Nat.dvd_of_mod_eq_zero hal),
      Nat.mod_eq_of_lt hlt]
  refine ⟨?_, ?_⟩
  · rw [pte2pa_or hf, hpa, pte2pa_pa2pte]
  · have hzero := pteFlags_pa2pte pa
    unfold pteFlags at hzero ⊢
    rw [BitVec.and_or_distrib_right, hzero, hf, BitVec.zero_or]

/-- Every page table that is reached from an empty one refines a partial map, and entries keep
addresses and flags apart. -/
theorem page_table_refines (h : Reach root m A) :
    RefinesMap root m A ∧ ∀ pa flags : Word, pa.toNat % pgsize = 0 → pa.toNat < 2 ^ 56 →
      IsFlags flags → pte2pa (pa2pte pa ||| flags) = pa ∧ pteFlags (pa2pte pa ||| flags) = flags :=
  ⟨⟨h.slot, h.walk_translate, h.map_returns, h.map_translate, h.unmap_translate⟩,
    fun _ _ hal _ hf => pte_round_trip hal hf⟩

end run

lemma reach_empty : ∃ root m, @Reach smallImage root m 0 := by
  have hsome : ((uvmcreate.run smallMach).1.toOption).any Option.isSome = true := by
    decide +kernel
  rcases hx : uvmcreate.run smallMach with ⟨r, m⟩
  rw [hx] at hsome
  cases r with
  | error e => cases hsome
  | ok r =>
    obtain ⟨root, rfl⟩ := Option.isSome_iff_exists.mp hsome
    exact ⟨root, m, @Reach.create smallImage root smallMach m 0 owns_smallMach hx⟩

theorem page_table_refines_empty : ∃ (_ : Image) (root : ℕ) (m : Mach), Reach root m 0 ∧
    RefinesMap root m 0 ∧ ∀ pa flags : Word, pa.toNat % pgsize = 0 → pa.toNat < 2 ^ 56 →
      IsFlags flags → pte2pa (pa2pte pa ||| flags) = pa ∧ pteFlags (pa2pte pa ||| flags) = flags := by
  obtain ⟨root, m, h⟩ := reach_empty
  exact ⟨smallImage, root, m, h, @page_table_refines m root 0 smallImage h⟩

end Xv6.Vm
