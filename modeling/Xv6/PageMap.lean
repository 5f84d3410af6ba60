import Xv6.PageTable

/-! A page table as a map from virtual pages to entries, and what `mappages`, `uvmunmap` and
`freewalk` do to it. -/
namespace Xv6.Vm

open Program Radix Function List

section
variable (m : Mach) (root : ℕ) (f : ℕ → Word) (X : Multiset ℕ)

/-- The tree `t` is the page table at `root`: its pages are `X` and its entries are `f`. -/
structure Backs (t : Table 2) : Prop where
  root : t.root = root
  rep : t.Rep m.cell entry
  pages : t.pages = X
  lookup : ∀ v < 2 ^ 27, t.lookup (path v) = f v

/-- The page table at `root` is kept in the pages `X` and has entry `f v` for page `v`. -/
def Maps : Prop := ∃ t, Backs m root f X t

def EntryOf (v : ℕ) (pte : PteRef) : Prop :=
  ∃ t, Backs m root f X t ∧ t.slot (path v) = some pte.page ∧ pte.index = path v 0

end

def IsLeaf (w : Word) : Prop := hasFlag w pteV ∧ hasFlag w (pteR ||| pteW ||| pteX)

def frames (f : ℕ → Word) (lo n : ℕ) : Multiset ℕ :=
  ((range' lo n).map fun v => ptePage (f v) : List ℕ)

def cleared (f : ℕ → Word) (lo n : ℕ) (v : ℕ) : Word := if lo ≤ v ∧ v < lo + n then 0 else f v

variable {m m' : Mach} {root v pa lo n : ℕ} {f g : ℕ → Word} {X A : Multiset ℕ} {pte : PteRef}
  {w perm : Word}

lemma Backs.frame {t : Table 2} (h : Backs m root f X t) (hk : Keeps X m m') :
    Backs m' root f X t :=
  ⟨h.root, h.rep.frame (h.pages ▸ hk.cell), h.pages, h.lookup⟩

theorem Maps.frame (h : Maps m root f X) (hk : Keeps X m m') : Maps m' root f X := by
  obtain ⟨t, ht⟩ := h
  exact ⟨t, ht.frame hk⟩

section
variable (h : EntryOf m root f X v pte)
include h

lemma EntryOf.frame (hk : Keeps X m m') : EntryOf m' root f X v pte := by
  obtain ⟨t, ht, hs⟩ := h
  exact ⟨t, ht.frame hk, hs⟩

theorem EntryOf.mem : pte.page ∈ X := by
  obtain ⟨t, ht, hs, _⟩ := h
  rw [← ht.pages]
  exact Tree.slot_mem_pages hs

theorem EntryOf.read (hv : v < 2 ^ 27) : m.cell pte.page pte.index = f v := by
  obtain ⟨t, ht, hs, hi⟩ := h
  rw [hi, ht.rep.read hs, ht.lookup v hv]

theorem EntryOf.write (hd : X.Nodup) (hv : v < 2 ^ 27) (w : Word) :
    Maps (m.put pte.page ((m.mem pte.page).put64 pte.index w)) root (update f v w) X := by
  obtain ⟨t, ht, hs, hi⟩ := h
  refine ⟨t.store (path v) w, by rw [Tree.root_store, ht.root], ?_, by
    rw [Tree.pages_store, ht.pages], ?_⟩
  · refine ht.rep.write (ht.pages ▸ hd) hs ?_ fun q _ hq => cell_put_of_ne hq
    rw [cell_put_self, Page.get64_put64_eq_update, hi]
    rfl
  · intro v' hv'
    by_cases hvv : v' = v
    · subst hvv
      rw [update_self, Tree.lookup_store hs fun _ _ => rfl]
    · rw [update_of_ne hvv, Tree.lookup_store_of_ne (path_ne hv hv' hvv), ht.lookup v' hv']

end

section frames

@[simp] theorem frames_zero (f : ℕ → Word) (lo : ℕ) : frames f lo 0 = 0 := rfl

theorem frames_succ (f : ℕ → Word) (lo n : ℕ) :
    frames f lo (n + 1) = {ptePage (f lo)} + frames f (lo + 1) n := by
  simp [frames, range'_succ, ← Multiset.cons_coe]

theorem frames_add (f : ℕ → Word) (lo n k : ℕ) :
    frames f lo (n + k) = frames f lo n + frames f (lo + n) k := by
  simp [frames, ← range'_append_1]

theorem frames_congr (h : ∀ v, lo ≤ v → v < lo + n → f v = g v) : frames f lo n = frames g lo n := by
  unfold frames
  congr 1
  refine map_congr_left fun v hv => ?_
  obtain ⟨h1, h2⟩ := mem_range'_1.mp hv
  rw [h v h1 h2]

theorem mem_frames (h1 : lo ≤ v) (h2 : v < lo + n) : ptePage (f v) ∈ frames f lo n := by
  unfold frames
  exact Multiset.mem_coe.mpr (mem_map.mpr ⟨v, mem_range'_1.mpr ⟨h1, h2⟩, rfl⟩)

@[simp] theorem cleared_zero (f : ℕ → Word) (lo : ℕ) : cleared f lo 0 = f := by
  funext v
  rw [cleared, if_neg (by omega)]

lemma cleared_succ (f : ℕ → Word) (lo n : ℕ) :
    cleared (update f lo 0) (lo + 1) n = cleared f lo (n + 1) := by
  funext v
  unfold cleared
  by_cases hv : v = lo
  · subst hv
    rw [if_neg (by omega), if_pos (by omega), update_self]
  · rw [update_of_ne hv]
    have hiff : lo + 1 ≤ v ∧ v < lo + 1 + n ↔ lo ≤ v ∧ v < lo + (n + 1) := by omega
    simp only [hiff]

end frames

theorem IsLeaf.ne_zero (h : IsLeaf w) : w ≠ 0 := by
  rintro rfl
  exact not_hasFlag_zero _ h.1

lemma IsLeaf.flags_ne (h : IsLeaf w) : pteFlags w ≠ pteV := by
  intro he
  have hrwx := (hasFlag_pteFlags (by rfl)).mpr h.2
  rw [he] at hrwx
  exact absurd hrwx (by decide)

def Present (w : Word) : Prop := hasFlag w pteV ∧ pteFlags w ≠ pteV

lemma IsLeaf.present (h : IsLeaf w) : Present w := ⟨h.1, h.flags_ne⟩

lemma not_present_zero : ¬ Present 0 := fun h => not_hasFlag_zero _ h.1

section walk

/-- `walk` without `alloc` changes nothing and finds the entry unless it is zero. -/
theorem walk_find (hm : Maps m root f X) (hlt : ∀ p ∈ X, p < maxPage) (hv : v < 2 ^ 26) :
    wp (walk root (v * pgsize) false) (fun r m' => m' = m ∧
      (r = none ∧ f v = 0 ∨ ∃ pte, r = some pte ∧ EntryOf m root f X v pte)) never m := by
  obtain ⟨t, ht⟩ := hm
  have hdiv : v * pgsize / pgsize = v := by
    unfold pgsize
    omega
  unfold walk
  rw [if_neg (by unfold maxva pgsize; omega), ← ht.root]
  refine wp_seq (walkFrom_find ht.rep (ht.pages ▸ hlt)) ?_
  rintro r m' ⟨rfl, rfl⟩
  rw [hdiv]
  refine wp_pure ⟨rfl, ?_⟩
  cases hs : t.slot (path v) with
  | none =>
    refine .inl ⟨rfl, ?_⟩
    rw [← ht.lookup v (by omega), Tree.lookup_of_slot_none hs]
  | some p => exact .inr ⟨⟨p, px 0 (v * pgsize)⟩, rfl, t, ht.root ▸ ht, hs, by rw [px_eq_path, hdiv]⟩

variable [Image]

/-- `walk` with `alloc` changes no entry, but may need pages for tables; entries that are there
stay where they are. -/
theorem walk_extends {t : Table 2} {va : ℕ} (ht : Backs m root f X t) (ho : Owns m (X + A))
    (hva : va < maxva) :
    wp (walk root va true) (fun r m' => ∃ t', Backs m' root f t'.pages t' ∧
      Owns m' (t'.pages + A) ∧ Keeps A m m' ∧
      (∀ ix p, t.slot ix = some p → t'.slot ix = some p) ∧
      ∀ pte, r = some pte → t'.slot (path (va / pgsize)) = some pte.page ∧
        pte.index = path (va / pgsize) 0) never m := by
  unfold walk
  rw [if_neg (by omega), ← ht.root]
  refine wp_seq (walkFrom_alloc ht.rep (ht.pages ▸ ho)) ?_
  rintro r m' ⟨t', h⟩
  refine wp_pure ⟨t', ⟨h.root, h.rep, rfl, fun v hv => by rw [h.lookup, ht.lookup v hv]⟩, h.own,
    h.keeps, h.stays, ?_⟩
  intro pte hpte
  obtain ⟨p, hp, rfl⟩ := Option.map_eq_some_iff.mp hpte
  exact ⟨h.slot p hp, px_eq_path 0 va⟩

lemma walk_alloc (hm : Maps m root f X) (ho : Owns m (X + A)) (hv : v < 2 ^ 26) :
    wp (walk root (v * pgsize) true) (fun r m' => ∃ X', Owns m' (X' + A) ∧ Keeps A m m' ∧
      Maps m' root f X' ∧ ∀ pte, r = some pte → EntryOf m' root f X' v pte) never m := by
  obtain ⟨t, ht⟩ := hm
  have hdiv : v * pgsize / pgsize = v := by
    unfold pgsize
    omega
  refine wp_post (walk_extends ht ho (by unfold maxva pgsize; omega)) ?_
  rintro r m' ⟨t', hb, ho', hk, -, hr⟩
  rw [hdiv] at hr
  exact ⟨t'.pages, ho', hk, ⟨t', hb⟩, fun pte hpte => ⟨t', hb, hr pte hpte⟩⟩

omit [Image] in
/-- The map with `n` pages from page `pa` on at the virtual pages from `v` on. -/
def mapped (f : ℕ → Word) (v n pa : ℕ) (perm : Word) (u : ℕ) : Word :=
  if v ≤ u ∧ u < v + n then mkPte (pa + (u - v)) perm else f u

omit [Image] in
lemma mapped_zero (f : ℕ → Word) (v pa : ℕ) (perm : Word) : mapped f v 0 pa perm = f :=
  funext fun _ => if_neg (by omega)

omit [Image] in
lemma mapped_succ (f : ℕ → Word) (v n pa : ℕ) (perm : Word) :
    mapped (update f v (mkPte pa perm)) (v + 1) n (pa + 1) perm =
      mapped f v (n + 1) pa perm := by
  funext u
  unfold mapped
  by_cases huv : u = v
  · subst huv
    rw [if_neg (by omega), update_self, if_pos (by omega), Nat.sub_self, add_zero]
  · rw [update_of_ne huv]
    split_ifs with h1 h2 h2
    · rw [show pa + 1 + (u - (v + 1)) = pa + (u - v) by omega]
    · omega
    · omega
    · rfl

variable {E : Halt → Mach → Prop}

section
variable (hm : Maps m root f X) (ho : Owns m (X + A))
include hm ho

lemma mapPage_run {Q : Bool → Mach → Prop} {x : M Bool} (hv : v < 2 ^ 26)
    (hE : hasFlag (f v) pteV → ∀ e s, E e s)
    (hnone : ∀ m' X', Owns m' (X' + A) → Keeps A m m' → Maps m' root f X' → Q false m')
    (hx : ∀ m' X', Owns m' (X' + A) → Keeps A m m' → Maps m' root (update f v (mkPte pa perm)) X' → wp x Q E m')
    :
    wp (do
      match ← walk root (v * pgsize) true with
      | none => return false
      | some pte =>
          let w ← loadPte pte
          if hasFlag w pteV then throw .mappagesRemap
          else
            storePte pte (mkPte pa perm)
            x) Q E m := by
  refine wp_seq (wp_mono (walk_alloc hm ho hv) (fun _ _ h => h) fun _ _ h => h.elim) ?_
  rintro (_ | pte) m1 ⟨X', ho1, hk1, hm1, he⟩
  · exact wp_pure (hnone m1 X' ho1 hk1 hm1)
  · have hpte := he pte rfl
    refine wp_bind (wp_loadPte ?_)
    rw [hpte.read (by omega)]
    split_ifs with hflag
    · exact wp_throw (hE hflag _ _)
    · exact wp_bind (wp_storePte (hx _ X' ho1 (hk1.trans (Keeps.put (ho1.not_mem hpte.mem)))
        (hpte.write (Multiset.nodup_add.mp ho1.nodup).1 (by omega) _)))

/-- The loop of `mappages` maps a first part of the range, and all of it when it returns 0. It can
stop only at a page that is mapped already. -/
theorem mappagesFrom_run (hv : v + n < 2 ^ 26)
    (hE : (∃ u, v ≤ u ∧ u ≤ v + n ∧ hasFlag (f u) pteV) → ∀ e s, E e s) :
    wp (mappagesFrom root perm n (v * pgsize) pa) (fun ok m' => ∃ j X', Owns m' (X' + A) ∧
      Keeps A m m' ∧ Maps m' root (mapped f v j pa perm) X' ∧
      if ok then j = n + 1 else j ≤ n) E m := by
  induction n generalizing m f X v pa with
  | zero =>
    unfold mappagesFrom
    refine mapPage_run hm ho (by omega) (fun h => hE ⟨v, le_rfl, by omega, h⟩)
      (fun m1 X1 ho1 hk1 hm1 => ⟨0, X1, ho1, hk1, by rwa [mapped_zero], le_rfl⟩) ?_
    intro m1 X1 ho1 hk1 hm1
    refine wp_pure ⟨1, X1, ho1, hk1, ?_, rfl⟩
    rwa [← mapped_succ, mapped_zero]
  | succ n ih =>
    unfold mappagesFrom
    refine mapPage_run hm ho (by omega) (fun h => hE ⟨v, le_rfl, by omega, h⟩)
      (fun m1 X1 ho1 hk1 hm1 => ⟨0, X1, ho1, hk1, by rwa [mapped_zero], Nat.zero_le _⟩) ?_
    intro m1 X1 ho1 hk1 hm1
    rw [show v * pgsize + pgsize = (v + 1) * pgsize by rw [Nat.succ_mul]]
    refine wp_post (ih hm1 ho1 (by omega) ?_) ?_
    · rintro ⟨u, h1, h2, hu⟩
      rw [update_of_ne (by omega)] at hu
      exact hE ⟨u, by omega, by omega, hu⟩
    · rintro ok m' ⟨j, X', ho', hk', hm', hj⟩
      rw [mapped_succ] at hm'
      refine ⟨j + 1, X', ho', hk1.trans hk', hm', ?_⟩
      cases ok with
      | false => exact Nat.succ_le_succ hj
      | true => exact congrArg (· + 1) hj

theorem mappages_spec (hv : v < 2 ^ 26) (h0 : f v = 0) :
    wp (mappages root (v * pgsize) pgsize pa perm) (fun ok m' => ∃ X', Owns m' (X' + A) ∧
      Keeps A m m' ∧ Maps m' root (if ok then update f v (mkPte pa perm) else f) X')
      never m := by
  unfold mappages
  rw [if_neg (by simp), if_neg (by simp), if_neg (by decide)]
  refine wp_post (mappagesFrom_run (n := 0) hm ho hv ?_) ?_
  · rintro ⟨u, h1, h2, hu⟩
    rw [show u = v by omega, h0] at hu
    exact absurd hu (not_hasFlag_zero _)
  · rintro (_ | _) m' ⟨j, X', ho', hk', hm', hj⟩
    · rw [if_neg (by decide)] at hj
      rw [show j = 0 by omega, mapped_zero] at hm'
      exact ⟨X', ho', hk', hm'⟩
    · rw [if_pos rfl] at hj
      rw [hj, ← mapped_succ, mapped_zero] at hm'
      exact ⟨X', ho', hk', hm'⟩

end

variable {doFree : Bool}

lemma freeIf_spec
    (ho : Owns m (X + ((if doFree then frames f lo (n + 1) else 0) + A))) :
    wp (freeIf doFree (ptePage (f lo))) (fun _ m' => Keeps (X + A) m m' ∧
      Owns m' (X + ((if doFree then frames f (lo + 1) n else 0) + A))) never m := by
  cases doFree with
  | false => exact wp_pure ⟨Keeps.refl _ _, ho⟩
  | true =>
    rw [if_pos rfl] at ho
    rw [freeIf, if_pos rfl]
    have hmove : X + (frames f lo (n + 1) + A) =
        {ptePage (f lo)} + (X + (frames f (lo + 1) n + A)) := by
      rw [frames_succ]
      abel
    rw [hmove] at ho
    refine wp_post (kfree_spec ho) ?_
    rintro _ m' ⟨ho', hk⟩
    refine ⟨fun q hq => hk q ?_, ho'⟩
    rcases Multiset.mem_add.mp hq with h | h
    · exact Multiset.mem_add.mpr (.inl h)
    · exact Multiset.mem_add.mpr (.inr (Multiset.mem_add.mpr (.inr h)))

/-- The loop of `uvmunmap` clears the range. It can stop only at a page that is not mapped, or
whose entry has no flag but `PTE_V`. -/
lemma uvmunmapFrom_run (hm : Maps m root f X)
    (ho : Owns m (X + ((if doFree then frames f lo n else 0) + A))) (hn : lo + n ≤ 2 ^ 26)
    (hE : (∃ v, lo ≤ v ∧ v < lo + n ∧ ¬ Present (f v)) → ∀ e s, E e s) :
    wp (uvmunmapFrom root doFree n (lo * pgsize)) (fun _ m' => Maps m' root (cleared f lo n) X ∧
      Owns m' (X + A) ∧ Keeps A m m' ∧ ∀ v, lo ≤ v → v < lo + n → Present (f v)) E m := by
  induction n generalizing m f lo with
  | zero =>
    rw [cleared_zero]
    exact wp_pure ⟨hm, by simpa using ho, Keeps.refl A m, fun v h1 h2 => absurd h2 (by omega)⟩
  | succ n ih =>
    have hfirst : ¬ Present (f lo) → ∀ e s, E e s := fun h => hE ⟨lo, le_rfl, by omega, h⟩
    have hlt : ∀ p ∈ X, p < maxPage := fun p hp => ho.lt_maxPage (Multiset.mem_add.mpr (.inl hp))
    unfold uvmunmapFrom
    refine wp_seq (wp_mono (walk_find hm hlt (by omega)) (fun _ _ h => h) fun _ _ h => h.elim) ?_
    rintro r m1 ⟨rfl, ⟨rfl, hzero⟩ | ⟨pte, rfl, hpte⟩⟩
    · refine wp_throw (hfirst ?_ _ _)
      rw [hzero]
      exact not_present_zero
    refine wp_bind (wp_loadPte ?_)
    rw [hpte.read (by omega)]
    by_cases hv : hasFlag (f lo) pteV
    swap
    · rw [if_pos hv]
      exact wp_throw (hfirst (fun h => hv h.1) _ _)
    by_cases hflags : pteFlags (f lo) = pteV
    · rw [if_neg (not_not.mpr hv), if_pos hflags]
      exact wp_throw (hfirst (fun h => h.2 hflags) _ _)
    rw [if_neg (not_not.mpr hv), if_neg hflags]
    refine wp_seq (wp_mono (freeIf_spec ho) (fun _ _ h => h) fun _ _ h => h.elim) ?_
    rintro _ m2 ⟨hk2, ho2⟩
    have hpte2 := hpte.frame hk2.left
    refine wp_bind (wp_storePte ?_)
    have hX : X.Nodup := (Multiset.nodup_add.mp ho.nodup).1
    have hfr : frames (update f lo 0) (lo + 1) n = frames f (lo + 1) n := by
      refine frames_congr fun v hv _ => update_of_ne ?_ ..
      omega
    have hnext := ih (hpte2.write hX (by omega) 0) (by rw [hfr]; exact ho2) (by omega) ?_
    · rw [show lo * pgsize + pgsize = (lo + 1) * pgsize by rw [Nat.succ_mul]]
      refine wp_post hnext ?_
      rintro _ m' ⟨hm', ho', hk', hrest⟩
      rw [cleared_succ] at hm'
      have hnA : pte.page ∉ A := fun h =>
        ho2.not_mem hpte2.mem (Multiset.mem_add.mpr (.inr h))
      refine ⟨hm', ho', (hk2.right.trans (Keeps.put hnA)).trans hk', ?_⟩
      intro v h1 h2
      by_cases hvlo : v = lo
      · rw [hvlo]
        exact ⟨hv, hflags⟩
      · have hp := hrest v (by omega) (by omega)
        rwa [update_of_ne hvlo] at hp
    · rintro ⟨v, h1, h2, hp⟩
      rw [update_of_ne (by omega)] at hp
      exact hE ⟨v, by omega, by omega, hp⟩

omit [Image] in
lemma turns_pages (lo n : ℕ) (h : lo + n ≤ 2 ^ 26) :
    turns (lo * pgsize) ((lo * pgsize + n * pgsize) % 2 ^ 64) = n := by
  unfold turns pgsize
  omega

section
variable (hm : Maps m root f X) (ho : Owns m (X + ((if doFree then frames f lo n else 0) + A)))
include hm ho

theorem uvmunmap_run (hn : lo + n ≤ 2 ^ 26)
    (hE : (∃ v, lo ≤ v ∧ v < lo + n ∧ ¬ Present (f v)) → ∀ e s, E e s) :
    wp (uvmunmap root (lo * pgsize) n doFree) (fun _ m' => Maps m' root (cleared f lo n) X ∧
      Owns m' (X + A) ∧ Keeps A m m' ∧ ∀ v, lo ≤ v → v < lo + n → Present (f v)) E m := by
  unfold uvmunmap
  rw [if_neg (by simp), turns_pages lo n hn]
  exact uvmunmapFrom_run hm ho hn hE

lemma uvmunmap_spec (hleaf : ∀ v, lo ≤ v → v < lo + n → IsLeaf (f v)) (hn : lo + n ≤ 2 ^ 26) :
    wp (uvmunmap root (lo * pgsize) n doFree) (fun _ m' => Maps m' root (cleared f lo n) X ∧
      Owns m' (X + A) ∧ Keeps A m m') never m := by
  refine wp_post (uvmunmap_run hm ho hn ?_) (fun _ _ h => ⟨h.1, h.2.1, h.2.2.1⟩)
  rintro ⟨v, h1, h2, hp⟩
  exact absurd (hleaf v h1 h2).present hp

end

theorem uvmunmap_keep (hm : Maps m root f X) (ho : Owns m (X + A))
    (hleaf : ∀ v, lo ≤ v → v < lo + n → IsLeaf (f v)) (hn : lo + n ≤ 2 ^ 26) :
    wp (uvmunmap root (lo * pgsize) n false) (fun _ m' => Maps m' root (cleared f lo n) X ∧
      Owns m' (X + A) ∧ Keeps A m m') never m := by
  refine uvmunmap_spec hm ?_ hleaf hn
  rwa [if_neg (by decide), zero_add]

theorem uvmunmap_free (hm : Maps m root f X) (ho : Owns m (X + (frames f lo n + A)))
    (hleaf : ∀ v, lo ≤ v → v < lo + n → IsLeaf (f v)) (hn : lo + n ≤ 2 ^ 26) :
    wp (uvmunmap root (lo * pgsize) n true) (fun _ m' => Maps m' root (cleared f lo n) X ∧
      Owns m' (X + A) ∧ Keeps A m m') never m :=
  uvmunmap_spec hm ho hleaf hn

theorem uvmcreate_spec (ho : Owns m A) :
    wp uvmcreate (fun r m' => Keeps A m m' ∧ match r with
      | none => Owns m' A
      | some root => Owns m' ({root} + A) ∧ Maps m' root (fun _ => 0) {root}) never m := by
  unfold uvmcreate
  refine wp_seq (kalloc_spec ho) ?_
  rintro (_ | p) m1 ⟨ho1, hk1⟩
  · exact wp_pure ⟨hk1, by simpa using ho1⟩
  · refine wp_bind (wp_setPage (wp_pure ⟨?_, ho1, ?_⟩))
    · exact hk1.trans (Keeps.put (ho1.not_mem (Multiset.mem_singleton_self p)))
    · refine ⟨Tree.empty p 2, Tree.root_empty p, Tree.rep_empty ?_ 2, Tree.pages_empty p 2,
        fun _ _ => Tree.lookup_empty p 2⟩
      intro i
      rw [cell_put_self, Page.get64_fill_zero]

end walk

section freewalk
variable [Image] {t : Table n} {l : List (Fin 512)} {free : ℕ → M PUnit}

omit [Image] in
lemma nodup_entries : entries.Nodup := by
  unfold entries
  exact nodup_finRange 512

omit [Image] in
lemma mem_entries (i : Fin 512) : i ∈ entries := by
  unfold entries
  exact mem_finRange i

omit [Image] in
lemma freeEntries_leaf {t : Table 0} (hr : t.Rep m.cell entry) (hz : ∀ ix, t.lookup ix = 0) :
    wp (forM l (freeEntry free t.root)) (fun _ m' => m' = m) never m := by
  refine wp_forM (I := fun _ m' => m' = m) ?_ rfl
  rintro d i r m' _ rfl
  have hword : m'.cell t.root i = 0 := by
    rw [hr i]
    exact hz fun _ => i
  refine wp_bind (wp_loadPte ?_)
  rw [hword, if_neg fun h => not_hasFlag_zero _ h.1, if_neg (not_hasFlag_zero _)]
  exact wp_pure rfl

omit [Image] in
lemma not_hasFlag_entry (p : ℕ) : ¬ hasFlag (entry p) (pteR ||| pteW ||| pteX) := by
  rw [← hasFlag_pteFlags (by rfl), entry, pteFlags_mkPte (show IsFlags 0 from rfl)]
  decide

lemma freeEntries_dir {t : Table (n + 1)} (hl : l.Nodup) (hr : t.Rep m.cell entry)
    (ho : Owns m (t.pages + A))
    (hfree : ∀ (m1 : Mach) (B : Multiset ℕ) (i : Fin 512) (c : Table n), t.child i = some c →
      c.Rep m1.cell entry → Owns m1 (c.pages + B) →
      wp (free c.root) (fun _ m' => Owns m' B ∧ Keeps B m1 m') never m1) :
    wp (forM l (freeEntry free t.root))
      (fun _ m' => Owns m' ({t.root} + (t.undone l + A)) ∧ Keeps A m m') never m := by
  rw [← Tree.undone_nil, add_assoc] at ho
  -- the entries that are still to come are as they were
  have hloop : wp (forM l (freeEntry free t.root)) (fun _ m' =>
      Owns m' ({t.root} + (t.undone l + A)) ∧ Keeps (t.undone l + A) m m' ∧
        ∀ j, j ∉ l → m'.cell t.root j = m.cell t.root j) never m := by
    refine wp_forM (I := fun d m' => Owns m' ({t.root} + (t.undone d + A)) ∧
      Keeps (t.undone d + A) m m' ∧ ∀ j, j ∉ d → m'.cell t.root j = m.cell t.root j) ?_
      ⟨ho, Keeps.refl _ _, fun _ _ => rfl⟩
    rintro d i r m1 rfl ⟨ho1, hk1, hc1⟩
    have hid : i ∉ d := by
      intro h
      exact (nodup_append.mp hl).2.2 i h i (by simp) rfl
    have hnext : ∀ j, j ∉ d ++ [i] → j ∉ d := fun j hj h => hj (mem_append.mpr (.inl h))
    rw [Tree.undone_append hid] at ho1 hk1
    refine wp_bind (wp_loadPte ?_)
    rw [hc1 i hid]
    cases hch : t.child i with
    | none =>
      rw [hch] at ho1 hk1
      rw [hr.of_none hch, if_neg fun h => not_hasFlag_zero _ h.1, if_neg (not_hasFlag_zero _)]
      exact wp_pure ⟨by simpa using ho1, by simpa using hk1, fun j hj => hc1 j (hnext j hj)⟩
    | some c =>
      obtain ⟨he, hrc⟩ := hr.of_child hch
      rw [hch] at ho1 hk1
      have hk : Keeps (c.pages + (t.undone (d ++ [i]) + A)) m m1 := by
        simpa [add_assoc] using hk1
      have hmove : {t.root} + ((some c).elim 0 Tree.pages + t.undone (d ++ [i]) + A) =
          c.pages + ({t.root} + (t.undone (d ++ [i]) + A)) := by
        change {t.root} + (c.pages + t.undone (d ++ [i]) + A) = _
        abel
      rw [hmove] at ho1
      have hlt : c.root < maxPage :=
        ho1.lt_maxPage (Multiset.mem_add.mpr (.inl (Tree.root_mem_pages c)))
      rw [he, if_pos ⟨hasFlag_entry _, not_hasFlag_entry _⟩, ptePage_entry hlt]
      refine wp_seq (hfree m1 _ i c hch (hrc.frame hk.left.cell) ho1) ?_
      rintro _ m2 ⟨ho2, hk2⟩
      refine wp_storePte ⟨ho2, ?_, ?_⟩
      · refine (hk.right.trans hk2.right).trans (Keeps.put fun h => ?_)
        exact ho2.not_mem (Multiset.mem_singleton_self _) h
      · intro j hj
        have hji : j ≠ i := fun h => hj (by simp [h])
        rw [cell_put_self, Page.get64_put64_of_ne _ _ hji]
        have hroot := hk2.left.cell t.root (Multiset.mem_singleton_self _)
        exact (congrFun hroot j).trans (hc1 j (hnext j hj))
  refine wp_post hloop ?_
  rintro _ m' ⟨ho', hk', _⟩
  exact ⟨ho', hk'.right⟩

lemma freewalk_tree {fuel : ℕ} (hfuel : n < fuel) (hr : t.Rep m.cell entry)
    (hz : ∀ ix, t.lookup ix = 0) (ho : Owns m (t.pages + A)) :
    wp (freewalk fuel t.root) (fun _ m' => Owns m' A ∧ Keeps A m m') never m := by
  obtain ⟨fuel, rfl⟩ : ∃ k, fuel = k + 1 := ⟨fuel - 1, by omega⟩
  unfold freewalk
  induction n generalizing m A fuel with
  | zero =>
    refine wp_seq (freeEntries_leaf hr hz) ?_
    rintro _ m' rfl
    rw [Tree.pages_zero] at ho
    exact kfree_spec ho
  | succ n ih =>
    obtain ⟨fuel, rfl⟩ : ∃ k, fuel = k + 1 := ⟨fuel - 1, by omega⟩
    refine wp_seq (freeEntries_dir nodup_entries hr ho ?_) ?_
    · intro m1 B i c hc hrc ho1
      unfold freewalk
      refine ih hrc (fun ix => ?_) ho1 fuel (by omega)
      rw [Tree.lookup_child hc]
      exact hz _
    · rintro _ m' ⟨ho', hk'⟩
      rw [Tree.undone_of_forall mem_entries, zero_add] at ho'
      refine wp_post (kfree_spec ho') ?_
      rintro _ m'' ⟨ho'', hk''⟩
      exact ⟨ho'', hk'.trans hk''⟩

theorem freewalk_spec (hm : Maps m root f X) (hz : ∀ v < 2 ^ 27, f v = 0) (ho : Owns m (X + A)) :
    wp (freewalk 3 root) (fun _ m' => Owns m' A ∧ Keeps A m m') never m := by
  obtain ⟨t, ht⟩ := hm
  rw [← ht.root]
  refine freewalk_tree (by omega) ht.rep ?_ (ht.pages ▸ ho)
  intro ix
  obtain ⟨v, hv, hix⟩ := exists_path ix
  rw [Tree.lookup_congr hix, ht.lookup v hv, hz v hv]

end freewalk

end Xv6.Vm
