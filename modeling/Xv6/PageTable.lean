import Xv6.Radix
import Xv6.Vm

/-! What the page-table routines do, in terms of ownership: a routine is given some pages of
the allocator, gives some back, and leaves alone the contents of all pages that belong to
somebody else. A page table is a radix tree in its pages, and is spoken of as the map from
virtual page numbers to entries. -/
namespace Xv6.Vm

open Program Radix Function Multiset

def never : Halt → Mach → Prop := fun _ _ => False

def Mach.put (m : Mach) (p : ℕ) (d : Page) : Mach := { m with mem := update m.mem p d }

def Mach.cell (m : Mach) (p : ℕ) (i : Fin 512) : Word := (m.mem p).get64 i

def Keeps (A : Multiset ℕ) (m m' : Mach) : Prop := ∀ q ∈ A, m'.mem q = m.mem q

section ownership
variable [Image] {m m' m'' : Mach} {A B X : Multiset ℕ} {p : ℕ} {d : Page}

def ram : Multiset ℕ :=
  (Finset.Ico ((Image.kend + pgsize - 1) / pgsize) (phystop / pgsize)).val

/-- Every page of the allocator is free or one of `X`, and none is there twice. -/
def Owns (m : Mach) (X : Multiset ℕ) : Prop := (m.freelist : Multiset ℕ) + X = ram

theorem mem_ram : p ∈ ram ↔ Image.kend ≤ p * pgsize ∧ p * pgsize < phystop := by
  unfold ram
  rw [Finset.mem_val, Finset.mem_Ico]
  unfold phystop kernbase pgsize
  omega

theorem lt_maxPage_of_mem_ram (h : p ∈ ram) : p < maxPage := by
  have hlt := (mem_ram.mp h).2
  unfold phystop kernbase pgsize at hlt
  unfold maxPage
  omega

theorem Owns.nodup (h : Owns m X) : X.Nodup := by
  have hd : ((m.freelist : Multiset ℕ) + X).Nodup := by
    rw [h]
    exact Finset.nodup _
  exact (nodup_add.mp hd).2.1

theorem Owns.mem_ram (h : Owns m X) (hp : p ∈ X) : p ∈ ram := by
  rw [← h]
  exact mem_add.mpr (.inr hp)

theorem Owns.lt_maxPage (h : Owns m X) (hp : p ∈ X) : p < maxPage :=
  lt_maxPage_of_mem_ram (h.mem_ram hp)

theorem Owns.not_mem (h : Owns m (X + A)) (hp : p ∈ X) : p ∉ A := fun ha =>
  disjoint_left.mp (nodup_add.mp h.nodup).2.2 hp ha

omit [Image] in
theorem Keeps.refl (A : Multiset ℕ) (m : Mach) : Keeps A m m := fun _ _ => rfl

omit [Image] in
theorem Keeps.trans (h : Keeps A m m') (h' : Keeps A m' m'') : Keeps A m m'' := fun q hq => by
  rw [h' q hq, h q hq]

omit [Image] in
theorem Keeps.left (h : Keeps (A + B) m m') : Keeps A m m' := fun q hq =>
  h q (mem_add.mpr (.inl hq))

omit [Image] in
theorem Keeps.right (h : Keeps (A + B) m m') : Keeps B m m' := fun q hq =>
  h q (mem_add.mpr (.inr hq))

omit [Image] in
theorem Keeps.put (h : p ∉ A) : Keeps A m (m.put p d) := by
  intro q hq
  have hne : q ≠ p := fun e => h (e ▸ hq)
  exact update_of_ne hne ..

variable {E : Halt → Mach → Prop}

omit [Image] in
theorem wp_setPage {Q : PUnit → Mach → Prop} (h : Q ⟨⟩ (m.put p d)) :
    wp (setPage p d) Q E m := h

omit [Image] in
theorem wp_page {Q : Page → Mach → Prop} (h : Q (m.mem p) m) :
    wp (page p) Q E m := h

omit [Image] in
theorem wp_loadPte {pte : PteRef} {Q : Word → Mach → Prop}
    (h : Q (m.cell pte.page pte.index) m) : wp (loadPte pte) Q E m := h

omit [Image] in
theorem wp_storePte {pte : PteRef} {w : Word} {Q : PUnit → Mach → Prop} (h : Q ⟨⟩ (m.put pte.page ((m.mem pte.page).put64 pte.index w))) :
    wp (storePte pte w) Q E m := h

omit [Image] in
theorem cell_put_self : (m.put p d).cell p = d.get64 := by
  funext i
  simp [Mach.cell, Mach.put]

omit [Image] in
theorem cell_put_of_ne {q : ℕ} (h : q ≠ p) : (m.put p d).cell q = m.cell q := by
  funext i
  simp [Mach.cell, Mach.put, h]

omit [Image] in
theorem Keeps.cell (h : Keeps A m m') : ∀ q ∈ A, m'.cell q = m.cell q := fun q hq => by
  funext i
  rw [Mach.cell, h q hq, Mach.cell]

theorem kalloc_spec (h : Owns m A) :
    wp kalloc (fun r m' => Owns m' (r.elim 0 ({·}) + A) ∧ Keeps A m m') never m := by
  apply wp_bind
  apply wp_get
  apply wp_bind
  change wp _ _ _ { m with oom := m.oom.tail }
  split
  · exact wp_pure ⟨by simpa [Owns] using h, fun _ _ => rfl⟩
  · unfold Owns at h
    split
    next hf => exact wp_pure ⟨by simpa [Owns] using h, fun _ _ => rfl⟩
    next r next hf =>
      rw [hf, ← cons_coe, cons_add] at h
      have hr : r ∉ A := by
        intro hr
        have hd : (r ::ₘ ((next : Multiset ℕ) + A)).Nodup := by
          rw [h]
          exact Finset.nodup _
        exact (nodup_cons.mp hd).1 (mem_add.mpr (.inr hr))
      refine wp_bind (wp_modify (wp_bind (wp_setPage (wp_pure ⟨?_, ?_⟩))))
      · change (next : Multiset ℕ) + ({r} + A) = ram
        rw [← h, singleton_add, add_cons]
      · exact Keeps.put hr

theorem kfree_spec (h : Owns m ({p} + A)) :
    wp (kfree p) (fun _ m' => Owns m' A ∧ Keeps A m m') never m := by
  have hp : p ∈ ({p} : Multiset ℕ) := mem_singleton_self p
  have hram := mem_ram.mp (h.mem_ram (mem_add.mpr (.inl hp)))
  unfold kfree
  rw [if_neg (by omega)]
  refine wp_bind (wp_setPage (wp_modify ⟨?_, ?_⟩))
  · change ((p :: m.freelist : List ℕ) : Multiset ℕ) + A = ram
    rw [← h, ← cons_coe, cons_add, singleton_add, add_cons]
  · exact Keeps.put (h.not_mem hp)

end ownership

/-! The three-level table. -/

abbrev Table (n : ℕ) := Tree (Fin 512) Word n

def entry (p : ℕ) : Word := mkPte p 0

attribute [local instance] neZero_ptes in
def path (v level : ℕ) : Fin 512 := Fin.ofNat 512 (v / 2 ^ (9 * level))

theorem px_eq_path (level va : ℕ) : px level va = path (va / pgsize) level := by
  unfold px path
  rw [pow_add, ← Nat.div_div_eq_div_mul]
  rfl

theorem path_ne {v v' : ℕ} (hv : v < 2 ^ 27) (hv' : v' < 2 ^ 27) (hne : v' ≠ v) :
    ∃ l ≤ 2, path v' l ≠ path v l := by
  by_contra! h
  have h0 := congrArg Fin.val (h 0 (by omega))
  have h1 := congrArg Fin.val (h 1 (by omega))
  have h2 := congrArg Fin.val (h 2 (by omega))
  simp only [path, Fin.val_ofNat] at h0 h1 h2
  omega

theorem exists_path (ix : ℕ → Fin 512) : ∃ v < 2 ^ 27, ∀ l ≤ 2, ix l = path v l := by
  refine ⟨(ix 2).val * 2 ^ 18 + (ix 1).val * 2 ^ 9 + (ix 0).val, by omega, ?_⟩
  intro l hl
  apply Fin.ext
  obtain rfl | rfl | rfl : l = 0 ∨ l = 1 ∨ l = 2 := by omega
  all_goals
    simp only [path, Fin.val_ofNat]
    omega

theorem hasFlag_entry (p : ℕ) : hasFlag (entry p) pteV := by
  rw [← hasFlag_pteFlags (show IsFlags pteV from rfl), entry, pteFlags_mkPte (show IsFlags 0 from rfl)]
  decide

theorem ptePage_entry {p : ℕ} (h : p < maxPage) : ptePage (entry p) = p := ptePage_mkPte h rfl

theorem not_hasFlag_zero (bits : Word) : ¬ hasFlag 0 bits := by
  simp [hasFlag]

section walk
variable [Image] {m : Mach} {A : Multiset ℕ} {va : ℕ}

variable {n : ℕ}

omit [Image] in
theorem walkFrom_find {t : Table n} (hr : t.Rep m.cell entry)
    (hlt : ∀ p ∈ t.pages, p < maxPage) :
    wp (walkFrom va false n t.root) (fun r m' => m' = m ∧ r = t.slot (path (va / pgsize)))
      never m := by
  induction n with
  | zero => exact wp_pure ⟨rfl, rfl⟩
  | succ n ih =>
    refine wp_bind (wp_loadPte ?_)
    rw [px_eq_path, Tree.slot_succ]
    cases hc : t.child (path (va / pgsize) (n + 1)) with
    | none =>
      rw [hr.of_none hc]
      exact wp_pure ⟨rfl, rfl⟩
    | some c =>
      obtain ⟨he, hrc⟩ := hr.of_child hc
      have hsub : ∀ p ∈ c.pages, p < maxPage := by
        intro p hp
        refine hlt p ?_
        rw [Tree.pages_of_child hc]
        exact mem_add.mpr (.inl hp)
      rw [he, if_pos (hasFlag_entry _), ptePage_entry (hsub _ (Tree.root_mem_pages c))]
      exact ih hrc hsub

/-- What the descent that makes missing tables leaves: the same words in a larger tree. -/
structure Extends {n : ℕ} (m : Mach) (t : Table n) (A : Multiset ℕ) (v : ℕ) (m' : Mach)
    (t' : Table n) (r : Option ℕ) : Prop where
  root : t'.root = t.root
  rep : t'.Rep m'.cell entry
  own : Owns m' (t'.pages + A)
  keeps : Keeps A m m'
  lookup : ∀ ix, t'.lookup ix = t.lookup ix
  stays : ∀ ix p, t.slot ix = some p → t'.slot ix = some p
  slot : ∀ p, r = some p → t'.slot (path v) = some p

lemma Extends.below {t : Table (n + 1)} {c c' : Table n} {m' : Mach} {v : ℕ}
    {r : Option ℕ} (hr : t.Rep m.cell entry) (hc : t.child (path v (n + 1)) = some c)
    (h : Extends m c (t.rest (path v (n + 1)) + A) v m' c' r) :
    Extends m t A v m' (t.setChild (path v (n + 1)) c') r := by
  have hcell := h.keeps.left.cell
  have hroot := hcell _ Tree.root_mem_rest
  refine ⟨rfl, ?_, ?_, h.keeps.right, ?_, ?_, ?_⟩
  · refine hr.setChild (fun j _ => by rw [hroot]) ?_
      (fun j d hj hd q hq => hcell q (Tree.mem_rest hj hd hq)) h.rep
    rw [hroot, h.root]
    exact (hr.of_child hc).1
  · rw [Tree.pages_setChild, add_assoc]
    exact h.own
  · intro ix
    by_cases hix : ix (n + 1) = path v (n + 1)
    · rw [Tree.lookup_setChild_self hix, h.lookup, Tree.lookup_succ, hix, hc]
      rfl
    · exact Tree.lookup_setChild_of_ne hix
  · intro ix p hp
    by_cases hix : ix (n + 1) = path v (n + 1)
    · rw [Tree.slot_succ, hix, hc] at hp
      rw [Tree.slot_setChild_self hix]
      exact h.stays ix p hp
    · rwa [Tree.slot_setChild_of_ne hix]
  · intro p hp
    rw [Tree.slot_setChild_self rfl]
    exact h.slot p hp

/-- The memory after a fresh table in page `p` is cleared and linked at index `i` of the
directory in page `root`. -/
def Mach.link (m : Mach) (p root : ℕ) (i : Fin 512) : Mach :=
  (m.put p (.fill 0)).put root (((m.put p (.fill 0)).mem root).put64 i (entry p))

section link
variable {n p : ℕ} {t : Table (n + 1)} {i : Fin 512} {m₁ : Mach}

section
variable (ho : Owns m₁ ({p} + (t.pages + A))) (hk : Keeps (t.pages + A) m m₁)
include ho hk

lemma cell_link_root : (m₁.link p t.root i).cell t.root = update (m.cell t.root) i (entry p) := by
  have hroot : t.root ∈ t.pages := Tree.root_mem_pages t
  have hp : p ∉ t.pages + A := ho.not_mem (mem_singleton_self p)
  have hsame : ((m₁.put p (.fill 0)).mem t.root).get64 = m.cell t.root :=
    (hk.trans (Keeps.put hp)).left.cell _ hroot
  rw [Mach.link, cell_put_self, Page.get64_put64_eq_update, hsame]

lemma keeps_link : Keeps A m (m₁.link p t.root i) := by
  have hroot : t.root ∈ t.pages := Tree.root_mem_pages t
  have hp : p ∉ t.pages + A := ho.not_mem (mem_singleton_self p)
  have hA : t.root ∉ A := by
    intro hA
    have hd := (nodup_add.mp ho.nodup).2.1
    exact disjoint_left.mp (nodup_add.mp hd).2.2 hroot hA
  exact ((hk.trans (Keeps.put hp)).right).trans (Keeps.put hA)

end

lemma rep_link (hr : t.Rep m.cell entry) (hnone : t.child i = none)
    (ho : Owns m₁ ({p} + (t.pages + A))) (hk : Keeps (t.pages + A) m m₁) :
    (t.setChild i (Tree.empty p n)).Rep (m₁.link p t.root i).cell entry := by
  have hroot : t.root ∈ t.pages := Tree.root_mem_pages t
  have hp : p ∉ t.pages + A := ho.not_mem (mem_singleton_self p)
  have hpr : p ≠ t.root := fun e => hp (mem_add.mpr (.inl (e ▸ hroot)))
  have hrt := cell_link_root (i := i) ho hk
  refine hr.setChild (fun j hj => by rw [hrt, update_of_ne hj]) ?_ ?_ ?_
  · rw [hrt, update_self, Tree.root_empty]
  · intro j d hj hd q hq
    have hqr : q ≠ t.root := by
      rintro rfl
      have hnd := (nodup_add.mp (nodup_add.mp ho.nodup).2.1).1
      rw [Tree.pages_of_child hd] at hnd
      exact disjoint_left.mp (nodup_add.mp hnd).2.2 hq Tree.root_mem_rest
    have hqt : q ∈ t.pages := by
      rw [Tree.pages_of_none hnone]
      exact Tree.mem_rest hj hd hq
    rw [Mach.link, cell_put_of_ne hqr, (hk.trans (Keeps.put hp)).left.cell q hqt]
  · apply Tree.rep_empty
    intro j
    rw [Mach.link, cell_put_of_ne hpr, cell_put_self, Page.get64_fill_zero]

lemma owns_link (hnone : t.child i = none) (ho : Owns m₁ ({p} + (t.pages + A))) :
    Owns (m₁.link p t.root i) ((t.setChild i (Tree.empty p n)).pages + A) := by
  rw [Tree.pages_setChild, Tree.pages_empty, ← Tree.pages_of_none hnone, add_assoc]
  exact ho

omit [Image] in
lemma lookup_link (hnone : t.child i = none) (ix : ℕ → Fin 512) :
    (t.setChild i (Tree.empty p n)).lookup ix = t.lookup ix := by
  by_cases hix : ix (n + 1) = i
  · rw [Tree.lookup_setChild_self hix, Tree.lookup_empty, Tree.lookup_succ, hix, hnone]
    rfl
  · exact Tree.lookup_setChild_of_ne hix

end link

theorem walkFrom_alloc {t : Table n} (hr : t.Rep m.cell entry)
    (hown : Owns m (t.pages + A)) :
    wp (walkFrom va true n t.root)
      (fun r m' => ∃ t', Extends m t A (va / pgsize) m' t' r) never m := by
  induction n generalizing m A with
  | zero =>
    refine wp_pure ⟨t, rfl, hr, hown, Keeps.refl A m, fun _ => rfl, fun _ _ h => h, ?_⟩
    intro p hp
    exact hp
  | succ n ih =>
    -- one level down, through a child that is there
    have hdown : ∀ {m₁ : Mach} {s : Table (n + 1)} {c : Table n}, s.Rep m₁.cell entry →
        Owns m₁ (s.pages + A) → s.child (path (va / pgsize) (n + 1)) = some c →
        wp (walkFrom va true n c.root)
          (fun r m' => ∃ t', Extends m₁ s A (va / pgsize) m' t' r) never m₁ := by
      intro m₁ s c hs ho hc
      rw [Tree.pages_of_child hc, add_assoc] at ho
      refine wp_post (ih (hs.of_child hc).2 ho) ?_
      rintro r m' ⟨c', h⟩
      exact ⟨_, h.below hs hc⟩
    refine wp_bind (wp_loadPte ?_)
    rw [px_eq_path]
    cases hc : t.child (path (va / pgsize) (n + 1)) with
    | some c =>
      have hlt : c.root < maxPage := by
        refine hown.lt_maxPage (mem_add.mpr (.inl ?_))
        rw [Tree.pages_of_child hc]
        exact mem_add.mpr (.inl (Tree.root_mem_pages c))
      rw [(hr.of_child hc).1, if_pos (hasFlag_entry _), ptePage_entry hlt]
      exact hdown hr hown hc
    | none =>
      rw [hr.of_none hc]
      refine wp_seq (kalloc_spec hown) ?_
      rintro (_ | p) m₁ ⟨ho, hk⟩
      · refine wp_pure ⟨t, rfl, hr.frame hk.left.cell, by simpa using ho, hk.right,
          fun _ => rfl, fun _ _ h => h, ?_⟩
        intro p hp
        cases hp
      · have hnext := hdown (rep_link hr hc ho hk) (owns_link hc ho) Tree.child_setChild_self
        rw [Tree.root_empty] at hnext
        refine wp_bind (wp_setPage (wp_bind (wp_storePte (wp_post hnext ?_))))
        rintro r m' ⟨t', h⟩
        refine ⟨t', h.root, h.rep, h.own, (keeps_link ho hk).trans h.keeps, ?_, ?_, h.slot⟩
        · intro ix
          rw [h.lookup, lookup_link hc]
        · intro ix q hq
          refine h.stays ix q ?_
          rw [Tree.slot_setChild_of_ne, hq]
          intro hix
          rw [Tree.slot_succ, hix, hc] at hq
          cases hq

end walk

end Xv6.Vm
