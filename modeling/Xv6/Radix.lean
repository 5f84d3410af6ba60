import Mathlib

/-! Radix trees kept in numbered pages. A tree of height `n` has `n` levels of directories
above its leaves; a directory holds at each index a table of the level below or nothing, and
a leaf holds words. `Rep` says that a memory of cells stores a tree. -/
namespace Xv6.Radix

open Function Multiset

structure Leaf (I W : Type) where
  page : ℕ
  word : I → W

structure Dir (I C : Type) where
  page : ℕ
  child : I → Option C

def Tree (I W : Type) : ℕ → Type
  | 0 => Leaf I W
  | n + 1 => Dir I (Tree I W n)

namespace Tree

variable {I W : Type} {n : ℕ}

def root : {n : ℕ} → Tree I W n → ℕ
  | 0, t => Leaf.page t
  | _ + 1, t => Dir.page t

def word (t : Tree I W 0) : I → W := Leaf.word t

def child (t : Tree I W (n + 1)) : I → Option (Tree I W n) := Dir.child t

def empty [Zero W] (page : ℕ) : (n : ℕ) → Tree I W n
  | 0 => (⟨page, fun _ => 0⟩ : Leaf I W)
  | n + 1 => (⟨page, fun _ => none⟩ : Dir I (Tree I W n))

/-- The page of the leaf on the path `ix`, which gives the index taken at every level. -/
def slot (ix : ℕ → I) : {n : ℕ} → Tree I W n → Option ℕ
  | 0, t => some t.root
  | n + 1, t => (child t (ix (n + 1))).bind (slot ix)

def lookup [Zero W] (ix : ℕ → I) : {n : ℕ} → Tree I W n → W
  | 0, t => t.word (ix 0)
  | n + 1, t => (child t (ix (n + 1))).elim 0 (lookup ix)

def pages [Fintype I] : {n : ℕ} → Tree I W n → Multiset ℕ
  | 0, t => {t.root}
  | _ + 1, t => {Dir.page t} + ∑ i, (child t i).elim 0 pages

variable [DecidableEq I]

def setWord (t : Tree I W 0) (i : I) (w : W) : Tree I W 0 :=
  (⟨t.root, update t.word i w⟩ : Leaf I W)

def setChild (t : Tree I W (n + 1)) (i : I) (c : Tree I W n) : Tree I W (n + 1) :=
  (⟨t.root, update t.child i (some c)⟩ : Dir I (Tree I W n))

def store (ix : ℕ → I) (w : W) : {n : ℕ} → Tree I W n → Tree I W n
  | 0, t => t.setWord (ix 0) w
  | n + 1, t =>
      match child t (ix (n + 1)) with
      | none => t
      | some c => t.setChild (ix (n + 1)) (store ix w c)

def undone [Fintype I] (t : Tree I W (n + 1)) (d : List I) : Multiset ℕ :=
  ∑ i with i ∉ d, (t.child i).elim 0 pages

def rest [Fintype I] (t : Tree I W (n + 1)) (i : I) : Multiset ℕ :=
  {t.root} + ∑ j ∈ Finset.univ.erase i, (t.child j).elim 0 pages

section basic
variable {t : Tree I W (n + 1)} {i j : I} {c : Tree I W n}

omit [DecidableEq I] in
@[simp] theorem root_empty [Zero W] (page : ℕ) : (empty page n : Tree I W n).root = page := by
  cases n <;> rfl

@[simp] lemma root_setChild : (t.setChild i c).root = t.root := rfl

@[simp] theorem child_setChild_self : (t.setChild i c).child i = some c :=
  update_self ..

lemma child_setChild_of_ne (h : j ≠ i) : (t.setChild i c).child j = t.child j :=
  update_of_ne h ..

omit [DecidableEq I] in
theorem lookup_succ [Zero W] (ix : ℕ → I) :
    t.lookup ix = (t.child (ix (n + 1))).elim 0 (lookup ix) := rfl

omit [DecidableEq I] in
theorem slot_succ (ix : ℕ → I) : t.slot ix = (t.child (ix (n + 1))).bind (slot ix) := rfl

lemma store_succ {ix : ℕ → I} {w : W} (h : t.child (ix (n + 1)) = some c) :
    t.store ix w = t.setChild (ix (n + 1)) (c.store ix w) := by
  simp [store, h]

@[simp] theorem root_store (ix : ℕ → I) (w : W) (s : Tree I W n) : (s.store ix w).root = s.root := by
  cases n with
  | zero => rfl
  | succ n =>
    cases hc : s.child (ix (n + 1)) with
    | none => simp [store, hc]
    | some c => rw [store_succ hc, root_setChild]

end basic

section pages
variable [Fintype I] {t : Tree I W (n + 1)} {i j : I} {c : Tree I W n}

lemma pages_eq_add_rest (t : Tree I W (n + 1)) (i : I) :
    t.pages = (t.child i).elim 0 pages + t.rest i := by
  have hsum := Finset.add_sum_erase Finset.univ (fun j => (t.child j).elim 0 pages)
    (Finset.mem_univ i)
  rw [rest, add_left_comm, hsum]
  rfl

theorem pages_of_child (h : t.child i = some c) : t.pages = c.pages + t.rest i := by
  rw [pages_eq_add_rest t i, h]
  rfl

theorem pages_of_none (h : t.child i = none) : t.pages = t.rest i := by
  rw [pages_eq_add_rest t i, h]
  exact zero_add _

lemma rest_setChild : (t.setChild i c).rest i = t.rest i := by
  unfold rest
  congr 1
  refine Finset.sum_congr rfl fun j hj => ?_
  rw [child_setChild_of_ne (Finset.ne_of_mem_erase hj)]

theorem pages_setChild : (t.setChild i c).pages = c.pages + t.rest i := by
  rw [pages_of_child child_setChild_self, rest_setChild]

theorem root_mem_rest : t.root ∈ t.rest i := by
  simp [rest]

theorem mem_rest {p : ℕ} (hj : j ≠ i) (hc : t.child j = some c) (hp : p ∈ c.pages) :
    p ∈ t.rest i := by
  refine mem_add.mpr (.inr (mem_sum.mpr ⟨j, by simp [hj], ?_⟩))
  rw [hc]
  exact hp

omit [DecidableEq I] in
theorem pages_zero (s : Tree I W 0) : s.pages = {s.root} := rfl

omit [DecidableEq I] in
lemma pages_succ (t : Tree I W (n + 1)) :
    t.pages = {t.root} + ∑ i, (t.child i).elim 0 pages := rfl

omit [DecidableEq I] in
theorem root_mem_pages (s : Tree I W n) : s.root ∈ s.pages := by
  cases n with
  | zero => exact mem_singleton_self _
  | succ n => exact mem_add.mpr (.inl (mem_singleton_self _))

omit [DecidableEq I] in
theorem pages_empty [Zero W] (page : ℕ) (n : ℕ) : (empty page n : Tree I W n).pages = {page} := by
  cases n with
  | zero => rfl
  | succ n =>
    change {page} + ∑ _i : I, (0 : Multiset ℕ) = {page}
    simp

omit [DecidableEq I] in
theorem slot_mem_pages {ix : ℕ → I} {s : Tree I W n} {p : ℕ} (h : s.slot ix = some p) :
    p ∈ s.pages := by
  classical
  induction n with
  | zero =>
    cases h
    exact root_mem_pages s
  | succ n ih =>
    obtain ⟨c, hc, hp⟩ := Option.bind_eq_some_iff.mp h
    rw [pages_of_child hc]
    exact mem_add.mpr (.inl (ih hp))

theorem undone_nil (t : Tree I W (n + 1)) : {t.root} + t.undone [] = t.pages := by
  simp [pages_succ, undone]

theorem undone_append {d : List I} (hi : i ∉ d) :
    t.undone d = (t.child i).elim 0 pages + t.undone (d ++ [i]) := by
  unfold undone
  rw [← Finset.add_sum_erase _ _ (Finset.mem_filter.mpr ⟨Finset.mem_univ i, hi⟩)]
  congr 2
  ext j
  simp only [Finset.mem_erase, Finset.mem_filter, Finset.mem_univ, true_and, List.mem_append,
    List.mem_singleton]
  tauto

theorem undone_of_forall {d : List I} (h : ∀ i, i ∈ d) : t.undone d = 0 := by
  simp [undone, h]

theorem pages_store (ix : ℕ → I) (w : W) (s : Tree I W n) : (s.store ix w).pages = s.pages := by
  induction n with
  | zero => rfl
  | succ n ih =>
    cases hc : s.child (ix (n + 1)) with
    | none => simp [store, hc]
    | some c => rw [store_succ hc, pages_setChild, ih, ← pages_of_child hc]

end pages

section lookup
variable [Zero W] {t : Tree I W (n + 1)} {i : I} {c : Tree I W n} {ix jx : ℕ → I}

variable {s : Tree I W n}

omit [DecidableEq I] in
theorem lookup_congr (h : ∀ l ≤ n, ix l = jx l) :
    s.lookup ix = s.lookup jx := by
  induction n with
  | zero => simp [lookup, h]
  | succ n ih =>
    rw [lookup_succ, lookup_succ, h (n + 1) le_rfl]
    cases s.child (jx (n + 1)) with
    | none => rfl
    | some c => exact ih fun l hl => h l (by omega)

omit [DecidableEq I] in
@[simp] theorem lookup_empty (page : ℕ) (n : ℕ) : (empty page n : Tree I W n).lookup ix = 0 := by
  cases n <;> rfl

theorem lookup_setChild_self (h : ix (n + 1) = i) : (t.setChild i c).lookup ix = c.lookup ix := by
  subst h
  simp [lookup_succ]

theorem lookup_setChild_of_ne (h : ix (n + 1) ≠ i) :
    (t.setChild i c).lookup ix = t.lookup ix := by
  rw [lookup_succ, child_setChild_of_ne h, lookup_succ]

omit [Zero W] in
theorem slot_setChild_self (h : ix (n + 1) = i) : (t.setChild i c).slot ix = c.slot ix := by
  subst h
  simp [slot_succ]

omit [Zero W] in
theorem slot_setChild_of_ne (h : ix (n + 1) ≠ i) : (t.setChild i c).slot ix = t.slot ix := by
  rw [slot_succ, child_setChild_of_ne h, slot_succ]

omit [Zero W] [DecidableEq I] in
/-- Where all tables are in different pages, the page of a leaf is on one path only. -/
theorem slot_inj [Fintype I] {p : ℕ} (hd : s.pages.Nodup)
    (h : s.slot ix = some p) (h' : s.slot jx = some p) : ∀ l, 0 < l → l ≤ n → ix l = jx l := by
  classical
  induction n with
  | zero =>
    intro l h1 h2
    omega
  | succ n ih =>
    obtain ⟨c, hc, hp⟩ := Option.bind_eq_some_iff.mp h
    obtain ⟨c', hc', hp'⟩ := Option.bind_eq_some_iff.mp h'
    rw [pages_of_child hc] at hd
    have htop : ix (n + 1) = jx (n + 1) := by
      by_contra hne
      exact disjoint_left.mp (nodup_add.mp hd).2.2 (slot_mem_pages hp)
        (mem_rest (Ne.symm hne) hc' (slot_mem_pages hp'))
    rw [← htop, hc] at hc'
    cases hc'
    intro l h1 h2
    rcases Nat.lt_or_ge l (n + 1) with hlt | hge
    · exact ih (nodup_add.mp hd).1 hp hp' l h1 (by omega)
    · rwa [show l = n + 1 by omega]

omit [DecidableEq I] in
theorem lookup_of_slot_none (h : s.slot ix = none) : s.lookup ix = 0 := by
  induction n with
  | zero => cases h
  | succ n ih =>
    rw [slot_succ] at h
    rw [lookup_succ]
    cases hc : s.child (ix (n + 1)) with
    | none => rfl
    | some c => exact ih (by simpa [hc] using h)

theorem lookup_store {w : W} {p : ℕ} (hs : s.slot ix = some p)
    (h : ∀ l ≤ n, jx l = ix l) : (s.store ix w).lookup jx = w := by
  rw [lookup_congr h]
  induction n with
  | zero => exact update_self ..
  | succ n ih =>
    obtain ⟨c, hc, hp⟩ := Option.bind_eq_some_iff.mp hs
    rw [store_succ hc, lookup_setChild_self rfl]
    exact ih hp fun l hl => h l (by omega)

theorem lookup_store_of_ne {w : W} (h : ∃ l ≤ n, jx l ≠ ix l) :
    (s.store ix w).lookup jx = s.lookup jx := by
  induction n with
  | zero =>
    obtain ⟨l, hl, hne⟩ := h
    obtain rfl : l = 0 := by omega
    exact update_of_ne hne ..
  | succ n ih =>
    cases hc : s.child (ix (n + 1)) with
    | none => simp [store, hc]
    | some c =>
      rw [store_succ hc]
      by_cases htop : jx (n + 1) = ix (n + 1)
      · rw [lookup_setChild_self htop, lookup_succ, htop, hc]
        obtain ⟨l, hl, hne⟩ := h
        have hl' : l ≠ n + 1 := fun h => hne (h ▸ htop)
        exact ih ⟨l, by omega, hne⟩
      · exact lookup_setChild_of_ne htop

omit [DecidableEq I] in
theorem lookup_child (hc : t.child i = some c) (ix : ℕ → I) :
    c.lookup ix = t.lookup (update ix (n + 1) i) := by
  rw [lookup_succ, update_self, hc]
  refine lookup_congr fun l hl => ?_
  rw [update_of_ne (by omega)]

end lookup

/-! Trees in memory: `cell p i` is the word at index `i` of page `p`, and `entry p` the word
that points to the table in page `p`. -/

section rep
variable [Zero W] {cell cell' : ℕ → I → W} {entry : ℕ → W}

def Rep (cell : ℕ → I → W) (entry : ℕ → W) : {n : ℕ} → Tree I W n → Prop
  | 0, t => ∀ i, cell t.root i = t.word i
  | _ + 1, t => ∀ i,
      match child t i with
      | none => cell (root t) i = 0
      | some c => cell (root t) i = entry c.root ∧ Rep cell entry c

variable {t : Tree I W (n + 1)} {i : I} {c : Tree I W n} {ix : ℕ → I}

omit [DecidableEq I] in
theorem Rep.of_none (h : t.Rep cell entry) (hc : t.child i = none) : cell t.root i = 0 := by
  have hi := h i
  rw [hc] at hi
  exact hi

omit [DecidableEq I] in
theorem Rep.of_child (h : t.Rep cell entry) (hc : t.child i = some c) :
    cell t.root i = entry c.root ∧ c.Rep cell entry := by
  have hi := h i
  rw [hc] at hi
  exact hi

variable {s : Tree I W n}

omit [DecidableEq I] in
theorem Rep.frame [Fintype I] (h : s.Rep cell entry)
    (hp : ∀ p ∈ s.pages, cell' p = cell p) : s.Rep cell' entry := by
  classical
  induction n with
  | zero =>
    intro i
    rw [hp _ (root_mem_pages s)]
    exact h i
  | succ n ih =>
    intro i
    have hroot := hp _ (root_mem_pages s)
    cases hc : s.child i with
    | none =>
      rw [hroot]
      exact h.of_none hc
    | some c =>
      obtain ⟨he, hr⟩ := h.of_child hc
      have hsub : ∀ p ∈ c.pages, cell' p = cell p := by
        intro p hpc
        refine hp p ?_
        rw [pages_of_child hc]
        exact mem_add.mpr (.inl hpc)
      rw [hroot]
      exact ⟨he, ih hr hsub⟩

/-- Replace what is below one index, in a memory that keeps the rest of the directory. -/
theorem Rep.setChild [Fintype I] (h : t.Rep cell entry)
    (hroot : ∀ j, j ≠ i → cell' t.root j = cell t.root j) (hi : cell' t.root i = entry c.root)
    (hrest : ∀ j d, j ≠ i → t.child j = some d → ∀ p ∈ d.pages, cell' p = cell p)
    (hc : c.Rep cell' entry) : (t.setChild i c).Rep cell' entry := by
  intro j
  rw [root_setChild]
  by_cases hj : j = i
  · subst hj
    rw [child_setChild_self]
    exact ⟨hi, hc⟩
  · rw [child_setChild_of_ne hj, hroot j hj]
    cases hd : t.child j with
    | none => exact h.of_none hd
    | some d =>
      obtain ⟨he, hr⟩ := h.of_child hd
      exact ⟨he, hr.frame (hrest j d hj hd)⟩

omit [DecidableEq I] in
theorem rep_empty {page : ℕ} (h : ∀ i, cell page i = 0) (n : ℕ) :
    (empty page n : Tree I W n).Rep cell entry := by
  cases n <;> exact h

omit [DecidableEq I] in
theorem Rep.read (h : s.Rep cell entry) {p : ℕ} (hs : s.slot ix = some p) :
    cell p (ix 0) = s.lookup ix := by
  induction n with
  | zero =>
    cases hs
    exact h _
  | succ n ih =>
    obtain ⟨c, hc, hp⟩ := Option.bind_eq_some_iff.mp hs
    rw [lookup_succ, hc]
    exact ih (h.of_child hc).2 hp

theorem Rep.write [Fintype I] (h : s.Rep cell entry) (hd : s.pages.Nodup)
    {p : ℕ} (hs : s.slot ix = some p) {w : W} (hcell : cell' p = update (cell p) (ix 0) w)
    (hother : ∀ q ∈ s.pages, q ≠ p → cell' q = cell q) : (s.store ix w).Rep cell' entry := by
  induction n with
  | zero =>
    cases hs
    intro j
    change cell' s.root j = update s.word (ix 0) w j
    rw [hcell]
    by_cases hj : j = ix 0
    · rw [hj, update_self, update_self]
    · rw [update_of_ne hj, update_of_ne hj]
      exact h j
  | succ n ih =>
    obtain ⟨c, hc, hp⟩ := Option.bind_eq_some_iff.mp hs
    have hpages := pages_of_child hc
    have hmem := slot_mem_pages hp
    rw [hpages] at hd
    obtain ⟨hdc, _, hdis⟩ := nodup_add.mp hd
    -- the leaf's page is below this child only, so the rest of the directory is kept
    have hkeep : ∀ q ∈ s.rest (ix (n + 1)), cell' q = cell q := by
      intro q hq
      refine hother q ?_ fun hqp => disjoint_left.mp hdis hmem (hqp ▸ hq)
      rw [hpages]
      exact mem_add.mpr (.inr hq)
    have hbelow : ∀ q ∈ c.pages, q ≠ p → cell' q = cell q := by
      intro q hq
      refine hother q ?_
      rw [hpages]
      exact mem_add.mpr (.inl hq)
    obtain ⟨he, hr⟩ := h.of_child hc
    have hroot := hkeep _ root_mem_rest
    rw [store_succ hc]
    refine h.setChild (fun j _ => by rw [hroot]) (by rw [hroot, root_store, he])
      (fun j d hj hd q hq => hkeep q (mem_rest hj hd hq)) ?_
    exact ih hr hdc hp hbelow

end rep

attribute [irreducible] pages rest undone

end Tree

end Xv6.Radix
