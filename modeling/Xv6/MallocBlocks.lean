import Xv6.Malloc

/-! The heap as a row of blocks: what `free` and the carving of `malloc` make of it. -/
namespace Xv6.Malloc

open Circular List

structure Block where
  addr : ℕ
  size : ℕ
  free : Bool
  deriving DecidableEq, Repr

def Block.stop (b : Block) : ℕ := b.addr + headerSize * b.size

def Tiles (lo : ℕ) : List Block → ℕ → Prop
  | [], hi => lo = hi
  | b :: bs, hi => b.addr = lo ∧ 0 < b.size ∧ Tiles b.stop bs hi

def freeAddrs (bs : List Block) : List ℕ := (bs.filter (·.free)).map Block.addr

def allocated (bs : List Block) : List Block := bs.filter (!·.free)

def Apart (a b : Block) : Prop := ¬ (a.free = true ∧ b.free = true)

/-- The heap from `lo` to `hi` is the row `bs`: the headers have the sizes, no two free neighbours,
and the free blocks in their order, with `base` before the first, are one circle, with `freep` on it. -/
structure Inv (base : ℕ) (h : Heap) (lo hi : ℕ) (bs : List Block) : Prop where
  tiles : Tiles lo bs hi
  size : ∀ b ∈ bs, h.size b.addr = b.size
  apart : bs.IsChain Apart
  trail : Trail h.next (base :: (freeAddrs bs ++ [base]))
  base_size : h.size base = 0
  freep_mem : h.freep ∈ base :: freeAddrs bs

section rows
variable {lo hi m x : ℕ} {b c : Block} {bs l r : List Block}

theorem tiles_append : Tiles lo (l ++ r) hi ↔ ∃ m, Tiles lo l m ∧ Tiles m r hi := by
  induction l generalizing lo with
  | nil => exact ⟨fun h => ⟨lo, rfl, h⟩, fun ⟨_, h, h'⟩ => by cases h; exact h'⟩
  | cons b l ih =>
    rw [cons_append, Tiles, ih]
    exact ⟨fun ⟨ha, hs, m, h, h'⟩ => ⟨m, ⟨ha, hs, h⟩, h'⟩, fun ⟨m, ⟨ha, hs, h⟩, h'⟩ => ⟨ha, hs, m, h, h'⟩⟩

theorem Tiles.bounds (h : Tiles lo bs hi) :
    lo ≤ hi ∧ ∀ b ∈ bs, lo ≤ b.addr ∧ b.addr < b.stop ∧ b.stop ≤ hi := by
  induction bs generalizing lo with
  | nil => exact ⟨le_of_eq h, by simp⟩
  | cons b bs ih =>
    obtain ⟨rfl, hpos, hrest⟩ := h
    obtain ⟨hle, hall⟩ := ih hrest
    have hlt : b.addr < b.stop := by
      unfold Block.stop headerSize
      omega
    refine ⟨by omega, fun c hc => ?_⟩
    rcases mem_cons.mp hc with rfl | hc
    · exact ⟨le_rfl, hlt, hle⟩
    · obtain ⟨h1, h2, h3⟩ := hall c hc
      exact ⟨by omega, h2, h3⟩

theorem freeAddrs_append : freeAddrs (l ++ r) = freeAddrs l ++ freeAddrs r := by
  rw [freeAddrs, filter_append, map_append]
  rfl

theorem freeAddrs_cons_of_free (hb : b.free = true) : freeAddrs (b :: bs) = b.addr :: freeAddrs bs := by
  rw [freeAddrs, filter_cons_of_pos hb]
  rfl

theorem freeAddrs_cons_of_not (hb : b.free = false) : freeAddrs (b :: bs) = freeAddrs bs := by
  rw [freeAddrs, filter_cons_of_neg (by simp [hb])]
  rfl

theorem mem_freeAddrs : x ∈ freeAddrs bs ↔ ∃ b ∈ bs, b.free = true ∧ b.addr = x := by
  simp [freeAddrs, and_assoc]

theorem allocated_append : allocated (l ++ r) = allocated l ++ allocated r := filter_append ..

lemma allocated_cons_of_free (hb : b.free = true) : allocated (b :: bs) = allocated bs :=
  filter_cons_of_neg (by simp [hb])

theorem allocated_cons_of_not (hb : b.free = false) : allocated (b :: bs) = b :: allocated bs :=
  filter_cons_of_pos (by simp [hb])

theorem Tiles.freeAddrs_bounds (h : Tiles lo bs hi) (hx : x ∈ freeAddrs bs) : lo ≤ x ∧ x < hi := by
  obtain ⟨b, hb, -, rfl⟩ := mem_freeAddrs.mp hx
  obtain ⟨h1, h2, h3⟩ := h.bounds.2 b hb
  exact ⟨h1, by omega⟩

theorem Tiles.sorted (h : Tiles lo bs hi) : (freeAddrs bs).Pairwise (· < ·) := by
  induction bs generalizing lo with
  | nil => exact List.Pairwise.nil
  | cons b bs ih =>
    obtain ⟨rfl, hpos, hrest⟩ := h
    by_cases hb : b.free = true
    · rw [freeAddrs_cons_of_free hb]
      refine pairwise_cons.mpr ⟨fun x hx => ?_, ih hrest⟩
      have hlt := (hrest.freeAddrs_bounds hx).1
      unfold Block.stop headerSize at hlt
      omega
    · rw [freeAddrs_cons_of_not (by simpa using hb)]
      exact ih hrest

lemma Tiles.split (h : Tiles lo (l ++ b :: r) hi) :
    Tiles lo l b.addr ∧ Tiles b.stop r hi ∧ lo ≤ b.addr ∧ b.addr < b.stop ∧ b.stop ≤ hi := by
  have hb := h.bounds.2 b (by simp)
  obtain ⟨m, hl, rfl, hpos, hr⟩ := tiles_append.mp h
  exact ⟨hl, hr, hb⟩

lemma Tiles.replace (h : Tiles lo (l ++ b :: r) hi) (haddr : c.addr = b.addr) (hstop : c.stop = b.stop)
    (hpos : 0 < c.size) : Tiles lo (l ++ c :: r) hi := by
  obtain ⟨hl, hr, -⟩ := h.split
  exact tiles_append.mpr ⟨b.addr, hl, haddr, hpos, hstop ▸ hr⟩

end rows

section heap
variable {base lo hi p bp n : ℕ} {h : Heap} {b c : Block} {bs l r : List Block} {xs : List ℕ}

@[simp] theorem Heap.next_setHdr (h : Heap) (p q : ℕ) (x : Header) :
    (h.setHdr p x).next q = if q = p then x.ptr else h.next q := by
  unfold Heap.next Heap.setHdr
  dsimp only
  rw [Function.update_apply]
  split_ifs <;> rfl

@[simp] theorem Heap.size_setHdr (h : Heap) (p q : ℕ) (x : Header) :
    (h.setHdr p x).size q = if q = p then x.size else h.size q := by
  unfold Heap.size Heap.setHdr
  dsimp only
  rw [Function.update_apply]
  split_ifs <;> rfl

/-- Between the two steps of `free`: `b` is free and linked to what follows, but not yet to what comes
before. -/
structure Half (base : ℕ) (h : Heap) (lo hi : ℕ) (l : List Block) (b : Block) (r : List Block) :
    Prop where
  tiles : Tiles lo (l ++ b :: r) hi
  size : ∀ c ∈ l ++ b :: r, h.size c.addr = c.size
  free : b.free = true
  apart_left : l.IsChain Apart
  apart_right : (b :: r).IsChain Apart
  left : Trail h.next (base :: freeAddrs l)
  right : Trail h.next (b.addr :: (freeAddrs r ++ [base]))
  base_size : h.size base = 0

lemma Inv.trail_split (hinv : Inv base h lo hi (l ++ r)) (hp : xs ++ [p] = base :: freeAddrs l) :
    Trail h.next (base :: freeAddrs l) ∧ Trail h.next (p :: (freeAddrs r ++ [base])) := by
  have htrail := hinv.trail
  rw [freeAddrs_append, append_assoc, ← cons_append, ← hp, append_assoc,
    singleton_append, Circular.trail_split] at htrail
  rw [← hp]
  exact htrail

theorem exists_last (base : ℕ) (l : List Block) : ∃ xs p, xs ++ [p] = base :: freeAddrs l :=
  ⟨_, _, dropLast_append_getLast (cons_ne_nil base (freeAddrs l))⟩

lemma lt_of_mem_left {m x : ℕ} (hlo : base < lo) (hl : Tiles lo l m) (hx : x ∈ base :: freeAddrs l) :
    x < m := by
  rcases mem_cons.mp hx with rfl | hx
  · exact hlo.trans_le hl.bounds.1
  · exact (hl.freeAddrs_bounds hx).2

lemma mem_of_last (hp : xs ++ [p] = base :: freeAddrs l) : p ∈ base :: freeAddrs l := by
  rw [← hp]
  exact mem_append_right _ mem_cons_self

variable (hlo : base < lo)
include hlo

lemma joinUpper_eq (hinv : Inv base h lo hi (l ++ b :: r)) (hb : b.free = false)
    (hp : xs ++ [p] = base :: freeAddrs l) :
    (∃ c r', r = c :: r' ∧ c.free = true ∧ joinUpper h b.addr p =
      h.setHdr b.addr ⟨h.next c.addr, (b.size + c.size) % 2 ^ 32⟩) ∨
    (∀ c ∈ r.head?, c.free = false) ∧ joinUpper h b.addr p = h.setHdr b.addr ⟨h.next p, b.size⟩ := by
  obtain ⟨hl, hr, hle, hlt, -⟩ := hinv.tiles.split
  obtain ⟨-, hright⟩ := hinv.trail_split hp
  rw [freeAddrs_cons_of_not hb] at hright
  have hsize : h.size b.addr = b.size := hinv.size b (by simp)
  unfold joinUpper
  rw [hsize]
  by_cases hc : ∃ c r', r = c :: r' ∧ c.free = true
  · obtain ⟨c, r', rfl, hfree⟩ := hc
    rw [freeAddrs_cons_of_free hfree, cons_append, trail_cons_cons] at hright
    have hcsize : h.size c.addr = c.size := hinv.size c (by simp)
    refine .inl ⟨c, r', rfl, hfree, ?_⟩
    rw [hright.1, hcsize]
    exact if_pos hr.1.symm
  · have hhead : ∀ c ∈ r.head?, c.free = false := by
      intro c hmem
      cases r with
      | nil => cases hmem
      | cons d r =>
        cases hmem
        by_contra hne
        exact hc ⟨c, r, rfl, by simpa using hne⟩
    refine .inr ⟨hhead, if_neg ?_⟩
    -- the next free block lies behind an allocated one, or there is none and `base` lies below
    change b.stop ≠ h.next p
    have hnext := hright.next_mem (mem_cons_self)
    rcases mem_append.mp hnext with hmem | hmem
    · cases r with
      | nil => cases hmem
      | cons d r =>
        rw [freeAddrs_cons_of_not (hhead d rfl)] at hmem
        have hfar := (hr.2.2.freeAddrs_bounds hmem).1
        have hd := hr.bounds.2 d mem_cons_self
        omega
    · rw [mem_singleton.mp hmem]
      omega

lemma Half.of_setHdr {q : ℕ} (tiles : Tiles lo (l ++ c :: r) hi)
    (hsize : ∀ d ∈ l ++ r, h.size d.addr = d.size) (hc : c.free = true) (hl : l.IsChain Apart)
    (hr : (c :: r).IsChain Apart) (hleft : Trail h.next (base :: freeAddrs l))
    (hright : Trail h.next (q :: (freeAddrs r ++ [base]))) (hbase : h.size base = 0) :
    Half base (h.setHdr c.addr ⟨h.next q, c.size⟩) lo hi l c r := by
  obtain ⟨htl, htr, hle, hlt, -⟩ := tiles.split
  have hother : ∀ d ∈ l ++ r, d.addr ≠ c.addr := by
    intro d hd
    rcases mem_append.mp hd with hd | hd
    · have hbd := htl.bounds.2 d hd
      omega
    · have hbd := htr.bounds.2 d hd
      omega
  refine ⟨tiles, ?_, hc, hl, hr, hleft.congr ?_, hright.replace_head ?_ ?_, ?_⟩
  · intro d hd
    rw [Heap.size_setHdr]
    by_cases hdc : d = c
    · rw [hdc, if_pos rfl]
    · have hd' : d ∈ l ++ r := by
        simp only [mem_append, mem_cons] at hd ⊢
        tauto
      rw [if_neg (hother d hd'), hsize d hd']
  · intro x hx
    have hlt' := lt_of_mem_left hlo htl (mem_of_mem_dropLast hx)
    rw [Heap.next_setHdr, if_neg hlt'.ne]
  · rw [Heap.next_setHdr, if_pos rfl]
  · intro x hx
    have hge := (htr.freeAddrs_bounds hx).1
    rw [Heap.next_setHdr, if_neg (by omega)]
  · rw [Heap.size_setHdr, if_neg (by omega), hbase]

lemma joinUpper_half (hinv : Inv base h lo hi (l ++ b :: r)) (hb : b.free = false)
    (hp : xs ++ [p] = base :: freeAddrs l) (hhi : hi < lo + 2 ^ 36) :
    ∃ c r', Half base (joinUpper h b.addr p) lo hi l c r' ∧ c.addr = b.addr ∧ b.size ≤ c.size ∧
      allocated r' = allocated r ∧ r'.length ≤ r.length := by
  obtain ⟨hl, hr, hle, hlt, hstop⟩ := hinv.tiles.split
  obtain ⟨hleft, hright⟩ := hinv.trail_split hp
  rw [freeAddrs_cons_of_not hb] at hright
  obtain ⟨hapl, hapr, -⟩ := isChain_append.mp hinv.apart
  have hapr' := hapr.tail
  rcases joinUpper_eq hlo hinv hb hp with ⟨c, r', rfl, hfree, heq⟩ | ⟨hhead, heq⟩
  · obtain ⟨hcaddr, hcpos, hr'⟩ := hr
    rw [freeAddrs_cons_of_free hfree, cons_append, trail_cons_cons] at hright
    have hend := hr'.bounds.1
    unfold Block.stop headerSize at hcaddr hend
    have hwrap : (b.size + c.size) % 2 ^ 32 = b.size + c.size := Nat.mod_eq_of_lt (by omega)
    have hst : Block.stop ⟨b.addr, b.size + c.size, true⟩ = c.stop := by
      unfold Block.stop headerSize
      simp only
      omega
    have htiles : Tiles lo (l ++ ⟨b.addr, b.size + c.size, true⟩ :: r') hi :=
      tiles_append.mpr ⟨b.addr, hl, rfl, by simp only; omega, hst ▸ hr'⟩
    refine ⟨⟨b.addr, b.size + c.size, true⟩, r', ?_, rfl, Nat.le_add_right _ _,
      (allocated_cons_of_free hfree).symm, by simp⟩
    rw [heq, hwrap]
    refine Half.of_setHdr hlo htiles ?_ rfl hapl ?_ hleft hright.2 hinv.base_size
    · intro d hd
      refine hinv.size d ?_
      simp only [mem_append, mem_cons] at hd ⊢
      tauto
    · refine isChain_cons.mpr ⟨fun d hd hboth => ?_, hapr'.tail⟩
      exact (isChain_cons.mp hapr').1 d hd ⟨hfree, hboth.2⟩
  · have htiles : Tiles lo (l ++ { b with free := true } :: r) hi :=
      hinv.tiles.replace rfl rfl (tiles_append.mp hinv.tiles).choose_spec.2.2.1
    refine ⟨{ b with free := true }, r, ?_, rfl, le_rfl, rfl, le_rfl⟩
    rw [heq]
    refine Half.of_setHdr hlo htiles ?_ rfl hapl ?_ hleft hright hinv.base_size
    · intro d hd
      refine hinv.size d ?_
      simp only [mem_append, mem_cons] at hd ⊢
      tauto
    · refine isChain_cons.mpr ⟨fun d hd hboth => ?_, hapr'⟩
      exact absurd hboth.2 (by simp [hhead d hd])

lemma joinLower_eq (hhalf : Half base h lo hi l b r) (hp : xs ++ [p] = base :: freeAddrs l) :
    (∃ l' c, l = l' ++ [c] ∧ c.free = true ∧ p = c.addr ∧ joinLower h b.addr p =
      h.setHdr p ⟨h.next b.addr, (c.size + b.size) % 2 ^ 32⟩) ∨
    (∀ c ∈ l.getLast?, c.free = false) ∧ joinLower h b.addr p = h.setHdr p ⟨b.addr, h.size p⟩ := by
  obtain ⟨hl, -, hle, -, -⟩ := hhalf.tiles.split
  have hbsize : h.size b.addr = b.size := hhalf.size b (by simp)
  unfold joinLower
  rw [hbsize]
  by_cases hc : ∃ l' c, l = l' ++ [c] ∧ c.free = true
  · obtain ⟨l', c, rfl, hfree⟩ := hc
    rw [freeAddrs_append, freeAddrs_cons_of_free hfree, ← cons_append] at hp
    obtain ⟨-, hpc⟩ := append_inj' hp rfl
    obtain rfl : p = c.addr := (cons.inj hpc).1
    have hcsize : h.size c.addr = c.size := hhalf.size c (by simp)
    refine .inl ⟨l', c, rfl, hfree, rfl, ?_⟩
    rw [hcsize]
    obtain ⟨m, -, hcaddr, -, hend⟩ := tiles_append.mp hl
    exact if_pos hend
  · have hlast : ∀ c ∈ l.getLast?, c.free = false := by
      intro c hmem
      obtain ⟨l', rfl⟩ := getLast?_eq_some_iff.mp hmem
      by_contra hne
      exact hc ⟨l', c, rfl, by simpa using hne⟩
    refine .inr ⟨hlast, if_neg ?_⟩
    -- the free block below lies under an allocated one, or it is `base`, which is empty
    rcases mem_cons.mp (mem_of_last hp) with rfl | hmem
    · rw [hhalf.base_size]
      omega
    · obtain ⟨c, hcmem, hfree, rfl⟩ := mem_freeAddrs.mp hmem
      rw [hhalf.size c (mem_append_left _ hcmem)]
      rcases eq_nil_or_concat l with rfl | ⟨l', d, rfl⟩
      · cases hcmem
      · rw [concat_eq_append] at hcmem hlast hl
        have hd : d.free = false := hlast d (by simp)
        have hcl : c ∈ l' := by
          rcases mem_append.mp hcmem with hcl | hcd
          · exact hcl
          · rw [mem_singleton.mp hcd, hd] at hfree
            cases hfree
        obtain ⟨hl', hrest, -, hdlt, hdstop⟩ := hl.split
        have hcb := (hl'.bounds.2 c hcl).2.2
        change c.stop ≠ b.addr
        omega

omit hlo in
lemma Half.inv (hhalf : Half base h lo hi l b r)
    (hlink : Trail h.next (base :: (freeAddrs l ++ [b.addr]))) (hlast : ∀ c ∈ l.getLast?, c.free = false)
    (hfreep : p ∈ base :: freeAddrs (l ++ b :: r)) :
    Inv base { h with freep := p } lo hi (l ++ b :: r) := by
  refine ⟨hhalf.tiles, hhalf.size, ?_, ?_, hhalf.base_size, hfreep⟩
  · refine isChain_append.mpr ⟨hhalf.apart_left, hhalf.apart_right, ?_⟩
    intro x hx y _ hboth
    exact absurd hboth.1 (by simp [hlast x hx])
  · rw [freeAddrs_append, freeAddrs_cons_of_free hhalf.free, append_assoc, cons_append,
      ← cons_append, Circular.trail_split]
    exact ⟨hlink, hhalf.right⟩

theorem nodup_circle {m : ℕ} (hl : Tiles lo l m) : (base :: freeAddrs l).Nodup := by
  refine nodup_cons.mpr ⟨fun hmem => ?_, hl.sorted.imp fun h => h.ne⟩
  have hge := (hl.freeAddrs_bounds hmem).1
  omega

omit hlo in
lemma Heap.size_relink (h : Heap) (p q a : ℕ) : (h.setHdr p ⟨q, h.size p⟩).size a = h.size a := by
  rw [Heap.size_setHdr]
  split_ifs with ha
  · rw [ha]
  · rfl

lemma relink_left {m : ℕ} (hl : Tiles lo l m) (hp : xs ++ [p] = base :: freeAddrs l)
    (hleft : Trail h.next (base :: freeAddrs l)) (q : ℕ) :
    Trail (h.setHdr p ⟨q, h.size p⟩).next (xs ++ [p]) := by
  have hnd := nodup_circle hlo hl
  rw [← hp] at hnd hleft
  refine hleft.congr fun x hx => ?_
  rw [dropLast_concat] at hx
  have hne : x ≠ p := (nodup_append.mp hnd).2.2 x hx p mem_cons_self
  rw [Heap.next_setHdr, if_neg hne]

lemma joinLower_inv (hhalf : Half base h lo hi l b r) (hp : xs ++ [p] = base :: freeAddrs l)
    (hhi : hi < lo + 2 ^ 36) :
    ∃ bs, Inv base { joinLower h b.addr p with freep := p } lo hi bs ∧
      (∃ c ∈ bs, c.free = true ∧ b.size ≤ c.size) ∧ allocated bs = allocated l ++ allocated r ∧
      bs.length ≤ l.length + r.length + 1 := by
  obtain ⟨hl, hr, hle, hlt, hstop⟩ := hhalf.tiles.split
  rcases joinLower_eq hlo hhalf hp with ⟨l', c, rfl, hfree, rfl, heq⟩ | ⟨hlast, heq⟩
  · obtain ⟨hl', hcend, -, -, -⟩ := hl.split
    have hcend : c.stop = b.addr := hcend
    have hcle := hl'.bounds.1
    have hst : Block.stop ⟨c.addr, c.size + b.size, true⟩ = b.stop := by
      unfold Block.stop headerSize at hcend ⊢
      simp only
      omega
    have hwrap : (c.size + b.size) % 2 ^ 32 = c.size + b.size := by
      unfold Block.stop headerSize at hcend hstop
      exact Nat.mod_eq_of_lt (by omega)
    have htiles : Tiles lo (l' ++ ⟨c.addr, c.size + b.size, true⟩ :: r) hi := by
      refine tiles_append.mpr ⟨c.addr, hl', rfl, ?_, hst ▸ hr⟩
      unfold Block.stop headerSize at hlt
      simp only
      omega
    obtain ⟨hapl, -, hapc⟩ := isChain_append.mp hhalf.apart_left
    have hhalf' : Half base (h.setHdr c.addr ⟨h.next b.addr, c.size + b.size⟩) lo hi l'
        ⟨c.addr, c.size + b.size, true⟩ r := by
      refine Half.of_setHdr hlo htiles ?_ rfl hapl ?_ ?_ hhalf.right hhalf.base_size
      · intro d hd
        refine hhalf.size d ?_
        simp only [mem_append, mem_cons] at hd ⊢
        tauto
      · refine isChain_cons.mpr ⟨fun d hd hboth => ?_, hhalf.apart_right.tail⟩
        exact (isChain_cons.mp hhalf.apart_right).1 d hd ⟨hhalf.free, hboth.2⟩
      · have hleft := hhalf.left
        rw [freeAddrs_append, ← cons_append] at hleft
        exact hleft.left_of_append
    refine ⟨l' ++ ⟨c.addr, c.size + b.size, true⟩ :: r, ?_,
      ⟨⟨c.addr, c.size + b.size, true⟩, by simp, rfl, Nat.le_add_left _ _⟩, ?_, by simp; omega⟩
    · rw [heq, hwrap]
      refine hhalf'.inv ?_ ?_ ?_
      · have hleft := hhalf.left
        rw [freeAddrs_append, freeAddrs_cons_of_free hfree] at hleft
        refine hleft.congr fun x hx => ?_
        rw [← cons_append] at hx
        have hx' := lt_of_mem_left hlo hl' (dropLast_concat ▸ hx)
        rw [Heap.next_setHdr, if_neg hx'.ne]
      · intro d hd
        by_contra hne
        exact hapc d hd c rfl ⟨by simpa using hne, hfree⟩
      · rw [freeAddrs_append, freeAddrs_cons_of_free rfl]
        simp
    · rw [allocated_append, allocated_append, allocated_cons_of_free rfl, allocated_cons_of_free hfree]
      simp [allocated]
  · have hpb : p < b.addr := lt_of_mem_left hlo hl (mem_of_last hp)
    have hleft := relink_left hlo hl hp hhalf.left b.addr
    have hhalf' : Half base (h.setHdr p ⟨b.addr, h.size p⟩) lo hi l b r := by
      refine ⟨hhalf.tiles, fun d hd => (Heap.size_relink ..).trans (hhalf.size d hd), hhalf.free,
        hhalf.apart_left, hhalf.apart_right, hp ▸ hleft, hhalf.right.replace_head ?_ ?_,
        (Heap.size_relink ..).trans hhalf.base_size⟩
      · rw [Heap.next_setHdr, if_neg hpb.ne']
      · intro x hx
        have hge := (hr.freeAddrs_bounds hx).1
        rw [Heap.next_setHdr, if_neg (by omega)]
    refine ⟨l ++ b :: r, ?_, ⟨b, by simp, hhalf.free, le_rfl⟩, ?_, by simp; omega⟩
    · rw [heq]
      refine hhalf'.inv ?_ hlast ?_
      · rw [← cons_append, ← hp, append_assoc, singleton_append, Circular.trail_split]
        refine ⟨hleft, trail_cons_cons.mpr ⟨?_, isChain_singleton _⟩⟩
        rw [Heap.next_setHdr, if_pos rfl]
      · rw [freeAddrs_append, ← cons_append]
        exact mem_append_left _ (mem_of_last hp)
    · rw [allocated_append, allocated_cons_of_free hhalf.free]

section
variable (hinv : Inv base h lo hi (l ++ b :: r)) (hb : b.free = false)
include hinv hb

/-- The loop of `free` stops at the last block of the circle below `b`, and nowhere else. -/
lemma between_iff (hp : xs ++ [p] = base :: freeAddrs l) {x : ℕ}
    (hx : x ∈ base :: freeAddrs (l ++ b :: r)) : between h b.addr x = true ↔ x = p := by
  obtain ⟨hl, hr, hle, hlt, -⟩ := hinv.tiles.split
  obtain ⟨hleft, hright⟩ := hinv.trail_split hp
  rw [freeAddrs_cons_of_not hb] at hright
  rw [freeAddrs_append, freeAddrs_cons_of_not hb, ← cons_append] at hx
  have hbelow : ∀ y ∈ base :: freeAddrs l, y < b.addr := fun y hy => lt_of_mem_left hlo hl hy
  have habove : ∀ y ∈ freeAddrs r, b.addr < y := fun y hy =>
    hlt.trans_le (hr.freeAddrs_bounds hy).1
  have hbase : ∀ y ∈ base :: freeAddrs l, base ≤ y := by
    intro y hy
    rcases mem_cons.mp hy with rfl | hy
    · exact le_rfl
    · exact hlo.le.trans (hl.freeAddrs_bounds hy).1
  unfold between
  rw [Bool.or_eq_true, decide_eq_true_iff, decide_eq_true_iff]
  constructor
  · intro hstop
    rcases mem_append.mp hx with hx | hx
    · -- below `b` the successor is below `b` too, up to `p`
      by_contra hne
      have hsorted : (base :: freeAddrs l).Pairwise (· < ·) :=
        pairwise_cons.mpr ⟨fun y hy => hlo.trans_le (hl.freeAddrs_bounds hy).1, hl.sorted⟩
      rw [← hp] at hleft hsorted hx
      have hxs : x ∈ xs := (mem_append.mp hx).resolve_right (by simpa using hne)
      obtain ⟨hsxs, -, hlast⟩ := pairwise_append.mp hsorted
      have hnext : x < h.next x ∧ h.next x ∈ xs ++ [p] := by
        rcases hleft.next_of_pairwise hsxs hxs with heq | ⟨hR, hmem⟩
        · rw [heq]
          exact ⟨hlast x hxs p mem_cons_self, by simp⟩
        · exact ⟨hR, mem_append_left _ hmem⟩
      have hlt' := hbelow _ (hp ▸ hnext.2)
      omega
    · have hxa := habove x hx
      have htail : Trail h.next (freeAddrs r ++ [base]) := hright.tail
      rcases htail.next_of_pairwise hr.sorted hx with heq | ⟨hR, -⟩
      · rw [heq] at hstop
        omega
      · omega
  · rintro rfl
    have hpm := mem_of_last hp
    have hpb := hbelow x hpm
    rcases mem_append.mp (hright.next_mem mem_cons_self) with hmem | hmem
    · exact .inl ⟨hpb, habove _ hmem⟩
    · rw [mem_singleton.mp hmem]
      exact .inr ⟨hbase x hpm, .inl hpb⟩

theorem free_spec (hhi : hi < lo + 2 ^ 36) {fuel : ℕ} (hfuel : (l ++ b :: r).length < fuel) :
    ∃ h' bs, free fuel (b.addr + headerSize) h = some h' ∧ Inv base h' lo hi bs ∧
      (∃ c ∈ bs, c.free = true ∧ b.size ≤ c.size) ∧ allocated bs = allocated l ++ allocated r ∧
      bs.length ≤ (l ++ b :: r).length := by
  obtain ⟨xs, p, hp⟩ := exists_last base l
  obtain ⟨zs, hperm, htrail⟩ := hinv.trail.rotate hinv.freep_mem
  have hpmem : p ∈ base :: freeAddrs (l ++ b :: r) := by
    rw [freeAddrs_append, ← cons_append]
    exact mem_append_left _ (mem_of_last hp)
  have hlen : zs.length ≤ (l ++ b :: r).length := by
    have hle : (freeAddrs (l ++ b :: r)).length ≤ (l ++ b :: r).length := by
      rw [freeAddrs, length_map]
      exact length_filter_le _ _
    have heq := hperm.length_eq
    rw [length_cons, length_cons] at heq
    omega
  have hopen : Trail h.next (h.freep :: zs) := List.IsChain.left_of_append htrail
  obtain ⟨x, hx, hstop, hwalk⟩ := hopen.walk
    ⟨p, hperm.subset hpmem, (between_iff hlo hinv hb hp hpmem).mpr rfl⟩ (hlen.trans_lt hfuel)
  obtain rfl := (between_iff hlo hinv hb hp (hperm.symm.subset hx)).mp hstop
  obtain ⟨c, r', hhalf, hc, hbc, halloc, hlen'⟩ := joinUpper_half hlo hinv hb hp hhi
  obtain ⟨bs, hinv', ⟨d, hd, hdfree, hcd⟩, halloc', hlen''⟩ := joinLower_inv hlo hhalf hp hhi
  rw [hc] at hinv'
  refine ⟨_, bs, ?_, hinv', ⟨d, hd, hdfree, hbc.trans hcd⟩, halloc'.trans (by rw [halloc]), ?_⟩
  · unfold free
    dsimp only
    rw [Nat.add_sub_cancel, hwalk, Option.map_some]
  · rw [length_append, length_cons]
    omega

end

omit hlo in
lemma allocated_perm {bs : List Block} (hb : b.free = true)
    (h : allocated bs = allocated l ++ c :: allocated r) : (allocated bs).Perm (c :: allocated (l ++ b :: r)) := by
  rw [h, allocated_append, allocated_cons_of_free hb]
  exact perm_middle

section
variable (hinv : Inv base h lo hi (l ++ b :: r)) (hb : b.free = true)
include hinv hb

lemma carve_whole (hp : xs ++ [p] = base :: freeAddrs l) :
    Inv base { h.setHdr p ⟨h.next b.addr, h.size p⟩ with freep := p } lo hi
      (l ++ { b with free := false } :: r) := by
  obtain ⟨hl, hr, hle, hlt, -⟩ := hinv.tiles.split
  obtain ⟨hleft, hright⟩ := hinv.trail_split hp
  rw [freeAddrs_cons_of_free hb, cons_append, trail_cons_cons] at hright
  obtain ⟨hapl, hapr, -⟩ := isChain_append.mp hinv.apart
  have hpb : p < b.addr := lt_of_mem_left hlo hl (mem_of_last hp)
  have hfree : freeAddrs (l ++ { b with free := false } :: r) = freeAddrs l ++ freeAddrs r := by
    rw [freeAddrs_append, freeAddrs_cons_of_not rfl]
  refine ⟨hinv.tiles.replace rfl rfl (tiles_append.mp hinv.tiles).choose_spec.2.2.1, ?_, ?_, ?_,
    (Heap.size_relink ..).trans hinv.base_size, ?_⟩
  · intro d hd
    refine (Heap.size_relink ..).trans ?_
    simp only [mem_append, mem_cons] at hd
    rcases hd with hd | rfl | hd
    · exact hinv.size d (by simp [hd])
    · exact hinv.size b (by simp)
    · exact hinv.size d (by simp [hd])
  · refine isChain_append.mpr ⟨hapl, isChain_cons.mpr ⟨?_, hapr.tail⟩, ?_⟩
    · rintro d - ⟨hcontra, -⟩
      cases hcontra
    · rintro d - e he ⟨-, hcontra⟩
      cases he
      cases hcontra
  · rw [hfree, append_assoc, ← cons_append, ← hp, append_assoc, singleton_append,
      Circular.trail_split]
    refine ⟨relink_left hlo hl hp hleft _, hright.2.replace_head ?_ ?_⟩
    · exact (Heap.next_setHdr ..).trans (if_pos rfl)
    · intro x hx
      have hge := (hr.freeAddrs_bounds hx).1
      exact (Heap.next_setHdr ..).trans (if_neg (by omega))
  · rw [hfree, ← cons_append]
    exact mem_append_left _ (mem_of_last hp)

lemma carve_tail (hp : p ∈ base :: freeAddrs l) (hn : 0 < n) (hlt : n < b.size) :
    Inv base (carve h n p b.addr).2 lo hi
      (l ++ { b with size := b.size - n } :: ⟨b.addr + headerSize * (b.size - n), n, false⟩ :: r) := by
  obtain ⟨hl, hr, hle, -, -⟩ := hinv.tiles.split
  obtain ⟨hapl, hapr, haplast⟩ := isChain_append.mp hinv.apart
  have hsize : h.size b.addr = b.size := hinv.size b (by simp)
  have hfree : freeAddrs (l ++ { b with size := b.size - n } ::
      ⟨b.addr + headerSize * (b.size - n), n, false⟩ :: r) = freeAddrs (l ++ b :: r) := by
    rw [freeAddrs_append, freeAddrs_append, freeAddrs_cons_of_free hb,
      freeAddrs_cons_of_free (b := { b with size := b.size - n }) hb, freeAddrs_cons_of_not rfl]
  set q := b.addr + headerSize * (b.size - n) with hq
  have hqb : b.addr < q := by
    unfold headerSize at hq
    omega
  have hqstop : q + headerSize * n = b.stop := by
    unfold Block.stop headerSize at *
    omega
  have hcarve : (carve h n p b.addr).2 =
      { (h.setHdr b.addr ⟨h.next b.addr, b.size - n⟩).setHdr q ⟨h.next q, n⟩ with freep := p } := by
    unfold carve
    rw [if_neg (by omega)]
    simp only [Heap.size_setHdr, Heap.next_setHdr, if_true, hsize, ← hq, if_neg hqb.ne']
  have hsame : ∀ a, a ≠ b.addr → a ≠ q → (carve h n p b.addr).2.size a = h.size a := by
    intro a hab haq
    rw [hcarve]
    exact (Heap.size_setHdr ..).trans
      ((if_neg haq).trans ((Heap.size_setHdr ..).trans (if_neg hab)))
  have hnext : ∀ a, (carve h n p b.addr).2.next a = h.next a := by
    intro a
    rw [hcarve]
    refine (Heap.next_setHdr ..).trans ?_
    rw [Heap.next_setHdr]
    split_ifs with haq hab
    · rw [haq]
    · rw [hab]
    · rfl
  refine ⟨?_, ?_, ?_, ?_, ?_, ?_⟩
  · refine tiles_append.mpr ⟨b.addr, hl, rfl, Nat.sub_pos_of_lt hlt, rfl, hn, ?_⟩
    rw [show Block.stop ⟨q, n, false⟩ = b.stop from hqstop]
    exact hr
  · intro d hd
    simp only [mem_append, mem_cons] at hd
    rcases hd with hd | rfl | rfl | hd
    · have hbd := hl.bounds.2 d hd
      rw [hsame _ (by omega) (by omega)]
      exact hinv.size d (by simp [hd])
    · rw [hcarve]
      exact (Heap.size_setHdr ..).trans
        ((if_neg hqb.ne).trans ((Heap.size_setHdr ..).trans (if_pos rfl)))
    · rw [hcarve]
      exact (Heap.size_setHdr ..).trans (if_pos rfl)
    · have hbd := hr.bounds.2 d hd
      have hpos : 0 < headerSize * n := Nat.mul_pos (by decide) hn
      rw [hsame _ (by omega) (by omega)]
      exact hinv.size d (by simp [hd])
  · refine isChain_append.mpr ⟨hapl, ?_, ?_⟩
    · refine isChain_cons_cons.mpr ⟨fun hboth => ?_, isChain_cons.mpr ⟨?_, hapr.tail⟩⟩
      · cases hboth.2
      · rintro d - ⟨hcontra, -⟩
        cases hcontra
    · intro d hd e he
      cases he
      exact haplast d hd b rfl
  · rw [hfree]
    exact hinv.trail.congr fun a _ => hnext a
  · rw [hsame base (by omega) (by omega)]
    exact hinv.base_size
  · rw [hfree, hcarve, freeAddrs_append, ← cons_append]
    exact mem_append_left _ hp

theorem carve_spec (hp : xs ++ [p] = base :: freeAddrs l) (hn : 0 < n) (hle : n ≤ b.size) :
    ∃ bs c, Inv base (carve h n p b.addr).2 lo hi bs ∧ (carve h n p b.addr).1 = c.addr + headerSize ∧
      c.size = n ∧ (allocated bs).Perm (c :: allocated (l ++ b :: r)) ∧
      bs.length ≤ (l ++ b :: r).length + 1 := by
  have hsize : h.size b.addr = b.size := hinv.size b (by simp)
  by_cases heq : b.size = n
  · have hcarve : carve h n p b.addr = (b.addr + headerSize,
        { h.setHdr p ⟨h.next b.addr, h.size p⟩ with freep := p }) := if_pos (hsize.trans heq)
    rw [hcarve]
    refine ⟨l ++ { b with free := false } :: r, { b with free := false },
      carve_whole hlo hinv hb hp, rfl, heq, ?_, by simp⟩
    refine allocated_perm hb ?_
    rw [allocated_append, allocated_cons_of_not rfl]
  · refine ⟨_, ⟨b.addr + headerSize * (b.size - n), n, false⟩,
      carve_tail hlo hinv hb (mem_of_last hp) hn (by omega), ?_, rfl, ?_, ?_⟩
    · unfold carve
      rw [if_neg (by rwa [hsize])]
      simp [hsize]
    · refine allocated_perm hb ?_
      rw [allocated_append, allocated_cons_of_free (b := { b with size := b.size - n }) hb,
        allocated_cons_of_not rfl]
    · simp only [length_append, length_cons]
      omega

end

end heap

end Xv6.Malloc
