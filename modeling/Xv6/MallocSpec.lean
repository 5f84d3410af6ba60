import Xv6.MallocBlocks

/-! What `malloc` makes of the row of blocks, whatever `sbrk` is. -/
namespace Xv6.Malloc

open Program Circular List

section heap
variable {base lo hi p n v : ℕ} {h : Heap} {b c : Block} {bs l r : List Block}

lemma length_freeAddrs_le (bs : List Block) : (freeAddrs bs).length ≤ bs.length := by
  rw [freeAddrs, length_map]
  exact length_filter_le _ _

/-- A heap that `malloc` and `free` have made, or one that no call has touched. -/
def Ready (base : ℕ) (h : Heap) (lo hi : ℕ) (bs : List Block) : Prop :=
  Inv base h lo hi bs ∨ h.freep = 0 ∧ bs = [] ∧ lo = hi

variable (hlo : base < lo)
include hlo

lemma Inv.base_le (hinv : Inv base h lo hi bs) (hv : v ∈ base :: freeAddrs bs) : base ≤ v := by
  rcases mem_cons.mp hv with rfl | hv
  · exact le_rfl
  · exact hlo.le.trans (hinv.tiles.freeAddrs_bounds hv).1

lemma Ready.start (hbase : 0 < base) (hready : Ready base h lo hi bs) :
    Inv base (h.start base) lo hi bs := by
  unfold Heap.start
  rcases hready with hinv | ⟨h0, rfl, rfl⟩
  · have hfreep := hinv.base_le hlo hinv.freep_mem
    rwa [if_neg (by omega)]
  · rw [if_pos h0]
    refine ⟨rfl, by simp, isChain_nil, trail_cons_cons.mpr ⟨?_, isChain_singleton _⟩, ?_,
      mem_cons_self⟩
    · exact (Heap.next_setHdr ..).trans (if_pos rfl)
    · exact (Heap.size_setHdr ..).trans (if_pos rfl)

lemma Inv.extend (hinv : Inv base h lo hi bs) {nu : ℕ} (hnu : 0 < nu) :
    Inv base (h.setHdr hi ⟨h.next hi, nu⟩) lo (hi + headerSize * nu) (bs ++ [⟨hi, nu, false⟩]) := by
  have hle := hinv.tiles.bounds.1
  have hfree : freeAddrs (bs ++ [⟨hi, nu, false⟩]) = freeAddrs bs := by
    rw [freeAddrs_append]
    exact append_nil _
  refine ⟨tiles_append.mpr ⟨hi, hinv.tiles, rfl, hnu, rfl⟩, ?_, ?_, ?_, ?_, ?_⟩
  · intro d hd
    rw [Heap.size_setHdr]
    rcases mem_append.mp hd with hd | hd
    · have hbd := hinv.tiles.bounds.2 d hd
      rw [if_neg (by omega), hinv.size d hd]
    · rw [mem_singleton.mp hd, if_pos rfl]
  · refine isChain_append.mpr ⟨hinv.apart, isChain_singleton _, ?_⟩
    rintro d - e he ⟨-, hcontra⟩
    cases he
    cases hcontra
  · rw [hfree]
    refine hinv.trail.congr fun a _ => ?_
    rw [Heap.next_setHdr]
    split_ifs with ha
    · rw [ha]
    · rfl
  · rw [Heap.size_setHdr, if_neg (by omega)]
    exact hinv.base_size
  · rw [hfree]
    exact hinv.freep_mem

lemma Inv.exists_fit (hinv : Inv base h lo hi bs) (hv : v ∈ base :: freeAddrs bs) (hn : 0 < n)
    (hfit : n ≤ h.size (h.next v)) : ∃ l b r xs, bs = l ++ b :: r ∧ b.free = true ∧
      xs ++ [v] = base :: freeAddrs l ∧ h.next v = b.addr ∧ n ≤ b.size := by
  have hmem : h.next v ∈ freeAddrs bs := by
    rcases mem_append.mp (hinv.trail.next_mem hv) with hmem | hmem
    · exact hmem
    · rw [mem_singleton.mp hmem, hinv.base_size] at hfit
      omega
  obtain ⟨b, hb, hfree, haddr⟩ := mem_freeAddrs.mp hmem
  obtain ⟨l, r, rfl⟩ := append_of_mem hb
  obtain ⟨xs, p, hp⟩ := exists_last base l
  have hcircle : base :: freeAddrs (l ++ b :: r) = xs ++ p :: b.addr :: freeAddrs r := by
    rw [freeAddrs_append, freeAddrs_cons_of_free hfree, ← cons_append, ← hp, append_assoc]
    rfl
  have htrail := hinv.trail
  rw [← cons_append, hcircle, append_assoc] at htrail
  have hnodup := nodup_circle hlo hinv.tiles
  rw [hcircle] at hnodup hv
  obtain rfl : v = p := htrail.pred_unique hnodup (hp ▸ mem_cons_self) hv haddr.symm
  rw [← haddr, hinv.size b (by simp)] at hfit
  exact ⟨l, b, r, xs, rfl, hfree, hp, haddr.symm, hfit⟩

end heap

theorem units_of_lt {nbytes : ℕ} (hn : nbytes < 2 ^ 32) : units nbytes = (nbytes + 15) / 16 + 1 := by
  unfold units headerSize
  exact Nat.mod_eq_of_lt (by omega)

section calls
variable {σ ε : Type} {base lo hi n fuel : ℕ} {stuck : ε} {sbrk : BitVec 32 → Prog σ ε (Option ℕ)}
  {h : Heap} {e : σ} {bs : List Block} {Fails Gives : σ → Prop} {E : ε → Heap × σ → Prop}

/-- What one call of `sbrk` returns at the end `hi` of the heap: nothing, or the old end. -/
def Answers (hi : ℕ) (Fails Gives : σ → Prop) (r : Option ℕ) (e : σ) : Prop :=
  match r with
  | none => Fails e
  | some a => a = hi ∧ Gives e

/-- `morecore` has put a free block of `n` units or more into the row, or nothing. -/
def Extended (base lo hi n : ℕ) (h : Heap) (bs : List Block) (Fails Gives : σ → Prop)
    (r : Option ℕ) (s : Heap × σ) : Prop :=
  match r with
  | none => s.1 = h ∧ Fails s.2
  | some p => p = s.1.freep ∧ Gives s.2 ∧ ∃ bs', Inv base s.1 lo (hi + headerSize * coreUnits n) bs' ∧
      (∃ c ∈ bs', c.free = true ∧ n ≤ c.size) ∧ allocated bs' = allocated bs ∧
      bs'.length ≤ bs.length + 1

lemma le_coreUnits (n : ℕ) : n ≤ coreUnits n ∧ 0 < coreUnits n := by
  unfold coreUnits
  split_ifs <;> omega

lemma morecore_spec (hlo : base < lo) (hinv : Inv base h lo hi bs)
    (hsbrk : wp (sbrk (BitVec.ofNat 32 (coreUnits n * headerSize))) (Answers hi Fails Gives)
      (fun x e => E x (h, e)) e)
    (hhi : ∀ e, Gives e → hi + headerSize * coreUnits n < lo + 2 ^ 36) (hfuel : bs.length + 1 < fuel) :
    wp (morecore stuck sbrk fuel n) (Extended base lo hi n h bs Fails Gives) E (h, e) := by
  unfold morecore
  dsimp only
  refine wp_bind (wp_zoom (wp_post hsbrk ?_))
  rintro (_ | a) e' hres
  · exact wp_pure ⟨rfl, hres⟩
  obtain ⟨rfl, hgives⟩ := hres
  have hext := hinv.extend hlo (le_coreUnits n).2
  have hroom : (bs ++ [(⟨a, coreUnits n, false⟩ : Block)]).length < fuel := by simpa using hfuel
  obtain ⟨h', bs', hfree, hinv', ⟨c, hc, hcfree, hcsize⟩, halloc, hlen⟩ :=
    free_spec hlo hext rfl (hhi e' hgives) hroom
  refine wp_bind (wp_get ?_)
  rw [hfree]
  refine wp_bind (wp_modify (wp_pure ⟨rfl, hgives, bs', hinv', ?_, ?_, ?_⟩))
  · exact ⟨c, hc, hcfree, (le_coreUnits n).1.trans hcsize⟩
  · rw [halloc]
    exact append_nil _
  · simpa using hlen

/-- `malloc` has handed out a block of `n` units of the row or of new memory, or the row is as it
was. -/
def Handed (base lo hi n : ℕ) (bs : List Block) (e : σ) (Fails Gives : σ → Prop) (r : Option ℕ)
    (s : Heap × σ) : Prop :=
  match r with
  | none => Inv base s.1 lo hi bs ∧ Fails s.2
  | some a => ∃ hi' bs' c, Inv base s.1 lo hi' bs' ∧ a = c.addr + headerSize ∧ c.size = n ∧
      (allocated bs').Perm (c :: allocated bs) ∧ bs'.length ≤ bs.length + 2 ∧
      (hi' = hi ∧ s.2 = e ∨ hi' = hi + headerSize * coreUnits n ∧ Gives s.2)

variable {Q : Option ℕ → Heap × σ → Prop}

/-- The loop of `malloc` goes along the circle until a block is large enough, or around it. -/
lemma wp_mallocLoop_search {s : Heap × σ} {k turns prevp y : ℕ}
    {zs : List ℕ} (htrail : Trail s.1.next (prevp :: (zs ++ [y]))) (hy : s.1.freep ∉ zs)
    (hturns : zs.length + k < turns)
    (hfit : ∀ v ∈ prevp :: zs, n ≤ s.1.size (s.1.next v) → ∀ t ≥ k,
      wp (mallocLoop stuck sbrk fuel n (t + 1) v) Q E s)
    (hnone : (∀ z ∈ zs ++ [y], s.1.size z < n) → ∀ v ∈ prevp :: zs, s.1.next v = y → ∀ t ≥ k,
      wp (mallocLoop stuck sbrk fuel n (t + 1) v) Q E s) :
    wp (mallocLoop stuck sbrk fuel n turns prevp) Q E s := by
  induction zs generalizing prevp turns with
  | nil =>
    obtain ⟨turns, rfl⟩ : ∃ t, turns = t + 1 := ⟨turns - 1, by omega⟩
    have hnext := (trail_cons_cons.mp htrail).1
    have hk : turns ≥ k := by
      omega
    by_cases hsize : n ≤ s.1.size y
    · exact hfit prevp mem_cons_self (hnext ▸ hsize) turns hk
    · refine hnone ?_ prevp mem_cons_self hnext turns hk
      intro z hz
      rw [mem_singleton.mp hz]
      omega
  | cons z zs ih =>
    rw [length_cons] at hturns
    obtain ⟨turns, rfl⟩ : ∃ t, turns = t + 1 := ⟨turns - 1, by omega⟩
    obtain ⟨hnext, hrest⟩ := trail_cons_cons.mp htrail
    by_cases hsize : n ≤ s.1.size z
    · exact hfit prevp mem_cons_self (hnext ▸ hsize) turns (by omega)
    · have hz : z ≠ s.1.freep := fun heq => hy (heq ▸ mem_cons_self)
      refine wp_bind (wp_get ?_)
      dsimp only
      rw [hnext, if_neg hsize, if_neg hz]
      refine ih hrest (fun hmem => hy (mem_cons_of_mem _ hmem)) (by omega) ?_ ?_
      · exact fun v hv => hfit v (mem_cons_of_mem _ hv)
      · intro hall v hv
        refine hnone (fun u hu => ?_) v (mem_cons_of_mem _ hv)
        rcases mem_cons.mp hu with rfl | hu
        · omega
        · exact hall u hu

section
variable (hlo : base < lo) (hinv : Inv base h lo hi bs)
include hlo hinv

lemma wp_mallocLoop_fit {v t : ℕ} (hv : v ∈ base :: freeAddrs bs) (hn : 0 < n)
    (hfit : n ≤ h.size (h.next v))
    (hQ : ∀ h' bs' c, Inv base h' lo hi bs' → c.size = n → (allocated bs').Perm (c :: allocated bs) → bs'.length ≤ bs.length + 1 → Q (some (c.addr + headerSize)) (h', e))
    :
    wp (mallocLoop stuck sbrk fuel n (t + 1) v) Q E (h, e) := by
  obtain ⟨l, b, r, xs, rfl, hfree, hp, hnext, hsize⟩ := hinv.exists_fit hlo hv hn hfit
  obtain ⟨bs', c, hinv', haddr, hcsize, hperm, hlen⟩ := carve_spec hlo hinv hfree hp hn hsize
  refine wp_bind (wp_get ?_)
  rw [if_pos hfit, hnext, haddr]
  exact wp_bind (wp_modify (wp_pure (hQ _ bs' c hinv' hcsize hperm hlen)))

lemma Inv.circle : ∃ zs,
    Trail h.next (h.freep :: (zs ++ [h.freep])) ∧ h.freep ∉ zs ∧ zs.length ≤ bs.length ∧
      ∀ v, v ∈ base :: freeAddrs bs ↔ v ∈ h.freep :: zs := by
  obtain ⟨zs, hperm, htrail⟩ := hinv.trail.rotate hinv.freep_mem
  have hnodup := hperm.nodup_iff.mp (nodup_circle hlo hinv.tiles)
  have hlen := hperm.length_eq
  have hle := length_freeAddrs_le bs
  rw [length_cons, length_cons] at hlen
  exact ⟨zs, htrail, (nodup_cons.mp hnodup).1, by omega, fun v => hperm.mem_iff⟩

lemma wp_mallocLoop_found {turns : ℕ} (hn : 0 < n) (hex : ∃ c ∈ bs, c.free = true ∧ n ≤ c.size)
    (hturns : bs.length < turns)
    (hQ : ∀ h' bs' c, Inv base h' lo hi bs' → c.size = n → (allocated bs').Perm (c :: allocated bs) → bs'.length ≤ bs.length + 1 → Q (some (c.addr + headerSize)) (h', e))
    :
    wp (mallocLoop stuck sbrk fuel n turns h.freep) Q E (h, e) := by
  obtain ⟨zs, htrail, hnot, hlen, hmem⟩ := hinv.circle hlo
  refine wp_mallocLoop_search (k := 0) (s := (h, e)) htrail hnot (by omega) ?_ ?_
  · intro v hv hfit t _
    exact wp_mallocLoop_fit hlo hinv ((hmem v).mpr hv) hn hfit hQ
  · intro hall
    obtain ⟨c, hc, hfree, hsize⟩ := hex
    have hcaddr : c.addr ∈ h.freep :: zs :=
      (hmem _).mp (mem_cons_of_mem _ (mem_freeAddrs.mpr ⟨c, hc, hfree, rfl⟩))
    have hsmall := hall c.addr (by
      rcases mem_cons.mp hcaddr with heq | hz
      · rw [heq]
        simp
      · exact mem_append_left _ hz)
    rw [hinv.size c hc] at hsmall
    omega

end

theorem malloc_spec {nbytes : ℕ} (hbase : 0 < base) (hlo : base < lo) (hready : Ready base h lo hi bs)
    (hn : 0 < units nbytes)
    (hsbrk : wp (sbrk (BitVec.ofNat 32 (coreUnits (units nbytes) * headerSize)))
      (Answers hi Fails Gives) (fun x e => E x (h.start base, e)) e)
    (hhi : ∀ e, Gives e → hi + headerSize * coreUnits (units nbytes) < lo + 2 ^ 36)
    (hfuel : 2 * bs.length + 3 ≤ fuel) :
    wp (malloc base stuck sbrk fuel nbytes)
      (Handed base lo hi (units nbytes) bs e Fails Gives) E (h, e) := by
  have hinv := hready.start hlo hbase
  refine wp_bind (wp_modify (wp_bind (wp_get ?_)))
  generalize h.start base = h at hinv hsbrk
  obtain ⟨zs, htrail, hnot, hlen, hmem⟩ := hinv.circle hlo
  refine wp_mallocLoop_search (k := bs.length + 2) (s := (h, e)) htrail hnot (by omega) ?_ ?_
  · intro v hv hfit t _
    refine wp_mallocLoop_fit hlo hinv ((hmem v).mpr hv) hn hfit ?_
    intro h' bs' c hinv' hsize hperm hlen'
    exact ⟨hi, bs', c, hinv', rfl, hsize, hperm, by omega, .inl ⟨rfl, rfl⟩⟩
  · intro hall v hv hnext t ht
    have hsmall : ¬ units nbytes ≤ h.size h.freep := not_le.mpr (hall h.freep (by simp))
    refine wp_bind (wp_get ?_)
    dsimp only
    rw [hnext, if_neg hsmall, if_pos rfl]
    refine wp_seq (morecore_spec hlo hinv hsbrk hhi (by omega)) ?_
    rintro (_ | p) ⟨h', e'⟩ hres
    · obtain ⟨rfl, hfails⟩ := hres
      exact wp_pure ⟨hinv, hfails⟩
    · obtain ⟨rfl, hgives, bs', hinv', hex, halloc, hlen'⟩ := hres
      refine wp_mallocLoop_found hlo hinv' hn hex (by omega) ?_
      intro h'' bs'' c hinv'' hsize hperm hlen''
      rw [halloc] at hperm
      exact ⟨_, bs'', c, hinv'', rfl, hsize, hperm, by omega, .inr ⟨rfl, hgives⟩⟩

section turns
variable {fuel' : ℕ} (hle : fuel ≤ fuel')
include hle

theorem free_mono {ap : ℕ} {h' : Heap} (hfree : free fuel ap h = some h') :
    free fuel' ap h = some h' := by
  obtain ⟨p, hwalk, hp⟩ := Option.map_eq_some_iff.mp hfree
  exact Option.map_eq_some_iff.mpr ⟨p, walk_mono hle hwalk, hp⟩

lemma morecore_approx (nu : ℕ) :
    Approx (morecore stuck sbrk fuel nu) (morecore stuck sbrk fuel' nu) := by
  refine approx_bind (approx_refl _) fun r => ?_
  cases r with
  | none => exact approx_refl _
  | some hp =>
    refine approx_bind (approx_refl _) fun s => ?_
    dsimp only
    rcases hfree : free fuel (hp + headerSize)
        (s.1.setHdr hp ⟨s.1.next hp, coreUnits nu⟩) with _ | h'
    · exact approx_throw _ _
    · rw [free_mono hle hfree]
      exact approx_refl _

lemma mallocLoop_approx {turns turns' : ℕ} (hturns : turns ≤ turns') (prevp : ℕ) :
    Approx (mallocLoop stuck sbrk fuel n turns prevp) (mallocLoop stuck sbrk fuel' n turns' prevp) := by
  induction turns generalizing prevp turns' with
  | zero => exact approx_throw _ _
  | succ turns ih =>
    obtain ⟨turns', rfl⟩ : ∃ t, turns' = t + 1 := ⟨turns' - 1, by omega⟩
    refine approx_bind (approx_refl _) fun s => ?_
    dsimp only
    split_ifs
    · exact approx_refl _
    · refine approx_bind (morecore_approx hle n) fun r => ?_
      cases r with
      | none => exact approx_refl _
      | some p => exact ih (by omega) p
    · exact ih (by omega) _

theorem malloc_approx (nbytes : ℕ) :
    Approx (malloc base stuck sbrk fuel nbytes) (malloc base stuck sbrk fuel' nbytes) :=
  approx_bind (approx_refl _) fun _ => approx_bind (approx_refl _) fun _ => mallocLoop_approx hle hle _

end turns

end calls

end Xv6.Malloc
