import Xv6.MallocSpec
import Xv6.Sbrk

/-! `malloc` on the kernel's `sbrk`, for every size that a `uint` can name. -/
namespace Xv6.Malloc

open Program Vm Process

variable [Image] {k : Kern} {p : Fin nproc} {root tf : ℕ} {f : ℕ → Word} {X A : Multiset ℕ}

def loggedSbrk (p : Fin nproc) (n : BitVec 32) : Prog (Kern × List (BitVec 32)) Halt (Option ℕ) := do
  modify fun s => (s.1, s.2 ++ [n])
  zoom Prod.fst (fun s k => (k, s.2)) (sysSbrk p n)

def sysMalloc (base : ℕ) (p : Fin nproc) (fuel nbytes : ℕ) :
    Prog (Heap × Kern × List (BitVec 32)) Halt (Option ℕ) :=
  malloc base .tooDeep (loggedSbrk p) fuel nbytes

/-- `malloc` was safe: `sbrk` was asked for the bytes of the units that the new header counts, the
heap is in order inside the memory of the process, and what is returned is a block of it with room for
`nbytes`, or nothing was handed out. -/
def SafeResult (base lo : ℕ) (p : Fin nproc) (nbytes : ℕ) (bs : List Block) (r : Option ℕ)
    (s : Heap × Kern × List (BitVec 32)) : Prop :=
  (∀ n ∈ s.2.2, n.toInt = headerSize * coreUnits (units nbytes)) ∧
    ∃ bs', Inv base s.1 lo (s.2.1.proc p).sz bs' ∧
      match r with
      | none => bs' = bs
      | some a => a + nbytes ≤ (s.2.1.proc p).sz ∧ ∃ c, (allocated bs').Perm (c :: allocated bs) ∧
          a = c.addr + headerSize ∧ a + nbytes ≤ c.stop

section
variable (k : Kern) (p : Fin nproc) (n : BitVec 32) (s : Kern × List (BitVec 32))

def Denied : Prop := s.2 = [n] ∧ 0 < n.toInt ∧ (s.1.proc p).sz = (k.proc p).sz

def Served : Prop := s.2 = [n] ∧ (s.1.proc p).sz = grownTo true (k.proc p).sz n.toInt

end

def never : Halt → Heap × Kern × List (BitVec 32) → Prop := fun _ _ => False

lemma loggedSbrk_spec (h : AddressSpace k p root tf f X A) (n : BitVec 32) {h0 : Heap} :
    wp (loggedSbrk p n) (Answers (k.proc p).sz (Denied k p n) (Served k p n))
      (fun x e => never x (h0, e)) (k, []) := by
  refine wp_bind (wp_modify (wp_zoom (wp_bind (wp_get ?_))))
  refine wp_seq (wp_mono (growproc_spec h) (fun _ _ h => h) fun _ _ h => h.elim) ?_
  rintro (_ | _) k' ⟨hok, f', X', hk'⟩
  · refine wp_pure ⟨rfl, ?_, ?_⟩
    · by_contra hneg
      exact absurd (hok (not_lt.mp hneg)) (by decide)
    · rw [hk'.size, grownTo, if_neg (by simp)]
  · exact wp_pure ⟨rfl, rfl, hk'.size⟩

omit [Image] in
lemma toInt_coreBytes_iff {nbytes : ℕ} (hn : nbytes < 2 ^ 32) :
    (BitVec.ofNat 32 (coreUnits (units nbytes) * headerSize)).toInt =
      headerSize * coreUnits (units nbytes) ↔ nbytes ≤ 2 ^ 31 - 32 := by
  rw [units_of_lt hn]
  unfold coreUnits headerSize
  rw [BitVec.toInt_eq_toNat_cond, BitVec.toNat_ofNat]
  split_ifs <;> omega

variable {base lo fuel nbytes : ℕ} {h : Heap} {bs : List Block} (hbase : 0 < base) (hlo : base < lo)
  (hspace : AddressSpace k p root tf f X A) (hready : Ready base h lo (k.proc p).sz bs)
  (hn : nbytes < 2 ^ 32) (hfuel : 2 * bs.length + 3 ≤ fuel)
include hbase hlo hspace hready hn hfuel

lemma sysMalloc_handed :
    wp (sysMalloc base p fuel nbytes)
      (Handed base lo (k.proc p).sz (units nbytes) bs (k, [])
        (Denied k p (BitVec.ofNat 32 (coreUnits (units nbytes) * headerSize)))
        (Served k p (BitVec.ofNat 32 (coreUnits (units nbytes) * headerSize))))
      never (h, k, []) := by
  have hsz := hspace.sz_le
  have hunits := units_of_lt hn
  refine malloc_spec hbase hlo hready (by omega) (loggedSbrk_spec hspace _) ?_ hfuel
  intro e _
  unfold coreUnits headerSize
  split_ifs <;> omega

lemma sysMalloc_safe (hle : nbytes ≤ 2 ^ 31 - 32) :
    wp (sysMalloc base p fuel nbytes) (SafeResult base lo p nbytes bs) never (h, k, []) := by
  have hcount := (toInt_coreBytes_iff hn).mpr hle
  have hunits := units_of_lt hn
  refine wp_post (sysMalloc_handed hbase hlo hspace hready hn hfuel) ?_
  rintro (_ | a) ⟨h', k', counts⟩ hres
  · obtain ⟨hinv, hcounts, -, hsz⟩ := hres
    refine ⟨?_, bs, ?_, rfl⟩
    · intro n hmem
      rw [show counts = _ from hcounts] at hmem
      rw [List.mem_singleton.mp hmem, hcount]
    · exact (show (k'.proc p).sz = _ from hsz) ▸ hinv
  · obtain ⟨hi', bs', c, hinv, rfl, hsize, hperm, -, hend⟩ := hres
    have hc : c ∈ bs' := (List.mem_filter.mp (hperm.symm.subset List.mem_cons_self)).1
    have hcb := hinv.tiles.bounds.2 c hc
    have hroom : c.addr + headerSize + nbytes ≤ c.stop := by
      unfold Block.stop headerSize
      omega
    have hhi : hi' = (k'.proc p).sz ∧ ∀ n ∈ counts, n.toInt = headerSize * coreUnits (units nbytes) := by
      rcases hend with ⟨rfl, heq⟩ | ⟨rfl, hcounts, hsz⟩
      · obtain ⟨rfl, rfl⟩ := Prod.mk.inj heq
        exact ⟨rfl, by simp⟩
      · rw [hcount, grownTo, if_pos ⟨rfl, by positivity⟩] at hsz
        refine ⟨?_, fun n hmem => ?_⟩
        · rw [show (k'.proc p).sz = _ from hsz]
          omega
        · rw [show counts = _ from hcounts] at hmem
          rw [List.mem_singleton.mp hmem, hcount]
    exact ⟨hhi.2, bs', hhi.1 ▸ hinv, by rw [← hhi.1]; omega, c, hperm, rfl, hroom⟩

/-- `malloc` is safe exactly for the sizes whose bytes an `int` can hold. -/
theorem sysMalloc_safe_iff :
    wp (sysMalloc base p fuel nbytes) (SafeResult base lo p nbytes bs) never (h, k, []) ↔
      nbytes ≤ 2 ^ 31 - 32 := by
  refine ⟨fun hsafe => ?_, sysMalloc_safe hbase hlo hspace hready hn hfuel⟩
  by_contra hgt
  have hunits := units_of_lt hn
  have hsz := hspace.sz_le
  obtain ⟨r, ⟨h', k', counts⟩, hres, hcounts, -⟩ := exists_of_wp (wp_mono
    (wp_and (sysMalloc_handed hbase hlo hspace hready hn hfuel) hsafe) (fun _ _ h => h)
    fun _ _ h => h.1.elim)
  -- the count that was handed over is not the one of the header
  have hwrong (hlog : counts = [BitVec.ofNat 32 (coreUnits (units nbytes) * headerSize)]) : False :=
    hgt ((toInt_coreBytes_iff hn).mp (hcounts _ (hlog ▸ List.mem_cons_self)))
  cases r with
  | none => exact hwrong hres.2.1
  | some a =>
    obtain ⟨hi', bs', c, hinv, -, hsize, hperm, -, ⟨rfl, -⟩ | ⟨-, hlog, -⟩⟩ := hres
    · -- no block of the heap is that large
      have hc : c ∈ bs' := (List.mem_filter.mp (hperm.symm.subset List.mem_cons_self)).1
      have hcb := hinv.tiles.bounds.2 c hc
      unfold Block.stop headerSize at hcb
      omega
    · exact hwrong hlog

omit hbase hlo hspace hready hn hfuel [Image]

def untouched : Heap := ⟨fun _ => ⟨0, 0⟩, 0⟩

/-- A process of one page asks for 2^32 - 17 bytes. The 2^28 units are 2^32 bytes, which is 0 as an
`int`: `sbrk` gives nothing and succeeds, and `malloc` returns memory that the process does not have. -/
theorem sysMalloc_beyond_memory :
    ∃ (_ : Image) (k : Kern) (root tf : ℕ) (f : ℕ → Word) (X : Multiset ℕ),
    AddressSpace k 0 root tf f X 0 ∧ (k.proc 0).sz = 4096 ∧
    wp (sysMalloc 16 0 3 (2 ^ 32 - 17)) (fun r s => ∃ a, r = some a ∧ 4096 < a ∧
      (s.2.1.proc 0).sz = 4096) never (untouched, k, []) ∧
    ¬ wp (sysMalloc 16 0 3 (2 ^ 32 - 17)) (SafeResult 16 4096 0 (2 ^ 32 - 17) []) never
      (untouched, k, []) := by
  obtain ⟨k, root, tf, f, X, hsz, -, -, hspace⟩ := exists_onePageProcess
  have hsz : (k.proc 0).sz = 4096 := hsz
  have hready : Ready 16 untouched 4096 (k.proc 0).sz [] := .inr ⟨rfl, rfl, hsz.symm⟩
  have hspec : wp (@sysMalloc smallImage 16 0 3 (2 ^ 32 - 17)) (fun r s => ∃ a, r = some a ∧ 4096 < a ∧
      (s.2.1.proc 0).sz = 4096) never (untouched, k, []) := by
    refine wp_post (@sysMalloc_handed smallImage k 0 root tf f X 0 16 4096 3 (2 ^ 32 - 17) untouched []
      (by decide) (by decide) hspace hready (by decide) (by decide)) ?_
    have hzero : (BitVec.ofNat 32 (coreUnits (units (2 ^ 32 - 17)) * headerSize)).toInt = 0 := by
      decide
    rintro (_ | a) ⟨h', k', counts⟩ hres
    · have hpos := hres.2.2.1
      rw [hzero] at hpos
      exact absurd hpos (by decide)
    · obtain ⟨hi', bs', c, hinv, rfl, -, hperm, -, hend⟩ := hres
      have hc : c ∈ bs' := (List.mem_filter.mp (hperm.symm.subset List.mem_cons_self)).1
      have hcb := hinv.tiles.bounds.2 c hc
      refine ⟨_, rfl, by unfold headerSize; omega, ?_⟩
      rcases hend with ⟨-, heq⟩ | ⟨-, -, hsz'⟩
      · rw [heq]
        exact hsz
      · rw [hsz', hzero, hsz]
        decide
  refine ⟨smallImage, k, root, tf, f, X, hspace, hsz, hspec, fun hsafe => ?_⟩
  obtain ⟨r, s, ⟨a, rfl, hlt, hsz'⟩, -, bs', -, hle, -⟩ := exists_of_wp (wp_mono (wp_and hspec hsafe)
    (fun _ _ h => h) fun _ _ h => h.1.elim)
  rw [hsz'] at hle
  omega

theorem sysMalloc_safe_iff_onePage :
    ∃ (_ : Image) (k : Kern) (root tf : ℕ) (f : ℕ → Word) (X : Multiset ℕ),
    AddressSpace k 0 root tf f X 0 ∧ (k.proc 0).sz = 4096 ∧
    (wp (sysMalloc 16 0 3 100) (SafeResult 16 4096 0 100 []) never (untouched, k, []) ↔
      100 ≤ 2 ^ 31 - 32) := by
  obtain ⟨k, root, tf, f, X, hsz, -, -, hspace⟩ := exists_onePageProcess
  exact ⟨smallImage, k, root, tf, f, X, hspace, hsz,
    @sysMalloc_safe_iff smallImage k 0 root tf f X 0 16 4096 3 100 untouched [] (by decide) (by decide)
      hspace (.inr ⟨rfl, rfl, hsz.symm⟩) (by decide) (by decide)⟩

end Xv6.Malloc
