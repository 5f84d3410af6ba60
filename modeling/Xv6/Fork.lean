import Xv6.Sbrk

/-! `fork`: the child has a copy of everything the parent has, in pages of its own, or there is
no child and everything taken has been given back. -/
namespace Xv6.Process

open Program Vm Function Multiset

variable [Image] {k k' : Kern} {p np : Fin nproc} {root tf : ℕ} {f : ℕ → Word}
  {X A B : Multiset ℕ}

omit [Image] in
lemma get64_copy (d e : Page) {i : Fin 512} (hi : i.val < 36) :
    (e.write 0 (d.read 0 sizeofTrapframe)).get64 i = d.get64 i := by
  have hbyte : ∀ j : Fin 8, (e.write 0 (d.read 0 sizeofTrapframe)).at8 i j = d.at8 i j := by
    intro j
    have hj : 8 * i.val + j.val < sizeofTrapframe := by
      unfold sizeofTrapframe
      omega
    have hpg : 8 * i.val + j.val < pgsize := by
      unfold pgsize
      omega
    simp only [Page.at8, Page.write, Page.read, Nat.zero_le, if_true, Nat.sub_zero, zero_add]
    rw [List.getD_eq_getElem?_getD, List.getElem?_map, List.getElem?_range hj]
    exact congrArg d (Fin.ext (Nat.mod_eq_of_lt hpg))
  simp only [Page.get64, hbyte]

omit [Image] in
lemma copyTrapframe_spec {m : Mach} {ntf : ℕ} (hne : ntf ∉ B) :
    wp (copyTrapframe tf ntf) (fun _ m' => m'.freelist = m.freelist ∧ Vm.Keeps B m m' ∧
      ∀ i : Fin 512, i.val < 36 → m'.cell ntf i = if i = a0 then 0 else m.cell tf i) never m := by
  unfold copyTrapframe setTrapframe
  refine wp_bind (wp_page (wp_bind (wp_page (wp_bind (wp_setPage (wp_storePte ⟨rfl, ?_, ?_⟩))))))
  · exact (Vm.Keeps.put hne).trans (Vm.Keeps.put hne)
  · intro i hi
    rw [cell_put_self, Page.get64_put64_eq_update]
    by_cases ha : i = a0
    · rw [ha, update_self, if_pos rfl]
      rfl
    · rw [update_of_ne ha, if_neg ha]
      change ((m.put ntf _).cell ntf) i = _
      rw [cell_put_self]
      exact get64_copy (m.mem tf) (m.mem ntf) hi

section files

/-- The state after the loop of `fork` has been through the descriptors `d`. -/
def Kern.dupped (k : Kern) (p np : Fin nproc) (d : List (Fin nofile)) : Kern :=
  { k.setProc np { k.proc np with
      ofile := fun i => if i ∈ d then (k.proc p).ofile i else (k.proc np).ofile i } with
    fref := fun f => k.fref f + d.countP fun i => (k.proc p).ofile i = some f }

omit [Image] in
lemma wp_filedup {f : Fin nfile} {Q : PUnit → Kern → Prop} {E : Halt → Kern → Prop}
    (hf : 1 ≤ k.fref f) (h : Q ⟨⟩ { k with fref := update k.fref f (k.fref f + 1) }) :
    wp (filedup f) Q E k := by
  unfold filedup
  refine wp_bind (wp_get ?_)
  rw [if_neg (by omega)]
  exact h

omit [Image] in
lemma dupped_snoc {d : List (Fin nofile)} {i : Fin nofile} :
    k.dupped p np (d ++ [i]) =
      { (k.dupped p np d).setProc np { (k.dupped p np d).proc np with
          ofile := update ((k.dupped p np d).proc np).ofile i ((k.proc p).ofile i) } with
        fref := fun f => (k.dupped p np d).fref f + if (k.proc p).ofile i = some f then 1 else 0 } := by
  have hofile : (fun j => if j ∈ d ++ [i] then (k.proc p).ofile j else (k.proc np).ofile j) =
      update (fun j => if j ∈ d then (k.proc p).ofile j else (k.proc np).ofile j) i
        ((k.proc p).ofile i) := by
    funext j
    by_cases hj : j = i
    · subst hj
      rw [update_self, if_pos (by simp)]
    · rw [update_of_ne hj]
      simp [hj]
  have hfref : (fun f => k.fref f + ((d ++ [i]).countP fun j => (k.proc p).ofile j = some f : ℕ)) =
      fun f => k.fref f + (d.countP fun j => (k.proc p).ofile j = some f : ℕ) +
        if (k.proc p).ofile i = some f then 1 else 0 := by
    funext f
    rw [List.countP_append, List.countP_singleton]
    split_ifs <;> simp_all [add_assoc]
  unfold Kern.dupped
  rw [hofile, hfref]
  simp [Kern.setProc]

omit [Image] in
lemma dupFile_spec {d : List (Fin nofile)} {i : Fin nofile} (hne : p ≠ np)
    (hclean : ∀ j, (k.proc np).ofile j = none)
    (href : ∀ f, (k.proc p).ofile i = some f → 1 ≤ k.fref f) :
    wp (dupFile p np i) (fun _ k' => k' = k.dupped p np (d ++ [i])) nowhere
      (k.dupped p np d) := by
  have hp : (k.dupped p np d).proc p = k.proc p := Kern.setProc_of_ne _ _ hne
  rw [dupped_snoc]
  unfold dupFile
  refine wp_bind (wp_get ?_)
  rw [hp]
  cases hf : (k.proc p).ofile i with
  | none =>
    have hnone : ((k.dupped p np d).proc np).ofile i = none := by
      simp [Kern.dupped, hf, hclean]
    refine wp_pure ?_
    rw [← hnone, update_eq_self]
    simp [Kern.setProc, hnone]
  | some f =>
    have hle : 1 ≤ (k.dupped p np d).fref f := by
      have h1 := href f hf
      simp only [Kern.dupped]
      omega
    refine wp_bind (wp_filedup hle (wp_modifyProc ?_))
    have hupd : update (k.dupped p np d).fref f ((k.dupped p np d).fref f + 1) =
        fun g => (k.dupped p np d).fref g + if some f = some g then 1 else 0 := by
      funext g
      by_cases hg : g = f
      · subst hg
        simp
      · simp [hg, Ne.symm hg]
    rw [hupd]
    rfl

omit [Image] in
lemma dupFiles_spec (hne : p ≠ np) (hclean : ∀ j, (k.proc np).ofile j = none)
    (href : ∀ i f, (k.proc p).ofile i = some f → 1 ≤ k.fref f) :
    wp (forM (List.finRange nofile) (dupFile p np))
      (fun _ k' => k' = k.dupped p np (List.finRange nofile)) nowhere k := by
  refine wp_forM (I := fun d k' => k' = k.dupped p np d) ?_ ?_
  · rintro d i r t - rfl
    exact dupFile_spec hne hclean (href i)
  · simp [Kern.dupped, Kern.setProc]

/-- The child `np` has the files and the directory of `p`, and they have a reference more. -/
structure Inherited (k : Kern) (p np : Fin nproc) (k' : Kern) : Prop where
  mach : k'.mach = k.mach
  ofile : (k'.proc np).ofile = (k.proc p).ofile
  cwd : (k'.proc np).cwd = (k.proc p).cwd
  fref : ∀ f, k'.fref f =
    k.fref f + (List.finRange nofile).countP fun i => (k.proc p).ofile i = some f
  iref : ∀ c, k'.iref c = k.iref c + if (k.proc p).cwd = some c then 1 else 0
  sz : (k'.proc np).sz = (k.proc np).sz
  pid : (k'.proc np).pid = (k.proc np).pid
  pagetable : (k'.proc np).pagetable = (k.proc np).pagetable
  trapframe : (k'.proc np).trapframe = (k.proc np).trapframe
  parent : (k'.proc np).parent = some p
  state : (k'.proc np).state = .runnable
  other : ∀ q, q ≠ np → k'.proc q = k.proc q

omit [Image] in
lemma inherit_spec {c : Fin ninode} (hne : p ≠ np) (hclean : ∀ j, (k.proc np).ofile j = none)
    (href : ∀ i f, (k.proc p).ofile i = some f → 1 ≤ k.fref f) (hcwd : (k.proc p).cwd = some c) :
    wp (inherit p np) (fun _ k' => Inherited k p np k') nowhere k := by
  have hp : (k.dupped p np (List.finRange nofile)).proc p = k.proc p := Kern.setProc_of_ne _ _ hne
  unfold inherit
  refine wp_seq (dupFiles_spec hne hclean href) ?_
  rintro _ k₁ rfl
  unfold dupCwd
  refine wp_bind (wp_bind (wp_get ?_))
  rw [hp, hcwd]
  refine wp_bind (wp_modify (wp_modifyProc (wp_bind (wp_get (wp_bind (wp_modifyProc (wp_bind
    (wp_modifyProc (wp_modifyProc ?_)))))))))
  refine ⟨rfl, ?_, ?_, fun f => rfl, ?_, ?_, ?_, ?_, ?_, ?_, ?_, ?_⟩
  · simp [Kern.setProc, Kern.dupped]
  · simp [Kern.setProc, hcwd]
  · intro e
    by_cases he : e = c
    · subst he
      simp [Kern.setProc, Kern.dupped, hcwd]
    · simp [Kern.setProc, Kern.dupped, hcwd, he, Ne.symm he]
  · simp [Kern.setProc, Kern.dupped]
  · simp [Kern.setProc, Kern.dupped]
  · simp [Kern.setProc, Kern.dupped]
  · simp [Kern.setProc, Kern.dupped]
  · simp [Kern.setProc]
  · simp [Kern.setProc]
  · intro q hq
    simp [Kern.setProc, Kern.dupped, hq]

end files

/-- A process that may call `fork`: its address space is in order, its files are open, and slots
that are free are clean. -/
structure Forking (k : Kern) (p : Fin nproc) (root tf : ℕ) (f : ℕ → Word) (X A : Multiset ℕ) :
    Prop where
  space : AddressSpace k p root tf f X A
  active : (k.proc p).state ≠ .unused
  clean : ∀ q, (k.proc q).state = .unused → (k.proc q).Clean
  files : ∀ i f, (k.proc p).ofile i = some f → 1 ≤ k.fref f
  cwd : ∃ c, (k.proc p).cwd = some c

/-- Stores to the `n` pages of `f` do not change what is read through `g`. -/
def Unseen (m : Mach) (n : ℕ) (f g : ℕ → Word) : Prop :=
  ∀ v < n, ∀ d, ∀ a < n * pgsize, (m.put (ptePage (f v)) d).load g a = m.load g a

/-- The child that `fork` has made in slot `np`, with its table at `root'`. -/
structure Child (k : Kern) (p : Fin nproc) (root tf : ℕ) (f : ℕ → Word) (X A : Multiset ℕ)
    (k' : Kern) (np : Fin nproc) (root' tf' : ℕ) (f' : ℕ → Word) (X' : Multiset ℕ) : Prop where
  free : (k.proc np).state = .unused
  runnable : (k'.proc np).state = .runnable
  parent : (k'.proc np).parent = some p
  sz : (k'.proc np).sz = (k.proc p).sz
  space : AddressSpace k' np root' tf' f' X'
    (X + (frames f 0 (npages (k.proc p).sz) + ({tf} + A)))
  flags : ∀ v < npages (k.proc p).sz, pteFlags (f' v) = pteFlags (f v)
  bytes : ∀ a < npages (k.proc p).sz * pgsize, k'.mach.load f' a = k.mach.load f a
  childStores : Unseen k'.mach (npages (k.proc p).sz) f' f
  parentStores : Unseen k'.mach (npages (k.proc p).sz) f f'
  registers : ∀ i : Fin 512, i.val < 36 →
    k'.mach.cell tf' i = if i = a0 then 0 else k.mach.cell tf i
  ofile : (k'.proc np).ofile = (k.proc p).ofile
  cwd : (k'.proc np).cwd = (k.proc p).cwd
  fref : ∀ g, k'.fref g =
    k.fref g + (List.finRange nofile).countP fun i => (k.proc p).ofile i = some g
  iref : ∀ c, k'.iref c = k.iref c + if (k.proc p).cwd = some c then 1 else 0
  kept : Vm.Keeps (X + (frames f 0 (npages (k.proc p).sz) + ({tf} + A))) k.mach k'.mach
  other : ∀ q, q ≠ np → k'.proc q = k.proc q

structure NotForked (k : Kern) (B : Multiset ℕ) (k' : Kern) : Prop where
  fref : k'.fref = k.fref
  iref : k'.iref = k.iref
  state : ∀ q, (k'.proc q).state = (k.proc q).state
  other : ∀ q, (k.proc q).state ≠ .unused → k'.proc q = k.proc q
  freelist : (k'.mach.freelist : Multiset ℕ) = k.mach.freelist
  kept : Vm.Keeps B k.mach k'.mach

omit [Image] in
lemma unseen_of_disjoint {m : Mach} {n : ℕ} {g : ℕ → Word}
    (h : Disjoint (frames f 0 n) (frames g 0 n)) : Unseen m n f g := by
  intro v hv d a ha
  have hva : a / pgsize < n := Nat.div_lt_of_lt_mul (by rwa [Nat.mul_comm])
  have hnot : ptePage (f v) ∉ frames g 0 n := fun hg =>
    disjoint_left.mp h (mem_frames (Nat.zero_le v) (by omega)) hg
  have hkeep : Vm.Keeps (frames g 0 n) m (m.put (ptePage (f v)) d) := Vm.Keeps.put hnot
  unfold Mach.load framePage
  rw [hkeep _ (mem_frames (Nat.zero_le _) (by omega))]

def ForkEnd (k : Kern) (p : Fin nproc) (root tf : ℕ) (f : ℕ → Word) (X A : Multiset ℕ)
    (r : Option ℤ) (k' : Kern) : Prop :=
  match r with
  | some pid => ∃ np root' tf' f' X', (k'.proc np).pid = pid ∧
      Child k p root tf f X A k' np root' tf' f' X'
  | none => NotForked k (X + (frames f 0 (npages (k.proc p).sz) + ({tf} + A))) k'

section finish
variable {k₁ : Kern} {m₂ : Mach} {root' tf' : ℕ} {f' g : ℕ → Word} {X' Y W : Multiset ℕ}

/-- The rest of `fork` once the child has its memory, in the pages `X'` and `frames f'`; what was
in use before is `W`. -/
lemma fork_finish (h : Forking k p root tf f X A)
    (hW : X + (frames f 0 (npages (k.proc p).sz) + ({tf} + A)) = W) (h₁ : Allocated k W np k₁)
    (hs' : AddressSpace k₁ np root' tf' g Y W) (hf1 : k₁.fref = k.fref) (hi1 : k₁.iref = k.iref)
    (hk2 : Vm.Keeps W k.mach m₂) (hs2 : Space m₂ root' (npages (k.proc p).sz) tf' f' X')
    (ho2 : Owns m₂ ({tf'} + (X' + (frames f' 0 (npages (k.proc p).sz) + W))))
    (hcopy : ∀ v < npages (k.proc p).sz, pteFlags (f' v) = pteFlags (f v) ∧
      m₂.mem (ptePage (f' v)) = k.mach.mem (ptePage (f v))) :
    wp (do
      modifyProc np fun nq => { nq with sz := (k.proc p).sz }
      mem (copyTrapframe (← deref (k.proc p).trapframe) (← deref (k₁.proc np).trapframe))
      inherit p np
      return some (k₁.proc np).pid) (ForkEnd k p root tf f X A) nowhere { k₁ with mach := m₂ } := by
  obtain ⟨c, hcwd⟩ := h.cwd
  have hne : p ≠ np := fun e => h.active (e ▸ h₁.free)
  have htf : tf ∈ W := by
    rw [← hW]
    simp
  have htf' := ho2.not_mem (mem_singleton_self tf')
  refine wp_bind (wp_modifyProc (wp_bind (wp_deref h.space.trapframe (wp_bind
    (wp_deref hs'.trapframe ?_)))))
  refine wp_seq (mem_frame (copyTrapframe_spec htf')) ?_
  rintro _ k4 ⟨⟨hfree, hk4, hreg⟩, hk⟩
  change k4.mach.freelist = m₂.freelist at hfree
  change Vm.Keeps _ m₂ k4.mach at hk4
  change ∀ i : Fin 512, i.val < 36 → k4.mach.cell tf' i = if i = a0 then 0 else m₂.cell tf i at hreg
  have hp4 : k4.proc p = k.proc p := by
    rw [hk]
    exact (Kern.setProc_of_ne _ _ hne).trans (h₁.other p hne)
  have hnp4 : k4.proc np = { k₁.proc np with sz := (k.proc p).sz } := by
    rw [hk]
    exact Kern.setProc_self _ _ _
  have hother4 : ∀ q, q ≠ np → k4.proc q = k.proc q := by
    intro q hq
    rw [hk]
    exact (Kern.setProc_of_ne _ _ hq).trans (h₁.other q hq)
  have hf4 : k4.fref = k.fref := by
    rw [hk]
    exact hf1
  have hi4 : k4.iref = k.iref := by
    rw [hk]
    exact hi1
  have ho4 : Owns k4.mach ({tf'} + (X' + (frames f' 0 (npages (k.proc p).sz) + W))) := by
    unfold Owns at ho2 ⊢
    rw [hfree]
    exact ho2
  clear hk
  have hcwd4 : (k4.proc p).cwd = some c := by rw [hp4, hcwd]
  refine wp_seq (inherit_spec hne ?_ ?_ hcwd4) ?_
  · intro j
    rw [hnp4]
    exact h₁.ofile j
  · intro i e hi
    rw [hp4] at hi
    rw [hf4]
    exact h.files i e hi
  rintro _ k5 h5
  have hkW : Vm.Keeps W k.mach k5.mach := by
    rw [h5.mach]
    exact hk2.trans hk4.right.right
  have hdis : Disjoint (frames f' 0 (npages (k.proc p).sz)) (frames f 0 (npages (k.proc p).sz)) := by
    have ho : Owns k4.mach (frames f' 0 (npages (k.proc p).sz) + ({tf'} + (X' + W))) := by
      convert ho4 using 1
      abel
    have hin : ∀ q ∈ frames f 0 (npages (k.proc p).sz), q ∈ {tf'} + (X' + W) := by
      intro q hq
      rw [← hW]
      simp only [mem_add, hq, true_or, or_true]
    exact disjoint_left.mpr fun hq hq' => ho.not_mem hq (hin _ hq')
  have hsz : (k5.proc np).sz = (k.proc p).sz := by rw [h5.sz, hnp4]
  refine wp_pure ⟨np, root', tf', f', X', ?_, h₁.free, h5.state, h5.parent, hsz,
    ⟨?_, ?_, ?_, ?_⟩, fun v hv => (hcopy v hv).1, ?_, unseen_of_disjoint hdis,
    unseen_of_disjoint hdis.symm, ?_, ?_, ?_, ?_, ?_, ?_, ?_⟩
  · rw [h5.pid, hnp4]
  · rw [h5.pagetable, hnp4]
    exact hs'.pagetable
  · rw [h5.trapframe, hnp4]
    exact hs'.trapframe
  · rw [hsz, h5.mach]
    exact ⟨hs2.maps.frame hk4.left, hs2.layout⟩
  · rw [hsz, h5.mach, hW]
    convert ho4 using 1
    abel
  · intro a ha
    have hv : a / pgsize < npages (k.proc p).sz := Nat.div_lt_of_lt_mul (by rwa [Nat.mul_comm])
    unfold Mach.load framePage
    rw [h5.mach, hk4.right.left _ (mem_frames (Nat.zero_le _) (by omega)), (hcopy _ hv).2]
  · intro i hi
    rw [h5.mach, hreg i hi]
    unfold Mach.cell
    rw [hk2 tf htf]
  · rw [h5.ofile, hp4]
  · rw [h5.cwd, hp4]
  · intro e
    rw [h5.fref, hp4, hf4]
  · intro e
    rw [h5.iref, hp4, hi4]
  · rw [hW]
    exact hkW
  · intro q hq
    rw [h5.other q hq, hother4 q hq]

end finish

lemma fork_spec (h : Forking k p root tf f X A) :
    wp (fork p) (ForkEnd k p root tf f X A) nowhere k := by
  obtain ⟨c, hcwd⟩ := h.cwd
  set n := npages (k.proc p).sz with hn
  set W := X + (frames f 0 n + ({tf} + A)) with hW
  have hoW : Owns k.mach W := h.space.owns
  unfold fork
  refine wp_seq (allocproc_spec h.clean hoW) ?_
  rintro (_ | np) k₁ ⟨hk1, hf1, hi1, h₁⟩
  · refine wp_pure ⟨hf1, hi1, ?_, h₁.other, ?_, hk1⟩
    · intro q
      by_cases hq : (k.proc q).state = .unused
      · rw [(h₁.unused q hq).1, hq]
      · rw [h₁.other q hq]
    · exact add_right_cancel (h₁.owns.trans hoW.symm)
  obtain ⟨root', tf', g, Y, hs'⟩ := h₁.space
  have hne : p ≠ np := fun e => h.active (e ▸ h₁.free)
  have hp1 : k₁.proc p = k.proc p := h₁.other p hne
  -- what `uvmcopy` has to leave alone
  set C := frames f 0 n + ({tf} + A) + {tf'} with hC
  have hsub : ∀ q ∈ W, q ∈ X + C := by
    intro q hq
    simp only [hW, hC, mem_add] at hq ⊢
    tauto
  have ho1 : Owns k₁.mach (Y + (X + C)) := by
    have ho := hs'.owns
    rw [h₁.sz, show npages 0 = 0 from rfl, frames_zero, zero_add] at ho
    convert ho using 1
    rw [hC, hW]
    abel
  have hs1 : Space k₁.mach root' 0 tf' g Y := by
    have hs := hs'.space
    rwa [h₁.sz] at hs
  have hpage : ∀ v < n, ptePage (f v) ∈ X + C := by
    intro v hv
    have hin : ptePage (f v) ∈ frames f 0 n := mem_frames (Nat.zero_le v) (by omega)
    simp only [hC, mem_add]
    exact .inr (.inl (.inl hin))
  refine wp_bind (wp_get ?_)
  have hroot : (k₁.proc p).pagetable = some root := by rw [hp1, h.space.pagetable]
  refine wp_bind (wp_deref hroot (wp_bind (wp_deref hs'.pagetable ?_)))
  rw [hp1]
  refine wp_seq (mem_frame (uvmcopy_spec (h.space.space.maps.frame hk1.left)
    (fun v hv => h.space.space.layout.user v hv) hpage hs1 ho1)) ?_
  rintro (_ | _) k2 ⟨⟨hk2, f', X', hr⟩, hk⟩
  · generalize k2.mach = m₂ at hk hk2 hr
    subst hk
    obtain ⟨hs2, ho2⟩ := hr
    have hhang : Hangs m₂ (k₁.proc np) ({tf'} + (X' + frames f' 0 (npages (k₁.proc np).sz))) := by
      refine .space hs'.trapframe hs'.pagetable ?_
      rw [h₁.sz]
      exact hs2
    have ho3 : Owns m₂ ({tf'} + (X' + frames f' 0 (npages (k₁.proc np).sz)) + W) := by
      rw [h₁.sz, show npages 0 = 0 from rfl, frames_zero, add_zero]
      convert ho2 using 1
      rw [hC, hW]
      abel
    rw [if_neg (by decide)]
    refine wp_seq (freeproc_spec hhang ho3) ?_
    rintro _ k3 ⟨ho4, hk3, hk⟩
    have hother : ∀ q, q ≠ np → k3.proc q = k.proc q := by
      intro q hq
      rw [hk]
      exact (Kern.setProc_of_ne _ _ hq).trans (h₁.other q hq)
    refine wp_pure ⟨?_, ?_, ?_, fun q hq => hother q fun e => hq (e ▸ h₁.free),
      add_right_cancel (ho4.trans hoW.symm),
      (hk1.trans fun q hq => hk2 q (hsub q hq)).trans hk3⟩
    · rw [hk]
      exact hf1
    · rw [hk]
      exact hi1
    · intro q
      by_cases hq : q = np
      · rw [hq, h₁.free, hk]
        exact congrArg Proc.state (Kern.setProc_self _ _ _)
      · rw [hother q hq]
  · generalize k2.mach = m₂ at hk hk2 hr
    subst hk
    obtain ⟨hs2, ho2, hcopy⟩ := hr
    refine fork_finish h rfl h₁ hs' hf1 hi1 (hk1.trans fun q hq => hk2 q (hsub q hq)) hs2 ?_ ?_
    · convert ho2 using 1
      rw [hC]
      abel
    · intro v hv
      have hin : ptePage (f v) ∈ W := by
        simp only [hW, mem_add]
        exact .inr (.inl (mem_frames (Nat.zero_le v) (by omega)))
      rw [← hk1 _ hin]
      exact hcopy v hv

lemma Child.disjoint {np : Fin nproc} {root' tf' : ℕ} {f' : ℕ → Word} {X' : Multiset ℕ}
    (h : Child k p root tf f X A k' np root' tf' f' X') :
    Disjoint (X' + (frames f' 0 (npages (k.proc p).sz) + {tf'}))
      (X + (frames f 0 (npages (k.proc p).sz) + ({tf} + A))) := by
  have ho := h.space.owns
  rw [h.sz, ← add_assoc (frames f' 0 _), ← add_assoc X'] at ho
  exact disjoint_left.mpr fun hq hq' => ho.not_mem hq hq'

/-- A `fork` that succeeds makes a child with copies of the parent's memory and registers, in
pages that are not in use for anything else, and with its open files; one that fails leaves no
trace. -/
theorem fork_copies (h : Forking k p root tf f X A) :
    wp (fork p) (fun r k' =>
      (∀ pid, r = some pid → ∃ np root' tf' f' X', (k'.proc np).pid = pid ∧
        Child k p root tf f X A k' np root' tf' f' X' ∧
        Disjoint (X' + (frames f' 0 (npages (k.proc p).sz) + {tf'}))
          (X + (frames f 0 (npages (k.proc p).sz) + ({tf} + A)))) ∧
      (r = none → NotForked k (X + (frames f 0 (npages (k.proc p).sz) + ({tf} + A))) k'))
      nowhere k := by
  refine wp_post (fork_spec h) ?_
  rintro (_ | pid) k' hr
  · exact ⟨fun _ h => (by cases h), fun _ => hr⟩
  · obtain ⟨np, root', tf', f', X', hpid, hc⟩ := hr
    refine ⟨?_, fun h => (by cases h)⟩
    rintro _ ⟨⟩
    exact ⟨np, root', tf', f', X', hpid, hc, hc.disjoint⟩

def Proc.opened (q : Proc) : Proc :=
  { q with ofile := fun i => if i.val = 0 then some 0 else none, cwd := some 0 }

def Kern.withFile (k : Kern) : Kern :=
  { k.setProc 0 (k.proc 0).opened with fref := fun _ => 1, iref := fun _ => 1 }

lemma forking_withFile (h : AddressSpace k 0 root tf f X 0) (hst : (k.proc 0).state = .used)
    (hcl : ∀ q, q ≠ 0 → (k.proc q).Clean) : Forking k.withFile 0 root tf f X 0 := by
  have hself : k.withFile.proc 0 = (k.proc 0).opened := Kern.setProc_self k 0 _
  have hst' : (k.withFile.proc 0).state = .used := by
    rw [hself]
    exact hst
  refine ⟨⟨?_, ?_, ?_, ?_⟩, by rw [hst']; decide, ?_, fun _ _ _ => le_rfl, 0, by rw [hself]; rfl⟩
  · rw [hself]
    exact h.pagetable
  · rw [hself]
    exact h.trapframe
  · rw [hself]
    exact h.space
  · rw [hself]
    exact h.owns
  · intro q hq
    by_cases hq0 : q = 0
    · subst hq0
      rw [hst'] at hq
      cases hq
    · rw [show k.withFile.proc q = k.proc q from Kern.setProc_of_ne _ _ hq0]
      exact hcl q hq0

omit [Image] in
theorem fork_copies_onePage :
    ∃ (_ : Image) (k : Kern) (root tf : ℕ) (f : ℕ → Word) (X : Multiset ℕ),
    Forking k 0 root tf f X 0 ∧ (k.proc 0).sz = 4096 ∧
    wp (fork 0) (fun r k' =>
      (∀ pid, r = some pid → ∃ np root' tf' f' X', (k'.proc np).pid = pid ∧
        Child k 0 root tf f X 0 k' np root' tf' f' X' ∧
        Disjoint (X' + (frames f' 0 (npages (k.proc 0).sz) + {tf'}))
          (X + (frames f 0 (npages (k.proc 0).sz) + ({tf} + 0)))) ∧
      (r = none → NotForked k (X + (frames f 0 (npages (k.proc 0).sz) + ({tf} + 0))) k'))
      nowhere k := by
  obtain ⟨k, root, tf, f, X, hsz, hst, hcl, h⟩ := exists_onePageProcess
  have hf := @forking_withFile smallImage k root tf f X h hst hcl
  refine ⟨smallImage, k.withFile, root, tf, f, X, hf, ?_,
    @fork_copies smallImage k.withFile 0 root tf f X 0 hf⟩
  exact (congrArg Proc.sz (Kern.setProc_self k 0 _)).trans hsz

end Xv6.Process
