import Xv6.ExecSpec
import Xv6.Process

/-! The memory of a process, and what `freeproc` and `allocproc` do to it: a process comes with
a trapframe and an empty table, and all it has goes back to the allocator. -/
namespace Xv6.Process

open Program Vm

variable [Image] {k k' : Kern} {p : Fin nproc} {root tf sz : ℕ} {f : ℕ → Word}
  {X A B : Multiset ℕ}

/-- The address space of process `p`: the table at `root` has the entries `f` for the pages below
its size, and is kept in the pages `X`; the other pages in use are that of the trapframe and `A`. -/
structure AddressSpace (k : Kern) (p : Fin nproc) (root tf : ℕ) (f : ℕ → Word)
    (X A : Multiset ℕ) : Prop where
  pagetable : (k.proc p).pagetable = some root
  trapframe : (k.proc p).trapframe = some tf
  space : Space k.mach root (npages (k.proc p).sz) tf f X
  owns : Owns k.mach (X + (frames f 0 (npages (k.proc p).sz) + ({tf} + A)))

theorem AddressSpace.npages_le (h : AddressSpace k p root tf f X A) :
    npages (k.proc p).sz ≤ 2 ^ 15 := by
  have hcard := h.owns.card_le
  simp only [Multiset.card_add, card_frames] at hcard
  omega

theorem AddressSpace.sz_le (h : AddressSpace k p root tf f X A) : (k.proc p).sz ≤ 2 ^ 27 := by
  have hn := h.npages_le
  have hsz := le_npages_mul (k.proc p).sz
  unfold pgsize at hsz
  omega

omit [Image] in
theorem wp_deref {ptr : Option ℕ} {a : ℕ} {Q : ℕ → Kern → Prop} {E : Halt → Kern → Prop}
    (hp : ptr = some a) (h : Q a k) : wp (deref ptr) Q E k := by
  subst hp
  exact h

/-- A slot without anything that hangs from it, as `exit` and `freeproc` leave it. -/
structure Proc.Clean (q : Proc) : Prop where
  sz : q.sz = 0
  pagetable : q.pagetable = none
  trapframe : q.trapframe = none
  ofile : ∀ i, q.ofile i = none

inductive Hangs (m : Mach) (q : Proc) : Multiset ℕ → Prop
  | none : q.trapframe = .none → q.pagetable = .none → Hangs m q 0
  | trapframe {tf : ℕ} : q.trapframe = some tf → q.pagetable = .none → Hangs m q {tf}
  | space {root tf : ℕ} {f : ℕ → Word} {X : Multiset ℕ} : q.trapframe = some tf →
      q.pagetable = some root → Space m root (npages q.sz) tf f X →
      Hangs m q ({tf} + (X + frames f 0 (npages q.sz)))

omit [Image] in
theorem wp_modifyProc {g : Proc → Proc} {Q : PUnit → Kern → Prop} {E : Halt → Kern → Prop}
    (h : Q ⟨⟩ (k.setProc p (g (k.proc p)))) : wp (modifyProc p g) Q E k := h

omit [Image] in
lemma wp_allocpid {Q : ℤ → Kern → Prop} {E : Halt → Kern → Prop}
    (h : Q k.nextpid { k with nextpid := k.nextpid + 1 }) : wp allocpid Q E k := h

omit [Image] in
theorem mem_frame {α : Type} {x : M α} {Q : α → Mach → Prop} (h : wp x Q never k.mach) :
    wp (mem x) (fun a k' => Q a k'.mach ∧ k' = { k with mach := k'.mach }) nowhere k :=
  wp_zoom (wp_post h (fun _ _ h => ⟨h, rfl⟩))

lemma freeTrapframe_spec (ho : Owns k.mach ({tf} + A)) :
    wp (freeTrapframe (some tf)) (fun _ k' => (Owns k'.mach A ∧ Vm.Keeps A k.mach k'.mach) ∧
      k' = { k with mach := k'.mach }) nowhere k :=
  mem_frame (kfree_spec ho)

lemma freeTable_spec (hs : Space k.mach root (npages sz) tf f X)
    (ho : Owns k.mach (X + (frames f 0 (npages sz) + A))) :
    wp (freeTable (some root) sz) (fun _ k' => (Owns k'.mach A ∧ Vm.Keeps A k.mach k'.mach) ∧
      k' = { k with mach := k'.mach }) nowhere k :=
  mem_frame (procFreepagetable_spec hs ho)

theorem freeproc_spec (h : Hangs k.mach (k.proc p) B) (ho : Owns k.mach (B + A)) :
    wp (freeproc p) (fun _ k' => Owns k'.mach A ∧ Vm.Keeps A k.mach k'.mach ∧
      k' = { k.setProc p ((k.proc p).freed k.ticks) with mach := k'.mach }) nowhere k := by
  refine wp_bind (wp_get ?_)
  cases h with
  | none ht hp =>
    rw [zero_add] at ho
    simp only [ht, hp]
    exact wp_bind (wp_pure (wp_bind (wp_pure (wp_modify ⟨ho, Vm.Keeps.refl _ _, rfl⟩))))
  | trapframe ht hp =>
    simp only [ht, hp]
    refine wp_seq (freeTrapframe_spec ho) ?_
    rintro _ k1 ⟨⟨ho1, hk1⟩, hk⟩
    generalize k1.mach = m1 at hk ho1 hk1
    subst hk
    exact wp_bind (wp_pure (wp_modify ⟨ho1, hk1, rfl⟩))
  | @space root tf f X ht hp hs =>
    simp only [ht, hp]
    have ho' : Owns k.mach ({tf} + (X + (frames f 0 (npages (k.proc p).sz) + A))) := by
      rwa [add_assoc, add_assoc] at ho
    refine wp_seq (freeTrapframe_spec ho') ?_
    rintro _ k1 ⟨⟨ho1, hk1⟩, hk⟩
    generalize k1.mach = m1 at hk ho1 hk1
    subst hk
    refine wp_seq (freeTable_spec ⟨hs.maps.frame hk1.left, hs.layout⟩ ho1) ?_
    rintro _ k2 ⟨⟨ho2, hk2⟩, hk⟩
    generalize k2.mach = m2 at hk ho2 hk2
    subst hk
    exact wp_modify ⟨ho2, hk1.right.right.trans hk2, rfl⟩

structure NotAllocated (k : Kern) (A : Multiset ℕ) (k' : Kern) : Prop where
  owns : Owns k'.mach A
  other : ∀ q, (k.proc q).state ≠ .unused → k'.proc q = k.proc q
  unused : ∀ q, (k.proc q).state = .unused → (k'.proc q).state = .unused ∧ (k'.proc q).Clean

structure Allocated (k : Kern) (A : Multiset ℕ) (np : Fin nproc) (k' : Kern) : Prop where
  free : (k.proc np).state = .unused
  used : (k'.proc np).state = .used
  sz : (k'.proc np).sz = 0
  ofile : ∀ i, (k'.proc np).ofile i = none
  space : ∃ root tf f X, AddressSpace k' np root tf f X A
  other : ∀ q, q ≠ np → k'.proc q = k.proc q

omit [Image] in
lemma state_unused (h : k.unused = some p) : (k.proc p).state = .unused := by
  have hfind := List.find?_some h
  simpa using hfind

omit [Image] in
lemma Proc.Clean.freed {q : Proc} (h : ∀ i, q.ofile i = none) (ticks : ℕ) :
    (q.freed ticks).Clean :=
  ⟨rfl, rfl, rfl, h⟩

structure Taking (k : Kern) (A : Multiset ℕ) (np : Fin nproc) (k' : Kern) : Prop where
  free : (k.proc np).state = .unused
  keeps : Vm.Keeps A k.mach k'.mach
  fref : k'.fref = k.fref
  iref : k'.iref = k.iref
  ofile : (k'.proc np).ofile = (k.proc np).ofile
  other : ∀ q, q ≠ np → k'.proc q = k.proc q

omit [Image] in
lemma Taking.setProc {q : Proc} (h : Taking k A p k') (hq : q.ofile = (k'.proc p).ofile) :
    Taking k A p (k'.setProc p q) where
  free := h.free
  keeps := h.keeps
  fref := h.fref
  iref := h.iref
  ofile := by
    rw [← h.ofile, ← hq]
    exact congrArg Proc.ofile (Kern.setProc_self _ _ _)
  other := fun r hr => (Kern.setProc_of_ne _ _ hr).trans (h.other r hr)

omit [Image] in
lemma Taking.mach {m : Mach} (h : Taking k A p k') (hk : Vm.Keeps A k'.mach m) :
    Taking k A p { k' with mach := m } :=
  ⟨h.free, h.keeps.trans hk, h.fref, h.iref, h.ofile, h.other⟩

def AllocEnd (k : Kern) (A : Multiset ℕ) (r : Option (Fin nproc)) (k' : Kern) : Prop :=
  Vm.Keeps A k.mach k'.mach ∧ k'.fref = k.fref ∧ k'.iref = k.iref ∧
    match r with
    | none => NotAllocated k A k'
    | some np => Allocated k A np k'

section
variable (hclean : ∀ q, (k.proc q).state = .unused → (k.proc q).Clean)
include hclean

lemma allocproc_undo (h : Taking k A p k') (hh : Hangs k'.mach (k'.proc p) B)
    (ho : Owns k'.mach (B + A)) :
    wp (do
      freeproc p
      return none) (AllocEnd k A) nowhere k' := by
  refine wp_seq (freeproc_spec hh ho) ?_
  rintro _ k2 ⟨ho2, hk2, hk⟩
  generalize k2.mach = m2 at hk ho2 hk2
  subst hk
  have hfreed : Taking k A p { k'.setProc p ((k'.proc p).freed k'.ticks) with mach := m2 } :=
    (h.setProc (q := (k'.proc p).freed k'.ticks) rfl).mach hk2
  refine wp_pure ⟨hfreed.keeps, h.fref, h.iref, ho2, ?_, ?_⟩
  · intro q hq
    exact hfreed.other q fun e => hq (e ▸ h.free)
  · intro q hq
    by_cases hqp : q = p
    · subst hqp
      have hself : ({ k'.setProc q ((k'.proc q).freed k'.ticks) with mach := m2 } : Kern).proc q =
          (k'.proc q).freed k'.ticks := Kern.setProc_self _ _ _
      rw [hself]
      exact ⟨rfl, Proc.Clean.freed (fun i => by rw [h.ofile]; exact (hclean q hq).ofile i) _⟩
    · rw [hfreed.other q hqp]
      exact ⟨hq, hclean q hq⟩

theorem allocproc_spec (ho : Owns k.mach A) : wp allocproc (AllocEnd k A) nowhere k := by
  refine wp_bind (wp_get ?_)
  cases hu : k.unused with
  | none =>
    exact wp_pure ⟨Vm.Keeps.refl _ _, rfl, rfl, ho, fun _ _ => rfl, fun q hq => ⟨hq, hclean q hq⟩⟩
  | some np =>
    have hst := state_unused hu
    have hcl := hclean np hst
    refine wp_bind (wp_allocpid (wp_bind (wp_modifyProc ?_)))
    set q1 : Proc := { k.proc np with pid := k.nextpid, state := .used } with hq1
    have ht1 : Taking k A np { k with nextpid := k.nextpid + 1 } :=
      ⟨hst, Vm.Keeps.refl _ _, rfl, rfl, rfl, fun _ _ => rfl⟩
    have ht2 := ht1.setProc (q := q1) rfl
    refine wp_seq (mem_frame (kalloc_spec ho)) ?_
    rintro r k2 ⟨⟨ho2, hk2⟩, hk⟩
    generalize k2.mach = m2 at hk ho2 hk2
    subst hk
    have ht3 := ht2.mach hk2
    refine wp_bind (wp_modifyProc ?_)
    have hp3 : ({ ({ k with nextpid := k.nextpid + 1 } : Kern).setProc np q1 with
        mach := m2 } : Kern).proc np = q1 := Kern.setProc_self _ _ _
    rw [hp3]
    have ht4 := ht3.setProc (q := { q1 with trapframe := r }) (congrArg Proc.ofile hp3).symm
    generalize hk4 : ({ ({ k with nextpid := k.nextpid + 1 } : Kern).setProc np q1 with
      mach := m2 } : Kern).setProc np { q1 with trapframe := r } = k4 at ht4 ⊢
    have hp4 : k4.proc np = { q1 with trapframe := r } := by
      rw [← hk4]
      exact Kern.setProc_self _ _ _
    have hm4 : k4.mach = m2 := by rw [← hk4]; rfl
    rw [← hm4] at ho2
    cases r with
    | none =>
      refine allocproc_undo hclean ht4 (.none ?_ ?_) ho2
      · rw [hp4]
      · rw [hp4]
        exact hcl.pagetable
    | some tf =>
      refine wp_seq (mem_frame (procPagetable_spec ho2)) ?_
      rintro r k5 ⟨⟨hk5, ho5⟩, hk⟩
      generalize k5.mach = m5 at hk ho5 hk5
      subst hk
      have ht5 := ht4.mach hk5.right
      refine wp_bind (wp_modifyProc ?_)
      rw [show ({ k4 with mach := m5 } : Kern).proc np = { q1 with trapframe := some tf } from hp4]
      have ht6 := ht5.setProc (q := { q1 with trapframe := some tf, pagetable := r })
        (congrArg Proc.ofile hp4).symm
      generalize hk6 : ({ k4 with mach := m5 } : Kern).setProc np
        { q1 with trapframe := some tf, pagetable := r } = k6 at ht6 ⊢
      have hp6 : k6.proc np = { q1 with trapframe := some tf, pagetable := r } := by
        rw [← hk6]
        exact Kern.setProc_self _ _ _
      have hm6 : k6.mach = m5 := by rw [← hk6]; rfl
      rw [← hm6] at ho5
      cases r with
      | none =>
        refine allocproc_undo hclean ht6 (.trapframe ?_ ?_) ho5
        · rw [hp6]
        · rw [hp6]
      | some root =>
        obtain ⟨f, X, hs, ho6⟩ := ho5
        have hsz : q1.sz = 0 := hcl.sz
        have ht7 := ht6.setProc (q := (k6.proc np).fresh k6.ticks) rfl
        have hp7 : (k6.setProc np ((k6.proc np).fresh k6.ticks)).proc np =
            (k6.proc np).fresh k6.ticks := Kern.setProc_self _ _ _
        refine wp_bind (wp_modify (wp_pure ⟨ht7.keeps, ht7.fref, ht7.iref, hst, ?_, ?_, ?_,
          ⟨root, tf, f, X, ?_, ?_, ?_, ?_⟩, ht7.other⟩))
        · rw [hp7, hp6]
          rfl
        · rw [hp7, hp6]
          exact hsz
        · intro i
          rw [ht7.ofile]
          exact hcl.ofile i
        · rw [hp7, hp6]
          rfl
        · rw [hp7, hp6]
          rfl
        · rw [hp7, hp6]
          change Space k6.mach root (npages q1.sz) tf f X
          rw [hsz]
          exact hs
        · rw [hp7, hp6]
          change Owns k6.mach (X + (frames f 0 (npages q1.sz) + ({tf} + A)))
          rw [hsz, show npages 0 = 0 from rfl, frames_zero, zero_add]
          exact ho6

end

end Xv6.Process
