import Xv6.ExecStack

/-! `exec` builds a new address space out of free pages, and either exchanges it for the old
one or gives everything back. -/
namespace Xv6.Vm

open Program Function

def safely : Halt → Exe → Prop := fun _ _ => False

def Exe.on (s : Exe) (m : Mach) : Exe := { s with mach := m }

def Exe.holding (s : Exe) : Exe :=
  { s with ops := s.ops + 1, refs := s.refs + 1, locked := true }

lemma wp_mem {α : Type} {x : M α} {Q : α → Exe → Prop} {R : α → Mach → Prop} {s : Exe}
    (h : wp x R never s.mach) (hQ : ∀ a m, R a m → Q a (s.on m)) : wp (mem x) Q safely s :=
  wp_zoom (wp_post h hQ)

variable [Image] {m m' : Mach} {root n tf sz : ℕ} {A B Y : Multiset ℕ} {P : ℕ → Word → Prop}
  {g : ℕ → Byte} {argv : List (List Byte)} {path file : List Byte} {s : Exe}

/-- The pages `Y` are the tables and the memory of an address space with the bytes `g`. -/
def InSpace (m : Mach) (root n tf : ℕ) (P : ℕ → Word → Prop) (g : ℕ → Byte) (Y : Multiset ℕ) :
    Prop :=
  ∃ f X, Space m root n tf f X ∧ (∀ v < n, P v (f v)) ∧ m.image f n = g ∧ Y = X + frames f 0 n

lemma holds_iff : Holds m root n tf P g A ↔ ∃ Y, InSpace m root n tf P g Y ∧ Owns m (Y + A) := by
  constructor
  · rintro ⟨f, X, hs, hf, hg, ho⟩
    exact ⟨_, ⟨f, X, hs, hf, hg, rfl⟩, by rwa [add_assoc]⟩
  · rintro ⟨_, ⟨f, X, hs, hf, hg, rfl⟩, ho⟩
    exact ⟨f, X, hs, hf, hg, by rwa [← add_assoc]⟩

lemma InSpace.frame (h : InSpace m root n tf P g Y) (hk : Keeps Y m m') :
    InSpace m' root n tf P g Y := by
  obtain ⟨f, X, hs, hf, hg, rfl⟩ := h
  refine ⟨f, X, ⟨hs.maps.frame hk.left, hs.layout⟩, hf, ?_, rfl⟩
  rw [← hg]
  exact image_grow le_rfl (fun _ _ => rfl) hk.right fun v h1 h2 => absurd h2 (by omega)

lemma Holds.putOther {p : ℕ} {d : Page} (h : Holds m root n tf P g A) (hp : p ∈ A) :
    Holds (m.put p d) root n tf P g A := by
  obtain ⟨Y, hin, ho⟩ := holds_iff.mp h
  have hnot : p ∉ Y := by
    rw [add_comm] at ho
    exact ho.not_mem hp
  exact holds_iff.mpr ⟨Y, hin.frame (Keeps.put hnot), ho⟩

lemma Holds.free {root' n' sz' tf' : ℕ} {P' : ℕ → Word → Prop} {g' : ℕ → Byte}
    (h : Holds m root n tf P g (Y + A)) (hold : InSpace m root' n' tf' P' g' Y)
    (hn : n' = npages sz') :
    wp (procFreepagetable root' sz') (fun _ m' => Holds m' root n tf P g A ∧ Keeps A m m')
      never m := by
  obtain ⟨Z, hin, ho⟩ := holds_iff.mp h
  subst hn
  have hholds : Holds m root' (npages sz') tf' P' g' (Z + A) := by
    refine holds_iff.mpr ⟨Y, hold, ?_⟩
    rwa [add_left_comm]
  refine wp_post (procFreepagetable_holds hholds) ?_
  rintro _ m' ⟨ho', hk'⟩
  exact ⟨holds_iff.mpr ⟨Z, hin.frame hk'.left, ho'⟩, hk'.right⟩

structure Undone (s s' : Exe) : Prop where
  proc : s'.proc = s.proc
  ops : s'.ops = s.ops
  locked : s'.locked = s.locked
  refs : s'.refs = s.refs
  freelist : (s'.mach.freelist : Multiset ℕ) = s.mach.freelist
  kept : ∀ p ∈ ram, p ∉ s.mach.freelist → s'.mach.mem p = s.mach.mem p

lemma undone_on (ho : Owns s.mach B) (ho' : Owns m B) (hk : Keeps B s.mach m) :
    Undone s (s.on m) := by
  refine ⟨rfl, rfl, rfl, rfl, ?_, ?_⟩
  · have hsame : (m.freelist : Multiset ℕ) + B = s.mach.freelist + B := by
      rw [ho, ho']
    exact Multiset.add_left_inj.mp hsame
  · intro p hp hfree
    refine hk p ?_
    rw [← ho] at hp
    exact (Multiset.mem_add.mp hp).resolve_left fun h => hfree (Multiset.mem_coe.mp h)

def programImage (file : List Byte) : ℕ → Byte :=
  let elf := elfhdr (readi file 0 sizeofElfhdr)
  (loads (headersFrom file elf.phnum (elf.phoff % 2 ^ 32))).foldl (loadOver file) fun _ => 0

/-- What an `exec` that succeeds has done: the new image has `n` pages of program, a guard page
and the stack, the old one has gone. -/
structure Replaced (s : Exe) (path file : List Byte) (argv : List (List Byte)) (A : Multiset ℕ)
    (argc : ℕ) (s' : Exe) (n sp : ℕ) (ptrs : List ℕ) (g : ℕ → Byte) : Prop where
  argc_eq : argc = argv.length
  tf : s'.proc.tf = s.proc.tf
  name : s'.proc.name = lastName path
  size : s'.proc.sz = (n + 2) * pgsize
  ops : s'.ops = s.ops
  locked : s'.locked = s.locked
  refs : s'.refs = s.refs
  holds : Holds s'.mach s'.proc.pagetable (n + 2) s'.proc.tf (guarded n) g ({s.proc.tf} + A)
  kept : Keeps A s.mach s'.mach
  stack : Stacked n argv (programImage file) g sp ptrs
  a1 : s'.mach.cell s.proc.tf 15 = BitVec.ofNat 64 sp
  sp : s'.mach.cell s.proc.tf 6 = BitVec.ofNat 64 sp
  epc : s'.mach.cell s.proc.tf 3 =
    BitVec.ofNat 64 (elfhdr (readi file 0 sizeofElfhdr)).entry
  checked : ∀ ph ∈ loads (headersFrom file (elfhdr (readi file 0 sizeofElfhdr)).phnum
    ((elfhdr (readi file 0 sizeofElfhdr)).phoff % 2 ^ 32)), Checked (n * pgsize) ph

section steps

omit [Image] in
lemma wp_hold {α : Type} {x : X α} {Q : α → Exe → Prop} (hl : s.locked = false)
    (h : wp x Q safely s.holding) :
    wp (do
      beginOp
      namei
      ilock
      x) Q safely s := by
  refine wp_bind (wp_modify (wp_bind (wp_modify (wp_bind ?_))))
  refine wp_bind (wp_get ?_)
  rw [if_neg (by simp [hl])]
  exact h

omit [Image] in
lemma wp_release {α : Type} {x : X α} {Q : α → Exe → Prop} (hl : s.locked = false)
    (h : wp x Q safely (s.on m)) :
    wp (do
      iunlockput
      endOp
      x) Q safely (s.holding.on m) := by
  refine wp_bind ?_
  refine wp_bind (wp_get ?_)
  rw [if_neg (by simp [Exe.holding, Exe.on])]
  have hback : ({ s.holding.on m with locked := false, refs := (s.holding.on m).refs - 1 } : Exe) =
      { s.on m with ops := s.ops + 1 } := by
    simp [Exe.holding, Exe.on, hl]
  rw [hback]
  refine wp_bind (wp_modify ?_)
  exact h

variable {Q : Option ℕ → Exe → Prop}

lemma bad_none (hl : s.locked = false) (h : Q none (s.on m)) :
    wp (bad none 0 true) Q safely (s.holding.on m) := by
  refine wp_bind (wp_pure ?_)
  exact wp_release hl (wp_pure h)

lemma bad_holding (hl : s.locked = false)
    (hholds : Holds m root (npages sz) tf P g B)
    (h : ∀ m', Owns m' B → Keeps B m m' → Q none (s.on m')) :
    wp (bad (some root) sz true) Q safely (s.holding.on m) := by
  refine wp_bind (wp_mem (procFreepagetable_holds hholds) ?_)
  rintro _ m' ⟨ho', hk'⟩
  exact wp_release hl (wp_pure (h m' ho' hk'))

lemma bad_released (hholds : Holds m root (npages sz) tf P g B)
    (h : ∀ m', Owns m' B → Keeps B m m' → Q none (s.on m')) :
    wp (bad (some root) sz false) Q safely (s.on m) := by
  refine wp_bind (wp_mem (procFreepagetable_holds hholds) ?_)
  rintro _ m' ⟨ho', hk'⟩
  exact wp_pure (h m' ho' hk')

lemma commit_spec {entry sp argc : ℕ} {P' : ℕ → Word → Prop} {g' : ℕ → Byte}
    (hnew : Holds s.mach root (n + 2) s.proc.tf P g (Y + ({s.proc.tf} + A)))
    (hold : InSpace s.mach s.proc.pagetable (npages s.proc.sz) s.proc.tf P' g' Y)
    (htf : s.proc.tf ∉ Y) (htfA : s.proc.tf ∉ A) :
    wp (commit path root sz entry sp argc) (fun r s' => r = some argc ∧
      s'.proc = { s.proc with name := lastName path, pagetable := root, sz := sz } ∧
      s'.ops = s.ops ∧ s'.locked = s.locked ∧ s'.refs = s.refs ∧
      Holds s'.mach root (n + 2) s.proc.tf P g ({s.proc.tf} + A) ∧ Keeps A s.mach s'.mach ∧
      s'.mach.cell s.proc.tf 15 = BitVec.ofNat 64 sp ∧
      s'.mach.cell s.proc.tf 6 = BitVec.ofNat 64 sp ∧
      s'.mach.cell s.proc.tf 3 = BitVec.ofNat 64 entry) safely s := by
  have hin : s.proc.tf ∈ Y + ({s.proc.tf} + A) := by simp
  have hput : ∀ {m : Mach} (i : Fin 512) (x : ℕ),
      Holds m root (n + 2) s.proc.tf P g (Y + ({s.proc.tf} + A)) →
      InSpace m s.proc.pagetable (npages s.proc.sz) s.proc.tf P' g' Y → Keeps A s.mach m →
      wp (setTrapframe s.proc.tf i x) (fun _ m' =>
        Holds m' root (n + 2) s.proc.tf P g (Y + ({s.proc.tf} + A)) ∧
        InSpace m' s.proc.pagetable (npages s.proc.sz) s.proc.tf P' g' Y ∧ Keeps A s.mach m' ∧
        m'.cell s.proc.tf = update (m.cell s.proc.tf) i (BitVec.ofNat 64 x)) never m := by
    intro m i x h1 h2 h3
    refine wp_storePte ⟨h1.putOther hin, h2.frame (Keeps.put htf), h3.trans (Keeps.put htfA), ?_⟩
    rw [cell_put_self, Page.get64_put64_eq_update]
    rfl
  refine wp_bind (wp_get ?_)
  refine wp_bind (wp_mem (hput 15 sp hnew hold (Keeps.refl A s.mach)) ?_)
  rintro _ m1 ⟨h₁, hold1, hk1, hc1⟩
  refine wp_bind (wp_modify ?_)
  refine wp_bind (wp_mem (hput 3 entry h₁ hold1 hk1) ?_)
  rintro _ m2 ⟨h₂, hold2, hk2, hc2⟩
  replace hc2 : m2.cell s.proc.tf =
    update (m1.cell s.proc.tf) 3 (BitVec.ofNat 64 entry) := hc2
  refine wp_bind (wp_mem (hput 6 sp h₂ hold2 hk2) ?_)
  rintro _ m3 ⟨h₃, hold3, hk3, hc3⟩
  replace hc3 : m3.cell s.proc.tf =
    update (m2.cell s.proc.tf) 6 (BitVec.ofNat 64 sp) := hc3
  refine wp_bind (wp_mem (h₃.free hold3 rfl) ?_)
  rintro _ m4 ⟨h4, hk4⟩
  have hcell : m4.cell s.proc.tf = m3.cell s.proc.tf := hk4.cell _ (by simp)
  refine wp_pure ⟨rfl, rfl, rfl, rfl, rfl, h4, hk3.trans hk4.right, ?_, ?_, ?_⟩
  · change m4.cell s.proc.tf 15 = _
    rw [hcell, hc3, update_of_ne (by decide), hc2, update_of_ne (by decide), hc1,
      update_self]
  · change m4.cell s.proc.tf 6 = _
    rw [hcell, hc3, update_self]
  · change m4.cell s.proc.tf 3 = _
    rw [hcell, hc3, update_of_ne (by decide), hc2, update_self]

end steps

/-- `exec`, whatever it is given: it replaces the image, or fails and leaves no trace. -/
theorem exec_spec {file : Option (List Byte)}
    (h : Holds s.mach s.proc.pagetable (npages s.proc.sz) s.proc.tf P g ({s.proc.tf} + A))
    (hl : s.locked = false) (hargs : argv.length < maxarg) :
    wp (exec path file argv) (fun r s' => match r with
      | none => Undone s s'
      | some argc => ∃ bytes n sp ptrs g', file = some bytes ∧
          Replaced s path bytes argv A argc s' n sp ptrs g') safely s := by
  obtain ⟨Y, hold, ho⟩ := holds_iff.mp h
  have htf : s.proc.tf ∉ Y + A := by
    rw [add_left_comm] at ho
    exact ho.not_mem (Multiset.mem_singleton_self _)
  rw [Multiset.mem_add, not_or] at htf
  cases file with
  | none =>
    exact wp_bind (wp_modify (wp_bind (wp_modify (wp_pure ⟨rfl, rfl, rfl, rfl, rfl, fun _ _ _ => rfl⟩))))
  | some file =>
    refine wp_hold hl ?_
    have hnone := undone_on (s := s) ho ho (Keeps.refl _ _)
    by_cases hshort : (readi file 0 sizeofElfhdr).length ≠ sizeofElfhdr
    · rw [if_pos hshort]
      exact bad_none (m := s.mach) hl hnone
    rw [if_neg hshort]
    by_cases hmagic : (elfhdr (readi file 0 sizeofElfhdr)).magic ≠ elfMagic
    · rw [if_pos hmagic]
      exact bad_none (m := s.mach) hl hnone
    rw [if_neg hmagic]
    refine wp_bind (wp_get (wp_bind (wp_mem (s := s.holding) (procPagetable_holds (P := user) ho) ?_)))
    rintro root m1 ⟨hk1, h₁⟩
    cases root with
    | none => exact bad_none hl (undone_on ho h₁ hk1)
    | some root =>
      refine wp_bind (wp_mem (loadProgram_holds h₁) ?_)
      rintro ⟨ok, sz⟩ m2 ⟨hk2, g2, h₂, -, hok⟩
      cases ok with
      | false =>
        refine bad_holding hl h₂ fun m' ho' hk' => undone_on ho ho' ?_
        exact (hk1.trans hk2).trans hk'
      | true =>
        obtain ⟨rfl, hchecked⟩ := hok rfl
        refine wp_release hl ?_
        refine wp_bind (wp_mem (buildStack_holds h₂ hargs) ?_)
        rintro ⟨sp, sz'⟩ m3 ⟨hk3, h₃⟩
        have hk := (hk1.trans hk2).trans hk3
        cases sp with
        | none =>
          obtain ⟨P', g', h₃⟩ := h₃
          exact bad_released h₃ fun m' ho' hk' => undone_on ho ho' (hk.trans hk')
        | some sp =>
          obtain ⟨rfl, g', ptrs, h₃, hstacked⟩ := h₃
          refine wp_post (commit_spec (s := s.on m3) h₃ (hold.frame hk.left) htf.1 htf.2) ?_
          rintro _ s' ⟨rfl, hproc, hops, hlocked, hrefs, hholds, hkept, ha1, hsp, hepc⟩
          refine ⟨file, npages sz, sp, ptrs, g', rfl, ?_⟩
          have hn : sz ≤ npages sz * pgsize := le_npages_mul sz
          exact
            { argc_eq := rfl
              tf := by rw [hproc]; rfl
              name := by rw [hproc]
              size := by rw [hproc]
              ops := hops
              locked := hlocked
              refs := hrefs
              holds := by rw [hproc]; exact hholds
              kept := hk.right.right.trans hkept
              stack := hstacked
              a1 := ha1
              sp := hsp
              epc := hepc
              checked := fun ph hph =>
                ⟨(hchecked ph hph).filesz, (hchecked ph hph).fits.trans hn, (hchecked ph hph).aligned⟩ }

/-- `exec` stops in no panic, and when it fails nothing is left of it. -/
theorem exec_atomic {file : Option (List Byte)}
    (h : Holds s.mach s.proc.pagetable (npages s.proc.sz) s.proc.tf P g ({s.proc.tf} + A))
    (hl : s.locked = false) (hargs : argv.length < maxarg) :
    wp (exec path file argv) (fun r s' => r = none → Undone s s') safely s := by
  refine wp_post (exec_spec h hl hargs) ?_
  rintro r s' hr rfl
  exact hr

section spawn

def spawn : M (Option (ℕ × ℕ)) := do
  match ← kalloc with
  | none => return none
  | some tf =>
      let root ← procPagetable tf
      return root.map (tf, ·)

lemma spawn_spec (ho : Owns m B) :
    wp spawn (fun r m' => ∀ tf root, r = some (tf, root) →
      Holds m' root 0 tf user (fun _ => 0) ({tf} + B)) never m := by
  refine wp_seq (kalloc_spec ho) ?_
  rintro (_ | tf) m1 ⟨ho1, -⟩
  · exact wp_pure fun _ _ h => (by cases h)
  refine wp_seq (procPagetable_holds (P := user) ho1) ?_
  rintro (_ | root) m2 ⟨-, h₂⟩
  · exact wp_pure fun _ _ h => (by cases h)
  · refine wp_pure fun tf' root' h => ?_
    cases h
    exact h₂

omit [Image] in
theorem exists_process : ∃ s : Exe, s.locked = false ∧
    @Holds smallImage s.mach s.proc.pagetable (npages s.proc.sz) s.proc.tf user (fun _ => 0)
      ({s.proc.tf} + 0) := by
  have hsome : (result (@spawn smallImage) smallMach).any Option.isSome = true := by
    decide +kernel
  have hspec := @spawn_spec smallImage smallMach 0 owns_smallMach
  unfold wp at hspec
  unfold result at hsome
  rcases hx : (@spawn smallImage).run smallMach with ⟨r, m⟩
  rw [hx] at hspec hsome
  cases r with
  | error e => exact hspec.elim
  | ok r =>
    obtain ⟨⟨tf, root⟩, rfl⟩ := Option.isSome_iff_exists.mp hsome
    have hholds : @Holds smallImage m root (npages 0) tf user (fun _ => 0) ({tf} + 0) :=
      hspec tf root rfl
    exact ⟨⟨m, ⟨root, 0, tf, []⟩, 0, false, 0⟩, rfl, hholds⟩

end spawn

omit [Image] in
/-- A file that is no program. -/
theorem exec_atomic_text : ∃ (_ : Image) (s : Exe) (A : Multiset ℕ),
    Holds s.mach s.proc.pagetable (npages s.proc.sz) s.proc.tf user (fun _ => 0)
      ({s.proc.tf} + A) ∧ s.locked = false ∧ [[97], [98]].length < maxarg ∧
    wp (exec [97] (some [35, 33]) [[97], [98]]) (fun r s' => r = none → Undone s s') safely s := by
  obtain ⟨s, hl, h⟩ := exists_process
  exact ⟨smallImage, s, 0, h, hl, by decide, @exec_atomic smallImage _ _ _ _ _ _ _ h hl (by decide)⟩

section sys

end sys

end Xv6.Vm
