import Xv6.ExecImage

/-! The stack of a new image: the argument strings from the top of the page down, each at a
multiple of 16, and the array of pointers below them. -/
namespace Xv6.Vm

open Program List

/-- Strings pushed from `sp` on have their pointers `ptrs`, one below the other, and leave the
stack pointer at `sp'`. -/
inductive Pushed (stackbase : ℕ) : ℕ → List (List Byte) → List ℕ → ℕ → Prop
  | nil (sp : ℕ) : Pushed stackbase sp [] [] sp
  | cons {sp p sp' : ℕ} {arg : List Byte} {argv : List (List Byte)} {ptrs : List ℕ}
      (aligned : p % 16 = 0) (base : stackbase ≤ p) (room : p + (arg.length + 1) ≤ sp)
      (rest : Pushed stackbase p argv ptrs sp') : Pushed stackbase sp (arg :: argv) (p :: ptrs) sp'

def StringAt (g : ℕ → Byte) (arg : List Byte) (p : ℕ) : Prop :=
  ∀ i ≤ arg.length, g (p + i) = (arg ++ [0]).getD i 0

variable [Image] {m m' : Mach} {root n tf sz sp sp' base : ℕ} {A : Multiset ℕ}
  {P : ℕ → Word → Prop} {g g' : ℕ → Byte} {argv : List (List Byte)} {ptrs ustack : List ℕ}

section pure
omit [Image]

theorem Pushed.le (h : Pushed base sp argv ptrs sp') : sp' ≤ sp := by
  induction h with
  | nil => exact le_rfl
  | cons _ _ hroom _ ih => omega

theorem Pushed.length (h : Pushed base sp argv ptrs sp') : ptrs.length = argv.length := by
  induction h with
  | nil => rfl
  | cons _ _ _ _ ih => rw [length_cons, length_cons, ih]

lemma overlay_of_lt {va a : ℕ} {bs : List Byte} (h : a < va ∨ va + bs.length ≤ a) :
    overlay g va bs a = g a :=
  if_neg (by omega)

lemma overlay_at {va i : ℕ} {bs : List Byte} (h : i < bs.length) :
    overlay g va bs (va + i) = bs.getD i 0 := by
  rw [overlay, if_pos (by omega), Nat.add_sub_cancel_left]

lemma stringAt_overlay (arg : List Byte) (p : ℕ) : StringAt (overlay g p (arg ++ [0])) arg p := by
  intro i hi
  exact overlay_at (by simp; omega)

lemma room_of_fits {len p : ℕ} (hn : n ≤ 2 ^ 15) (hsp : sp ≤ n * pgsize) (hlen : 0 < len)
    (hp : p = sub64 sp len - sub64 sp len % 16) (hfit : ∀ i < len, p + i < n * pgsize) :
    p + len ≤ sp := by
  have hlast := hfit (len - 1) (by omega)
  unfold sub64 at hp
  unfold pgsize at *
  omega

end pure

lemma pushArgs_holds (h : Holds m root n tf P g A) (hsp : sp ≤ n * pgsize) :
    wp (pushArgs root base argv sp ustack) (fun r m' => Keeps A m m' ∧
      ∃ g', Holds m' root n tf P g' A ∧ ∀ sp' us, r = some (sp', us) →
        ∃ ptrs, us = ustack ++ ptrs ∧ Pushed base sp argv ptrs sp' ∧
          (∀ a, a < sp' ∨ sp ≤ a → g' a = g a) ∧ List.Forall₂ (StringAt g') argv ptrs)
      never m := by
  induction argv generalizing m g sp ustack with
  | nil =>
    refine wp_pure ⟨Keeps.refl A m, g, h, ?_⟩
    rintro sp' us heq
    obtain ⟨rfl, rfl⟩ := Prod.mk.inj (Option.some.inj heq)
    exact ⟨[], by simp, .nil sp, fun _ _ => rfl, .nil⟩
  | cons arg argv ih =>
    have hn := h.le
    unfold pushArgs
    have hnone : wp (pure none : M (Option (ℕ × List ℕ))) (fun r m' => Keeps A m m' ∧
        ∃ g', Holds m' root n tf P g' A ∧ ∀ sp' us, r = some (sp', us) →
          ∃ ptrs, us = ustack ++ ptrs ∧ Pushed base sp (arg :: argv) ptrs sp' ∧
            (∀ a, a < sp' ∨ sp ≤ a → g' a = g a) ∧
            List.Forall₂ (StringAt g') (arg :: argv) ptrs) never m :=
      wp_pure ⟨Keeps.refl A m, g, h, fun _ _ h => (by cases h)⟩
    dsimp only
    generalize hp : sub64 sp (arg.length + 1) - sub64 sp (arg.length + 1) % 16 = p
    split_ifs with hmax hbase
    · exact hnone
    · exact hnone
    refine wp_seq (copyout_holds h) ?_
    rintro (_ | _) m1 ⟨hk1, g1, h1, hok⟩
    · exact wp_pure ⟨hk1, g1, h1, fun _ _ h => (by cases h)⟩
    obtain ⟨rfl, hfit⟩ := hok rfl
    have hroom : p + (arg.length + 1) ≤ sp :=
      room_of_fits hn hsp (Nat.succ_pos _) hp.symm (by simpa using hfit)
    refine wp_post (ih h1 (by omega)) ?_
    rintro r m' ⟨hk', g', h', hres⟩
    refine ⟨hk1.trans hk', g', h', ?_⟩
    intro sp' us heq
    obtain ⟨ptrs, hus, hpushed, hsame, hstrs⟩ := hres sp' us heq
    have hle := hpushed.le
    refine ⟨p :: ptrs, by simp [hus], .cons (by omega) (by omega) hroom hpushed, ?_, .cons ?_ hstrs⟩
    · intro a ha
      rw [hsame a (by omega), overlay_of_lt]
      rw [length_append, length_singleton]
      omega
    · -- later strings are below this one
      intro i hi
      rw [hsame (p + i) (.inr (by omega))]
      exact stringAt_overlay arg p i hi

def pointerBytes (ustack : List ℕ) : List Byte := (ustack ++ [0]).flatMap bytes64

omit [Image] in
lemma length_pointerBytes : (pointerBytes ustack).length = (ustack.length + 1) * 8 := by
  have main : ∀ l : List ℕ, (l.flatMap bytes64).length = l.length * 8 := by
    intro l
    induction l with
    | nil => rfl
    | cons x l ih =>
      rw [flatMap_cons, length_append, ih, length_cons, bytes64, length_map,
        length_range]
      omega
  rw [pointerBytes, main, length_append, length_singleton]

lemma pushPointers_holds (h : Holds m root n tf P g A) (hsp : sp ≤ n * pgsize)
    (hlen : ustack.length < maxarg) :
    wp (pushPointers root base sp ustack) (fun r m' => Keeps A m m' ∧
      ∃ g', Holds m' root n tf P g' A ∧ ∀ sp', r = some sp' →
        sp' % 16 = 0 ∧ base ≤ sp' ∧ sp' + (ustack.length + 1) * 8 ≤ sp ∧
          g' = overlay g sp' (pointerBytes ustack)) never m := by
  have hn := h.le
  unfold pushPointers
  dsimp only
  generalize hp : sub64 sp ((ustack.length + 1) * 8) - sub64 sp ((ustack.length + 1) * 8) % 16 = p
  rw [if_neg (by omega)]
  split_ifs with hbase
  · exact wp_pure ⟨Keeps.refl A m, g, h, fun _ h => (by cases h)⟩
  refine wp_seq (copyout_holds h) ?_
  rintro (_ | _) m1 ⟨hk1, g1, h1, hok⟩
  · exact wp_pure ⟨hk1, g1, h1, fun _ h => (by cases h)⟩
  obtain ⟨hg1, hfit⟩ := hok rfl
  refine wp_pure ⟨hk1, g1, h1, ?_⟩
  intro sp' heq
  obtain rfl := Option.some.inj heq
  have hbytes : ((ustack ++ [0]).flatMap bytes64).length = (ustack.length + 1) * 8 :=
    length_pointerBytes
  rw [hbytes] at hfit
  exact ⟨by omega, by omega, room_of_fits hn hsp (by omega) hp.symm hfit, hg1⟩

/-- What `exec` has built when its stack is complete: `n` pages of program with the bytes `g`, the
guard page, and the stack page with the arguments. -/
structure Stacked (n : ℕ) (argv : List (List Byte)) (g g' : ℕ → Byte) (sp : ℕ) (ptrs : List ℕ) :
    Prop where
  below : ∀ a < (n + 1) * pgsize, g' a = g a
  pushed : ∃ top, Pushed ((n + 1) * pgsize) ((n + 2) * pgsize) argv ptrs top ∧
    sp + (argv.length + 1) * 8 ≤ top
  strings : List.Forall₂ (StringAt g') argv ptrs
  array : ∀ i < (argv.length + 1) * 8, g' (sp + i) = (pointerBytes ptrs).getD i 0
  aligned : sp % 16 = 0
  base : (n + 1) * pgsize ≤ sp

omit [Image] in
lemma Pushed.strings_overlay {bs : List Byte} {p : ℕ} (h : Pushed base sp argv ptrs sp')
    (hs : List.Forall₂ (StringAt g) argv ptrs) (hp : p + bs.length ≤ sp') :
    List.Forall₂ (StringAt (overlay g p bs)) argv ptrs := by
  induction h with
  | nil => exact .nil
  | cons _ _ hroom hrest ih =>
    obtain ⟨hfirst, hs'⟩ := forall₂_cons.mp hs
    have hle := hrest.le
    refine .cons ?_ (ih hs' hp)
    intro i hi
    rw [overlay_of_lt (.inr (by omega))]
    exact hfirst i hi

theorem buildStack_holds (h : Holds m root (npages sz) tf user g A) (hargs : argv.length < maxarg) :
    wp (buildStack root sz argv) (fun r m' => Keeps A m m' ∧ match r with
      | (none, sz') => ∃ P g', Holds m' root (npages sz') tf P g' A
      | (some sp, sz') => sz' = (npages sz + 2) * pgsize ∧ ∃ g' ptrs,
          Holds m' root (npages sz + 2) tf (guarded (npages sz)) g' A ∧
          Stacked (npages sz) argv g g' sp ptrs) never m := by
  have hn := h.le
  have hsz := le_npages_mul sz
  have hround : pgroundup sz = npages sz * pgsize :=
    pgroundup_eq (by unfold pgsize at *; omega)
  have hnew : (npages sz * pgsize + (userstack + 1) * pgsize) % 2 ^ 64 =
      (npages sz + 2) * pgsize := by
    unfold userstack pgsize
    omega
  have h₀ : Holds m root (npages (npages sz * pgsize)) tf user g A := by
    rw [npages_mul]
    exact h
  unfold buildStack
  rw [hround]
  dsimp only
  rw [hnew]
  refine wp_seq (uvmalloc_holds (by rfl) h₀) ?_
  rintro sz1 m1 ⟨hk1, h1, hor⟩
  by_cases h0 : sz1 = 0
  · rw [if_pos h0] at h1 ⊢
    exact wp_pure ⟨hk1, user, g, h1⟩
  rw [if_neg h0] at h1 ⊢
  have hgrown := hor.resolve_left h0
  have hmul : (npages sz + 2) * pgsize = npages sz * pgsize + 2 * pgsize := Nat.add_mul ..
  have hpos : 0 < pgsize := by decide
  have hsz1 : sz1 = (npages sz + 2) * pgsize := hgrown.2.2.resolve_left (by omega)
  subst hsz1
  rw [npages_mul] at h1
  have hguard : (npages sz + 2) * pgsize - (userstack + 1) * pgsize = npages sz * pgsize := by
    unfold userstack pgsize
    omega
  have hbase : (npages sz + 2) * pgsize - userstack * pgsize = (npages sz + 1) * pgsize := by
    unfold userstack pgsize
    omega
  rw [hguard, hbase]
  refine wp_seq (uvmclear_holds h1 (by omega)) ?_
  rintro _ m2 ⟨hk2, h2⟩
  refine wp_seq (pushArgs_holds h2 le_rfl) ?_
  rintro (_ | ⟨top, us⟩) m3 ⟨hk3, g3, h3, hres⟩
  · refine wp_pure ⟨(hk1.trans hk2).trans hk3, guarded (npages sz), g3, ?_⟩
    rw [npages_mul]
    exact h3
  obtain ⟨ptrs, hus, hpushed, hsame, hstrs⟩ := hres top us rfl
  subst hus
  have hlen := hpushed.length
  refine wp_seq (pushPointers_holds h3 hpushed.le (by omega)) ?_
  rintro (_ | sp) m4 ⟨hk4, g4, h4, hres4⟩
  · refine wp_pure ⟨((hk1.trans hk2).trans hk3).trans hk4, guarded (npages sz), g4, ?_⟩
    rw [npages_mul]
    exact h4
  obtain ⟨haligned, hsp, hroom, rfl⟩ := hres4 sp rfl
  have hbytes : (pointerBytes us).length = (us.length + 1) * 8 := length_pointerBytes
  refine wp_pure ⟨((hk1.trans hk2).trans hk3).trans hk4, rfl, _, us, h4, ?_⟩
  refine ⟨?_, ⟨top, hpushed, by rw [← hlen]; exact hroom⟩,
    hpushed.strings_overlay hstrs (by rw [hbytes]; exact hroom), ?_, haligned, hsp⟩
  · intro a ha
    rw [overlay_of_lt (.inl (by omega)), hsame a (.inl (by omega))]
  · intro i hi
    exact overlay_at (by rw [hbytes, hlen]; exact hi)

end Xv6.Vm
