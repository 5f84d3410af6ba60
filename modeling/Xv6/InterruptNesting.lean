import Xv6.Basic
import Xv6.Interrupts

/-! On every CPU `noff` is exact and interrupts are off while it is positive, and a process finds
interrupts as it left them, on whatever CPU it goes on. -/
namespace Xv6.Interrupts

open Function Transition Finset

variable {κ ι L : Type} [DecidableEq κ] [DecidableEq ι] [DecidableEq L]

/-- What is known of the flag that a process saved at its outermost `push_off`. -/
def Saved (s : State κ ι L) (p : ι) (b : Bool) : Prop :=
  match (s.thread (.proc p)).pc with
  | .normal => ∀ c, (s.cpu c).cur = some p →
      (s.cpu c).intena = b ∧ 0 < (s.thread (.proc p)).nest
  | .switched b' | .resuming b' => b' = b
  | .new => False

structure Inv (s : State κ ι L) : Prop where
  noff : ∀ c, (s.cpu c).noff = (s.here c).nest
  off : ∀ c, 0 < (s.cpu c).noff → (s.cpu c).sie = false
  lock : ∀ l c, s.lock l = some c ↔ l ∈ (s.here c).held
  once : ∀ c c' p, (s.cpu c).cur = some p → (s.cpu c').cur = some p → c = c'
  running : ∀ c p, (s.cpu c).cur = some p → (s.thread (.proc p)).pc = .normal ∨
    (∃ b, (s.thread (.proc p)).pc = .resuming b) ∧ (s.thread (.proc p)).nest = 1
  idle : ∀ d, (∀ c, s.code c ≠ d) → (s.thread d).nest = 0
  scheduler : ∀ c, (s.thread (.scheduler c)).pc = .normal
  saved : ∀ p b, (s.thread (.proc p)).outer = some b → Saved s p b

section
variable {s t : State κ ι L} {c c' : κ} {p : ι} {b : Bool} {x : Cpu ι} {y : Thread ι L}

omit [DecidableEq κ] [DecidableEq ι] [DecidableEq L]

lemma code_eq_proc : s.code c = .proc p ↔ (s.cpu c).cur = some p := by
  unfold State.code
  cases (s.cpu c).cur <;> simp

lemma code_eq_scheduler : s.code c = .scheduler c' ↔ (s.cpu c).cur = none ∧ c = c' := by
  unfold State.code
  cases (s.cpu c).cur <;> simp

lemma here_of_cur (h : (s.cpu c).cur = some p) : s.here c = s.thread (.proc p) := by
  rw [State.here, code_eq_proc.mpr h]

lemma here_of_none (h : (s.cpu c).cur = none) : s.here c = s.thread (.scheduler c) := by
  rw [State.here, code_eq_scheduler.mpr ⟨h, rfl⟩]

lemma Inv.code_injective (h : Inv s) (hc : s.code c = s.code c') : c = c' := by
  cases hcur : (s.cpu c').cur with
  | none => exact (code_eq_scheduler.mp (hc.trans (code_eq_scheduler.mpr ⟨hcur, rfl⟩))).2
  | some p => exact h.once c c' p (code_eq_proc.mp (hc.trans (code_eq_proc.mpr hcur))) hcur

lemma nest_eq_zero (hy : y.nest = 0) : y.held = ∅ ∧ y.pushes = 0 := by
  unfold Thread.nest at hy
  exact ⟨card_eq_zero.mp (by omega), by omega⟩

end

section
variable {s t : State κ ι L} {c : κ} {p : ι} {x : Cpu ι} {y : Thread ι L}

omit [DecidableEq L] in
lemma Inv.set (h : Inv s) (hcpu : t.cpu = update s.cpu c x)
    (hthread : t.thread = update s.thread (s.code c) y)
    (hlock : ∀ l, (t.lock l = some c ↔ l ∈ y.held) ∧
      ∀ c' ≠ c, t.lock l = some c' ↔ s.lock l = some c')
    (hcur : x.cur = (s.cpu c).cur) (hnoff : x.noff = y.nest) (hoff : 0 < x.noff → x.sie = false)
    (hpc : y.pc = .normal)
    (houter : ∀ b, s.code c ≠ .scheduler c → y.outer = some b → x.intena = b ∧ 0 < y.nest) :
    Inv t := by
  have hself : t.cpu c = x := by rw [hcpu, update_self]
  have hother : ∀ c' ≠ c, t.cpu c' = s.cpu c' := fun c' hc' => by
    rw [hcpu, update_of_ne hc']
  have hcurs : ∀ c', (t.cpu c').cur = (s.cpu c').cur := by
    intro c'
    by_cases hc' : c' = c
    · rw [hc', hself, hcur]
    · rw [hother c' hc']
  have hcode : ∀ c', t.code c' = s.code c' := fun c' => by rw [State.code, State.code, hcurs]
  have hhere : t.here c = y := by rw [State.here, hcode, hthread, update_self]
  have hheres : ∀ c' ≠ c, t.here c' = s.here c' := by
    intro c' hc'
    rw [State.here, hcode, hthread, update_of_ne]
    · rfl
    · exact fun heq => hc' (h.code_injective heq)
  have hthreads : ∀ d, d ≠ s.code c → t.thread d = s.thread d := fun d hd => by
    rw [hthread, update_of_ne hd]
  refine ⟨fun c' => ?_, fun c' => ?_, fun l c' => ?_, fun c1 c2 q => ?_, fun c' q hq => ?_,
    fun d hd => ?_, fun c' => ?_, fun q b hb => ?_⟩
  · by_cases hc' : c' = c
    · rw [hc', hself, hhere, hnoff]
    · rw [hother c' hc', hheres c' hc']
      exact h.noff c'
  · by_cases hc' : c' = c
    · rw [hc', hself]
      exact hoff
    · rw [hother c' hc']
      exact h.off c'
  · by_cases hc' : c' = c
    · rw [hc', hhere]
      exact (hlock l).1
    · rw [(hlock l).2 c' hc', hheres c' hc']
      exact h.lock l c'
  · rw [hcurs, hcurs]
    exact h.once c1 c2 q
  · rw [hcurs] at hq
    by_cases hd : (Code.proc q : Code κ ι) = s.code c
    · rw [hd, hthread, update_self]
      exact .inl hpc
    · rw [hthreads _ hd]
      exact h.running c' q hq
  · have hne : d ≠ s.code c := fun heq => hd c ((hcode c).trans heq.symm)
    rw [hthreads d hne]
    exact h.idle d fun c' heq => hd c' ((hcode c').trans heq)
  · by_cases hd : (Code.scheduler c' : Code κ ι) = s.code c
    · rw [hd, hthread, update_self]
      exact hpc
    · rw [hthreads _ hd]
      exact h.scheduler c'
  · by_cases hd : (Code.proc q : Code κ ι) = s.code c
    · have hq : (s.cpu c).cur = some q := code_eq_proc.mp hd.symm
      have hy : t.thread (.proc q) = y := by rw [hd, hthread, update_self]
      rw [hy] at hb
      simp only [Saved, hy, hpc]
      intro c' hc'
      rw [hcurs] at hc'
      have heq := h.once c' c q hc' hq
      rw [heq, hself]
      refine houter b ?_ hb
      rw [← hd]
      nofun
    · rw [hthreads _ hd] at hb
      have hsaved := h.saved q b hb
      unfold Saved at hsaved ⊢
      rw [hthreads _ hd]
      split at hsaved
      · intro c' hc'
        rw [hcurs] at hc'
        have hne : c' ≠ c := by
          rintro rfl
          exact hd (code_eq_proc.mpr hc').symm
        rw [hother c' hne]
        exact hsaved c' hc'
      all_goals exact hsaved

omit [DecidableEq L] in
lemma Inv.set_held (h : Inv s) (hcpu : t.cpu = update s.cpu c x)
    (hthread : t.thread = update s.thread (s.code c) y) (hlock : t.lock = s.lock)
    (hheld : y.held = (s.here c).held)
    (hcur : x.cur = (s.cpu c).cur) (hnoff : x.noff = y.nest) (hoff : 0 < x.noff → x.sie = false)
    (hpc : y.pc = .normal)
    (houter : ∀ b, s.code c ≠ .scheduler c → y.outer = some b → x.intena = b ∧ 0 < y.nest) :
    Inv t := by
  refine h.set hcpu hthread (fun l => ?_) hcur hnoff hoff hpc houter
  rw [hlock, hheld]
  exact ⟨h.lock l c, fun _ _ => Iff.rfl⟩

omit [DecidableEq κ] [DecidableEq ι] [DecidableEq L] in
lemma Inv.saved_here (h : Inv s) (hpc : (s.here c).pc = .normal) {b : Bool}
    (hne : s.code c ≠ .scheduler c) (hb : (s.here c).outer = some b) :
    (s.cpu c).intena = b ∧ 0 < (s.here c).nest := by
  cases hcur : (s.cpu c).cur with
  | none => exact absurd (code_eq_scheduler.mpr ⟨hcur, rfl⟩) hne
  | some p =>
    rw [here_of_cur hcur] at hpc hb ⊢
    have hsaved := h.saved p b hb
    simp only [Saved, hpc] at hsaved
    exact hsaved c hcur

omit [DecidableEq L] in
lemma Inv.pushOff (h : Inv s) (hpc : (s.here c).pc = .normal) : Inv (s.pushOff c) := by
  refine h.set_held rfl rfl rfl rfl rfl ?_ (fun _ => rfl) hpc ?_
  · have hnoff := h.noff c
    simp only [Thread.nest] at hnoff ⊢
    omega
  · intro b hne hb
    have hnoff := h.noff c
    refine ⟨?_, Nat.succ_pos _⟩
    dsimp only at hb ⊢
    rw [hnoff]
    split_ifs at hb ⊢
    · exact Option.some.inj hb
    · exact (h.saved_here hpc hne hb).1

omit [DecidableEq L] in
lemma Inv.popOff (h : Inv s) (hpc : (s.here c).pc = .normal) (hpos : 0 < (s.here c).pushes)
    (ht : s.popOff c = some t) : Inv t := by
  have hnoff := h.noff c
  have hnest : (s.here c).nest = (s.here c).held.card + (s.here c).pushes := rfl
  unfold State.popOff at ht
  dsimp only at ht
  by_cases hsie : (s.cpu c).sie
  · rw [if_pos hsie] at ht
    cases ht
  rw [if_neg hsie, if_neg (by omega)] at ht
  cases ht
  refine h.set_held rfl rfl rfl rfl rfl ?_ ?_ hpc ?_
  · change (s.cpu c).noff - 1 = (s.here c).held.card + ((s.here c).pushes - 1)
    omega
  · intro hgt
    have hne : ¬(s.cpu c).noff - 1 = 0 := Nat.pos_iff_ne_zero.mp hgt
    simp only [hne, decide_false, Bool.false_and]
  · intro b hne hb
    dsimp only at hb ⊢
    split_ifs at hb with hone
    obtain ⟨hint, hgt⟩ := h.saved_here hpc hne hb
    refine ⟨hint, ?_⟩
    change 0 < (s.here c).held.card + ((s.here c).pushes - 1)
    omega

lemma Inv.testAndSet (h : Inv s) {l : Lock ι L} (hpc : (s.here c).pc = .normal)
    (hpos : 0 < (s.here c).pushes) (hl : s.lock l = none) :
    Inv ((s.set c (s.cpu c) { s.here c with
      held := insert l (s.here c).held, pushes := (s.here c).pushes - 1 }).setLock l (some c)) := by
  have hnot : l ∉ (s.here c).held := by
    intro hmem
    rw [(h.lock l c).mpr hmem] at hl
    cases hl
  have hnest : ({ s.here c with
      held := insert l (s.here c).held, pushes := (s.here c).pushes - 1 } : Thread ι L).nest =
      (s.here c).nest := by
    simp only [Thread.nest, card_insert_of_notMem hnot]
    omega
  refine h.set rfl rfl (fun m => ?_) rfl ?_ (h.off c) hpc ?_
  · by_cases hm : m = l
    · subst hm
      simp only [State.setLock, update_self, mem_insert_self, true_and]
      intro c' hc'
      rw [hl]
      exact iff_of_false (fun heq => hc' (Option.some.inj heq).symm) nofun
    · simp only [State.setLock, update_of_ne hm, mem_insert, hm, false_or]
      exact ⟨h.lock m c, fun _ _ => Iff.rfl⟩
  · rw [hnest]
    exact h.noff c
  · intro b hne hb
    rw [hnest]
    exact h.saved_here hpc hne hb

lemma Inv.clear (h : Inv s) {l : Lock ι L} (hpc : (s.here c).pc = .normal)
    (hl : l ∈ (s.here c).held) :
    Inv ((s.set c (s.cpu c) { s.here c with
      held := (s.here c).held.erase l, pushes := (s.here c).pushes + 1 }).setLock l none) := by
  have hnest : ({ s.here c with
      held := (s.here c).held.erase l, pushes := (s.here c).pushes + 1 } : Thread ι L).nest =
      (s.here c).nest := by
    have hcard := card_pos.mpr ⟨l, hl⟩
    simp only [Thread.nest, card_erase_of_mem hl]
    omega
  refine h.set rfl rfl (fun m => ?_) rfl ?_ (h.off c) hpc ?_
  · by_cases hm : m = l
    · subst hm
      simp only [State.setLock, update_self, mem_erase, ne_eq, not_true, false_and]
      refine ⟨by simp, fun c' hc' => ?_⟩
      rw [(h.lock m c).mpr hl]
      exact iff_of_false nofun fun heq => hc' (Option.some.inj heq).symm
    · simp only [State.setLock, update_of_ne hm, mem_erase, ne_eq, hm,
        not_false_eq_true, true_and]
      exact ⟨h.lock m c, fun _ _ => Iff.rfl⟩
  · rw [hnest]
    exact h.noff c
  · intro b hne hb
    rw [hnest]
    exact h.saved_here hpc hne hb

omit [DecidableEq L] in
/-- `swtch`: the code on `c` changes, and what has to be undone passes to the new code. -/
lemma Inv.swtch (h : Inv s) {d : Code κ ι} {y0 : Thread ι L}
    (hcpu : t.cpu = update s.cpu c x)
    (hthread : t.thread = update (update s.thread (s.code c) y0) d y)
    (hlock : t.lock = s.lock) (hnoff : x.noff = (s.cpu c).noff) (hsie : x.sie = (s.cpu c).sie)
    (hcode : t.code c = d) (hnew : ∀ c', s.code c' ≠ d) (hy0 : y0.nest = 0)
    (hheld : y.held = (s.here c).held) (hnest : y.nest = (s.here c).nest)
    (hrun : ∀ p, d = .proc p → y.pc = .normal ∨ (∃ b, y.pc = .resuming b) ∧ y.nest = 1)
    (hsched : (∀ c', d = .scheduler c' → y.pc = .normal) ∧
      ∀ c', s.code c = .scheduler c' → y0.pc = .normal)
    (hsaved : ∀ p b, d = .proc p ∨ s.code c = .proc p → (t.thread (.proc p)).outer = some b →
      Saved t p b) : Inv t := by
  have hself : t.cpu c = x := by rw [hcpu, update_self]
  have hother : ∀ c' ≠ c, t.cpu c' = s.cpu c' := fun c' hc' => by
    rw [hcpu, update_of_ne hc']
  have hcodes : ∀ c' ≠ c, t.code c' = s.code c' := fun c' hc' => by
    rw [State.code, State.code, hother c' hc']
  have hhere : t.here c = y := by rw [State.here, hcode, hthread, update_self]
  have hthreads : ∀ e, e ≠ s.code c → e ≠ d → t.thread e = s.thread e := fun e he hed => by
    rw [hthread, update_of_ne hed, update_of_ne he]
  have hheres : ∀ c' ≠ c, t.here c' = s.here c' := by
    intro c' hc'
    rw [State.here, hcodes c' hc']
    exact hthreads _ (fun heq => hc' (h.code_injective heq)) (hnew c')
  have hold : t.thread (s.code c) = y0 := by
    rw [hthread, update_of_ne (hnew c), update_self]
  -- a process that ran on another CPU runs there still, and is neither the old nor the new code
  have helse : ∀ c' p, (t.cpu c').cur = some p → c' ≠ c →
      (s.cpu c').cur = some p ∧ Code.proc p ≠ s.code c ∧ Code.proc p ≠ d := by
    intro c' p hp hc'
    rw [hother c' hc'] at hp
    have hcp := code_eq_proc.mpr hp
    exact ⟨hp, fun heq => hc' (h.code_injective (hcp.trans heq)), fun heq => hnew c' (hcp.trans heq)⟩
  refine ⟨fun c' => ?_, fun c' => ?_, fun l c' => ?_, fun c1 c2 p h1 h2 => ?_, fun c' p hp => ?_,
    fun e he => ?_, fun c' => ?_, fun p b hb => ?_⟩
  · by_cases hc' : c' = c
    · rw [hc', hself, hhere, hnoff, hnest]
      exact h.noff c
    · rw [hother c' hc', hheres c' hc']
      exact h.noff c'
  · by_cases hc' : c' = c
    · rw [hc', hself, hnoff, hsie]
      exact h.off c
    · rw [hother c' hc']
      exact h.off c'
  · rw [hlock]
    by_cases hc' : c' = c
    · rw [hc', hhere, hheld]
      exact h.lock l c
    · rw [hheres c' hc']
      exact h.lock l c'
  · by_cases hc1 : c1 = c
    · by_cases hc2 : c2 = c
      · rw [hc1, hc2]
      · rw [hc1] at h1
        exact absurd ((code_eq_proc.mpr h1).symm.trans hcode) (helse c2 p h2 hc2).2.2
    · by_cases hc2 : c2 = c
      · rw [hc2] at h2
        exact absurd ((code_eq_proc.mpr h2).symm.trans hcode) (helse c1 p h1 hc1).2.2
      · exact h.once c1 c2 p (helse c1 p h1 hc1).1 (helse c2 p h2 hc2).1
  · by_cases hc' : c' = c
    · rw [hc'] at hp
      have hd : d = .proc p := hcode.symm.trans (code_eq_proc.mpr hp)
      rw [← hd, ← hcode]
      change (t.here c).pc = _ ∨ (∃ b, (t.here c).pc = _) ∧ (t.here c).nest = 1
      rw [hhere]
      exact hrun p hd
    · obtain ⟨hps, hne, hned⟩ := helse c' p hp hc'
      rw [hthreads _ hne hned]
      exact h.running c' p hps
  · have hed : e ≠ d := fun heq => he c (hcode.trans heq.symm)
    by_cases hes : e = s.code c
    · rw [hes, hold]
      exact hy0
    · rw [hthreads e hes hed]
      refine h.idle e fun c' heq => ?_
      by_cases hc' : c' = c
      · exact hes (hc' ▸ heq.symm)
      · exact he c' ((hcodes c' hc').trans heq)
  · by_cases hd : (Code.scheduler c' : Code κ ι) = d
    · rw [hd, ← hcode]
      change (t.here c).pc = _
      rw [hhere]
      exact hsched.1 c' hd.symm
    · by_cases hs : (Code.scheduler c' : Code κ ι) = s.code c
      · rw [hs, hold]
        exact hsched.2 c' hs.symm
      · rw [hthreads _ hs hd]
        exact h.scheduler c'
  · by_cases hd : d = .proc p ∨ s.code c = .proc p
    · exact hsaved p b hd hb
    · rw [not_or] at hd
      rw [hthreads _ (Ne.symm hd.2) (Ne.symm hd.1)] at hb
      have hsv := h.saved p b hb
      unfold Saved at hsv ⊢
      rw [hthreads _ (Ne.symm hd.2) (Ne.symm hd.1)]
      split at hsv
      · intro c' hc'
        have hne : c' ≠ c := by
          rintro rfl
          exact hd.1 (hcode.symm.trans (code_eq_proc.mpr hc'))
        rw [hother c' hne]
        exact hsv c' (helse c' p hc' hne).1
      all_goals exact hsv

omit [DecidableEq κ] [DecidableEq ι] [DecidableEq L] in
lemma Inv.held_singleton (h : Inv s) {l : Lock ι L} (hl : s.lock l = some c)
    (hone : (s.cpu c).noff = 1) : (s.here c).held = {l} ∧ (s.here c).pushes = 0 := by
  have hmem := (h.lock l c).mp hl
  have hnest : (s.cpu c).noff = (s.here c).held.card + (s.here c).pushes := h.noff c
  have hcard := card_pos.mpr ⟨l, hmem⟩
  refine ⟨?_, by omega⟩
  obtain ⟨m, hm⟩ := card_eq_one.mp (by omega : (s.here c).held.card = 1)
  rw [hm] at hmem ⊢
  rw [mem_singleton.mp hmem]

lemma Inv.sched (h : Inv s) (hcur : (s.cpu c).cur = some p) (hpc : (s.here c).pc = .normal)
    (ht : s.sched c p = some t) : Inv t := by
  unfold State.sched at ht
  dsimp only at ht
  split_ifs at ht with hguard
  cases ht
  obtain ⟨hl, hone, -⟩ := hguard
  have hhere := here_of_cur hcur
  have hcode := code_eq_proc.mpr hcur
  obtain ⟨hheld, hpushes⟩ := h.held_singleton hl hone
  have hnew : ∀ c', s.code c' ≠ .scheduler c := by
    intro c' heq
    obtain ⟨hnone, rfl⟩ := code_eq_scheduler.mp heq
    rw [hcur] at hnone
    cases hnone
  obtain ⟨hempty, hzero⟩ := nest_eq_zero (h.idle _ hnew)
  rw [hhere] at hheld hpushes hpc
  refine h.swtch (d := .scheduler c) rfl (by rw [hcode]; rfl) rfl rfl rfl ?_ hnew ?_ ?_ ?_ nofun
    ⟨fun _ _ => ?_, fun c' hc' => ?_⟩ ?_
  · exact code_eq_scheduler.mpr ⟨by simp [State.setThread, State.setCpu], rfl⟩
  · simp [Thread.nest, hheld, hpushes]
  · rw [hhere, hheld, hempty]
    rfl
  · rw [hhere]
    simp [Thread.nest, hheld, hpushes, hempty, hzero]
  · exact h.scheduler c
  · rw [hcode] at hc'
    cases hc'
  · intro q b hq hb
    rcases hq with hq | hq
    · cases hq
    · rw [hcode] at hq
      cases hq
      simp only [State.setThread, update_of_ne (nofun : Code.proc p ≠ Code.scheduler c),
        update_self, Saved] at hb ⊢
      have hsaved := h.saved p b hb
      simp only [Saved, hpc] at hsaved
      exact (hsaved c hcur).1

lemma Inv.dispatch (h : Inv s) (ht : s.dispatch c p = some t) : Inv t := by
  unfold State.dispatch at ht
  dsimp only at ht
  split_ifs at ht with hguard
  obtain ⟨hcur, hheld, hpushes⟩ := hguard
  have hhere := here_of_none hcur
  have hcode : s.code c = .scheduler c := code_eq_scheduler.mpr ⟨hcur, rfl⟩
  have hstopped : (∃ b, (s.thread (.proc p)).pc = .switched b) ∨ (s.thread (.proc p)).pc = .new →
      ∀ c', s.code c' ≠ .proc p := by
    intro hpc c' heq
    rcases h.running c' p (code_eq_proc.mp heq) with hrun | ⟨⟨b, hrun⟩, -⟩ <;>
      rw [hrun] at hpc <;> simp at hpc
  have hcpu : ∀ (y0 y1 : Thread ι L), (((s.setCpu c { s.cpu c with cur := some p }).setThread
      (.scheduler c) y0).setThread (.proc p) y1).code c = .proc p :=
    fun _ _ => code_eq_proc.mpr (by simp [State.setThread, State.setCpu])
  cases hpc : (s.thread (.proc p)).pc with
  | switched b =>
    rw [hpc] at ht
    cases ht
    have hnew := hstopped (.inl ⟨b, hpc⟩)
    obtain ⟨hempty, hzero⟩ := nest_eq_zero (h.idle _ hnew)
    refine h.swtch (d := .proc p) rfl (by rw [hcode]; rfl) rfl rfl rfl (hcpu _ _) hnew ?_ ?_ ?_
      (fun q hq => .inr ⟨⟨b, rfl⟩, ?_⟩) ⟨nofun, fun _ _ => ?_⟩ ?_
    · simp [Thread.nest, hheld, hpushes]
    · rw [hhere, hheld, hempty]
      rfl
    · rw [hhere]
      simp [Thread.nest, hheld, hpushes, hempty, hzero]
    · simp [Thread.nest, hempty, hzero]
    · exact h.scheduler c
    · intro q b' hq hb
      rw [hcode] at hq
      cases hq.resolve_right nofun
      simp only [State.setThread, update_self, Saved] at hb ⊢
      have hsaved := h.saved p b' hb
      simp only [Saved, hpc] at hsaved
      exact hsaved
  | new =>
    rw [hpc] at ht
    cases ht
    have hnew := hstopped (.inr hpc)
    obtain ⟨hempty, hzero⟩ := nest_eq_zero (h.idle _ hnew)
    refine h.swtch (d := .proc p) rfl (by rw [hcode]; rfl) rfl rfl rfl (hcpu _ _) hnew ?_ ?_ ?_
      (fun q hq => .inl rfl) ⟨nofun, fun _ _ => ?_⟩ ?_
    · simp [Thread.nest, hheld, hpushes]
    · rw [hhere, hheld, hempty]
      rfl
    · rw [hhere]
      simp [Thread.nest, hheld, hpushes, hempty, hzero]
    · exact h.scheduler c
    · intro q b' hq hb
      rw [hcode] at hq
      cases hq.resolve_right nofun
      simp only [State.setThread, update_self] at hb
      have hsaved := h.saved p b' hb
      simp only [Saved, hpc] at hsaved
  | normal =>
    rw [hpc] at ht
    cases ht
  | resuming b =>
    rw [hpc] at ht
    cases ht

omit [DecidableEq L] in
lemma Inv.setSie (h : Inv s) (hpc : (s.here c).pc = .normal) (hnest : (s.here c).nest = 0) (b : Bool) :
    Inv (s.setCpu c { s.cpu c with sie := b }) := by
  refine h.set_held rfl (update_eq_self _ _).symm rfl rfl rfl (h.noff c) ?_ hpc
    (fun b hne hb => h.saved_here hpc hne hb)
  intro hpos
  have hnoff : (s.cpu c).noff = 0 := (h.noff c).trans hnest
  exact absurd hpos (by rw [hnoff]; exact lt_irrefl 0)

omit [DecidableEq L] in
lemma Inv.restore (h : Inv s) {b : Bool} (hpc : (s.here c).pc = .resuming b) :
    Inv (s.set c { s.cpu c with intena := b } { s.here c with pc := .normal }) := by
  refine h.set_held rfl rfl rfl rfl rfl (h.noff c) (h.off c) rfl ?_
  intro b' hne hb
  cases hcur : (s.cpu c).cur with
  | none => exact absurd (code_eq_scheduler.mpr ⟨hcur, rfl⟩) hne
  | some p =>
    have hhere := here_of_cur hcur
    rw [hhere] at hpc hb
    have hsaved := h.saved p b' hb
    simp only [Saved, hpc] at hsaved
    refine ⟨hsaved, ?_⟩
    change 0 < (s.here c).nest
    rw [hhere]
    rcases h.running c p hcur with hrun | ⟨-, hone⟩
    · rw [hpc] at hrun
      cases hrun
    · omega

omit [DecidableEq L] in
lemma Inv.allocproc (h : Inv s)
    (hpc : (∃ b, (s.thread (.proc p)).pc = .switched b) ∨ (s.thread (.proc p)).pc = .new) :
    Inv (s.setThread (.proc p) ⟨.new, (s.thread (.proc p)).held, (s.thread (.proc p)).pushes, 0,
      none⟩) := by
  have hstopped : ∀ c', s.code c' ≠ .proc p := by
    intro c' heq
    rcases h.running c' p (code_eq_proc.mp heq) with hrun | ⟨⟨b, hrun⟩, -⟩ <;>
      rw [hrun] at hpc <;> simp at hpc
  set t := s.setThread (.proc p) ⟨.new, (s.thread (.proc p)).held, (s.thread (.proc p)).pushes, 0,
    none⟩
  have hself : t.thread (.proc p) = ⟨.new, (s.thread (.proc p)).held, (s.thread (.proc p)).pushes, 0,
    none⟩ := update_self ..
  have hother : ∀ d, d ≠ .proc p → t.thread d = s.thread d := fun d hd => update_of_ne hd _ _
  have hhere : ∀ c, t.here c = s.here c := fun c => hother _ (hstopped c)
  refine ⟨fun c => ?_, h.off, fun l c => ?_, h.once, fun c q hq => ?_, fun d hd => ?_, fun c => ?_,
    fun q b hb => ?_⟩
  · rw [hhere]
    exact h.noff c
  · rw [hhere]
    exact h.lock l c
  · rw [hother _ fun heq => hstopped c ((code_eq_proc.mpr hq).trans heq)]
    exact h.running c q hq
  · have hnest := h.idle d hd
    by_cases hdp : d = .proc p
    · rw [hdp, hself]
      rw [hdp] at hnest
      exact hnest
    · rw [hother d hdp]
      exact hnest
  · rw [hother (.scheduler c) (by nofun)]
    exact h.scheduler c
  · by_cases hqp : q = p
    · rw [hqp, hself] at hb
      cases hb
    · have hne : (Code.proc q : Code κ ι) ≠ .proc p := fun heq => hqp (Code.proc.inj heq)
      rw [hother _ hne] at hb
      have hsaved := h.saved q b hb
      unfold Saved at hsaved ⊢
      rw [hother _ hne]
      exact hsaved

lemma Inv.next {e : Event κ ι L} (h : Inv s) (ht : next s e = some t) : Inv t := by
  cases e with
  | pushOff c =>
    simp only [Interrupts.next] at ht
    split_ifs at ht with hpc
    cases ht
    exact h.pushOff hpc
  | popOff c =>
    simp only [Interrupts.next] at ht
    split_ifs at ht with hg
    exact h.popOff hg.1 hg.2 ht
  | testAndSet c l =>
    simp only [Interrupts.next] at ht
    split_ifs at ht with hg
    cases ht
    exact h.testAndSet hg.1 hg.2.1 hg.2.2
  | clear c l =>
    simp only [Interrupts.next] at ht
    split_ifs at ht with hg
    cases ht
    exact h.clear hg.1 hg.2.1
  | intrOn c =>
    simp only [Interrupts.next] at ht
    split_ifs at ht with hg
    cases ht
    exact h.setSie hg.1 hg.2 true
  | intrOff c =>
    simp only [Interrupts.next] at ht
    split_ifs at ht with hg
    cases ht
    exact h.setSie hg.1 hg.2 false
  | trap c =>
    simp only [Interrupts.next] at ht
    split_ifs at ht with hg
    cases ht
    exact h.set_held rfl rfl rfl rfl rfl (h.noff c) (fun _ => rfl) hg.1
      fun b hne hb => h.saved_here hg.1 hne hb
  | sret c =>
    simp only [Interrupts.next] at ht
    split_ifs at ht with hg
    cases ht
    refine h.set_held rfl rfl rfl rfl rfl (h.noff c) (fun hpos => ?_) hg.1
      fun b hne hb => h.saved_here hg.1 hne hb
    have hnoff : (s.cpu c).noff = 0 := (h.noff c).trans hg.2.2
    exact absurd hpos (by rw [hnoff]; exact lt_irrefl 0)
  | sched c =>
    simp only [Interrupts.next] at ht
    split at ht
    · rename_i p hcur
      split_ifs at ht with hpc
      exact h.sched hcur hpc ht
    · cases ht
  | dispatch c p => exact h.dispatch ht
  | restore c =>
    simp only [Interrupts.next] at ht
    split at ht
    · rename_i b hpc
      cases ht
      exact h.restore hpc
    · cases ht
  | allocproc p =>
    simp only [Interrupts.next] at ht
    split at ht
    · rename_i b hpc
      cases ht
      exact h.allocproc (.inl ⟨b, hpc⟩)
    · rename_i hpc
      cases ht
      exact h.allocproc (.inr hpc)
    · cases ht

omit [DecidableEq κ] [DecidableEq ι] [DecidableEq L] in
lemma inv_boot : Inv (boot : State κ ι L) where
  noff _ := rfl
  off _ h := absurd h (lt_irrefl 0)
  lock _ _ := ⟨nofun, nofun⟩
  once _ _ _ := nofun
  running _ _ := nofun
  idle d _ := by cases d <;> rfl
  scheduler _ := rfl
  saved _ _ := nofun

/-- On every CPU `noff` counts the spinlocks held and the open `push_off`s, interrupts are off while
it is not 0, and the outermost `pop_off` of a process turns them on again if they were on when it did
its outermost `push_off`. -/
theorem nesting_exact {es : List (Event κ ι L)}
    (h : Run (fun s e t => next s e = some t) boot es s) :
    (∀ c, (s.cpu c).noff = (s.here c).held.card + (s.here c).pushes) ∧
      (∀ l c, s.lock l = some c ↔ l ∈ (s.here c).held) ∧
      (∀ c, 0 < (s.cpu c).noff → (s.cpu c).sie = false) ∧
      (∀ c t, next s (.trap c) = some t → ∀ l, s.lock l ≠ some c) ∧
      ∀ c p b t, (s.cpu c).cur = some p → (s.thread (.proc p)).outer = some b →
        next s (.popOff c) = some t → (t.cpu c).noff = 0 → (t.cpu c).sie = b := by
  have hinv : Inv s := h.invariant (I := Inv) (fun _ _ _ hi hst => hi.next hst) inv_boot
  refine ⟨hinv.noff, hinv.lock, hinv.off, fun c t ht l hl => ?_, fun c p b t hcur hb ht hzero => ?_⟩
  · simp only [next] at ht
    split_ifs at ht with hg
    have hpos := card_pos.mpr ⟨l, (hinv.lock l c).mp hl⟩
    have hnoff : (s.cpu c).noff = (s.here c).held.card + (s.here c).pushes := hinv.noff c
    rw [hinv.off c (by omega)] at hg
    exact absurd hg.2 Bool.false_ne_true
  · simp only [next] at ht
    split_ifs at ht with hg
    have hsaved := hinv.saved_here hg.1 (by rw [code_eq_proc.mpr hcur]; nofun)
      (by rw [here_of_cur hcur]; exact hb)
    unfold State.popOff at ht
    dsimp only at ht
    split_ifs at ht
    all_goals cases ht
    all_goals simp only [State.set, State.setThread, State.setCpu, update_self] at hzero ⊢
    all_goals rw [hzero, hsaved.1]
    all_goals rfl

attribute [local instance] neZero_two in
/-- A process takes its lock with interrupts on, gives up CPU 0, and releases the lock on CPU 1. -/
def migration : List (Event (Fin 2) (Fin 1) Unit) :=
  [.pushOff 0, .testAndSet 0 (.proc 0), .dispatch 0 0, .clear 0 (.proc 0), .popOff 0, .intrOn 0,
    .pushOff 0, .testAndSet 0 (.proc 0), .sched 0, .clear 0 (.proc 0), .popOff 0, .pushOff 1,
    .testAndSet 1 (.proc 0), .dispatch 1 0, .restore 1, .clear 1 (.proc 0)]

theorem nesting_exact_migration : ∃ s t : State (Fin 2) (Fin 1) Unit,
    Run (fun s e t => next s e = some t) boot migration s ∧
      (s.thread (.proc 0)).outer = some true ∧ next s (.popOff 1) = some t ∧
      (t.cpu 1).sie = true := by
  obtain ⟨s, hrun, hs⟩ := exists_run_of_replay
    (f := next) (G := fun _ _ => True)
    (P := fun s : State (Fin 2) (Fin 1) Unit => (s.cpu 1).cur = some 0 ∧
      (s.thread (.proc 0)).outer = some true ∧
      ((next s (.popOff 1)).map fun t => (t.cpu 1).noff) = some 0)
    (s := boot) (l := migration) (by decide +kernel)
  obtain ⟨hcur, houter, hpop⟩ := of_decide_eq_true hs
  obtain ⟨t, ht, hzero⟩ := Option.map_eq_some_iff.mp hpop
  have hrun' := hrun.mono fun _ _ _ h => h.2
  exact ⟨s, t, hrun', houter, ht, (nesting_exact hrun').2.2.2.2 1 0 true t hcur houter ht hzero⟩

end

end Xv6.Interrupts
