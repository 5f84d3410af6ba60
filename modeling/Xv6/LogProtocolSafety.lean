import Xv6.LogProtocolInvariant

/-! Every step of the log protocol keeps its invariant. -/
namespace Xv6.LogProtocol

open Function Transition Sys

variable {ι : Type*} [DecidableEq ι]

variable {c d : Pc ι}

omit [DecidableEq ι] in
theorem acquired_spec (h : c.acquired = some d) :
    c.holdsLog = false ∧ d.holdsLog = true ∧ c.holdsProc = false ∧ d.holdsProc = false ∧
    d.active = c.active ∧ d.committer = c.committer ∧ d.cleared = c.cleared ∧
    c.dozing = false ∧ d.dozing = false ∧ c.parked = false ∧ d.parked = false := by
  cases c <;> simp only [Pc.acquired, Option.some.injEq, reduceCtorEq] at h <;> subst h <;>
    simp [Pc.holdsLog, Pc.holdsProc, Pc.active, Pc.committer, Pc.cleared, Pc.dozing, Pc.parked]

lemma silent_spec {log : Log} (h : c.silent log = some d) :
    d.holdsLog = c.holdsLog ∧ d.holdsProc = c.holdsProc ∧
    d.active = c.active ∧ d.committer = c.committer ∧ c.parked = false ∧ d.parked = false ∧
    (d.cleared = true → c.cleared = true ∨ log.lh = []) ∧
    (d.dozing = true → log.mustWait) ∧ (∀ q, c.wakes q = false) := by
  cases c with
  | beginTest =>
    simp only [Pc.silent] at h
    split_ifs at h with hw
    cases h
    simp [Pc.holdsLog, Pc.holdsProc, Pc.active, Pc.committer, Pc.cleared, Pc.dozing, Pc.parked,
      Pc.wakes, hw]
  | commitTest =>
    simp only [Pc.silent, Option.some.injEq] at h
    subst h
    split_ifs with hn
    · simp [Pc.holdsLog, Pc.holdsProc, Pc.active, Pc.committer, Pc.cleared, Pc.dozing, Pc.parked,
        Pc.wakes]
    · have : log.lh = [] := by simpa [Log.n] using hn
      simp [Pc.holdsLog, Pc.holdsProc, Pc.active, Pc.committer, Pc.cleared, Pc.dozing, Pc.parked,
        Pc.wakes, this]
  | endWake todo | commitWake todo =>
    cases todo <;> simp only [Pc.silent, Option.some.injEq, reduceCtorEq] at h
    subst h
    simp [Pc.holdsLog, Pc.holdsProc, Pc.active, Pc.committer, Pc.cleared, Pc.dozing, Pc.parked,
        Pc.wakes]
  | commit phase =>
    cases phase <;> simp only [Pc.silent, Option.some.injEq, reduceCtorEq] at h <;> subst h <;>
    simp [Pc.holdsLog, Pc.holdsProc, Pc.active, Pc.committer, Pc.cleared, Pc.dozing, Pc.parked,
        Pc.wakes]
  | _ => simp [Pc.silent] at h

lemma released_spec (h : c.released = some d) :
    c.holdsLog = true ∧ d.holdsLog = false ∧ d.holdsProc = c.holdsProc ∧
    d.active = c.active ∧ d.committer = c.committer ∧ d.cleared = false ∧
    (d.dozing = true → c.dozing = true) ∧ c.parked = false ∧ d.parked = false ∧
    ∀ q, c.wakes q = false := by
  cases c <;> simp only [Pc.released, Option.some.injEq, reduceCtorEq] at h <;> subst h
  case endRelease b => cases b <;> simp [Pc.holdsLog, Pc.holdsProc, Pc.active,
    Pc.committer, Pc.cleared, Pc.dozing, Pc.parked, Pc.wakes]
  all_goals simp [Pc.holdsLog, Pc.holdsProc, Pc.active,
    Pc.committer, Pc.cleared, Pc.dozing, Pc.parked, Pc.wakes]

variable {q : ι}

theorem waking_spec (h : c.waking = some (q, d)) :
    c.holdsLog = true ∧ d.holdsLog = true ∧ c.holdsProc = false ∧ d.holdsProc = false ∧
    c.active = false ∧ d.active = false ∧ c.committer = false ∧ d.committer = false ∧
    c.cleared = false ∧ d.cleared = false ∧
    c.dozing = false ∧ d.dozing = false ∧ c.parked = false ∧ d.parked = false ∧
    ∀ r, c.wakes r = true → r = q ∨ d.wakes r = true := by
  cases c with
  | endWake todo | commitWake todo =>
    cases todo <;> simp only [Pc.waking, Option.some.injEq, reduceCtorEq, Prod.mk.injEq] at h
    obtain ⟨rfl, rfl⟩ := h
    simp [Pc.holdsLog, Pc.holdsProc, Pc.active,
    Pc.committer, Pc.cleared, Pc.dozing, Pc.parked, Pc.wakes]
  | _ => simp [Pc.waking] at h

variable {procs : List ι} {s t : Sys ι} {p : ι}

lemma lockInv_move (hI : LockInv s)
    (hm : Move procs s p t) : LockInv t := by
  obtain ⟨h1, h2⟩ := hI
  cases hm with
  | acquire hc hl =>
    obtain ⟨_, _, _, _, _⟩ := acquired_spec hc
    constructor <;> simp only [goto, setLock] <;> grind
  | silent hc =>
    obtain ⟨_, _, _, _, _, _, _, _⟩ := silent_spec hc
    constructor <;> simp only [goto] <;> grind
  | release hc =>
    obtain ⟨_, _, _, _, _, _, _, _⟩ := released_spec hc
    constructor <;> simp only [goto, setLock] <;> grind
  | wakeSkip hc | wakeOne hc =>
    obtain ⟨_, _, _, _, _, _, _, _⟩ := waking_spec hc
    constructor <;> simp only [goto, setState] <;> grind
  | _ =>
    constructor <;> simp only [goto, setLock, setLog, setPlock, setChan,
      setState, setPanic] <;> grind [Pc.holdsLog, Pc.holdsProc]

variable [Fintype ι]

lemma CommitInv.move (hI : CommitInv s)
    (hpc : t.pc = update s.pc p c)
    (ho : t.log.outstanding + ((s.pc p).active).toNat = s.log.outstanding + c.active.toNat)
    (hcm : t.log.committing = s.log.committing) (hc : c.committer = (s.pc p).committer)
    (halone : s.log.committing = true → t.log.outstanding = 0)
    (hidle : s.log.committing = false → t.log.outstanding = 0 → t.log.lh = [])
    (hcl : c.cleared = true → t.log.lh = []) (hlh : s.log.lh = [] → s.log.committing = true →
      t.log.lh = []) (hnd : t.log.lh.Nodup) : CommitInv t := by
  have hcount := countActive_update s.pc p c
  have hcmt : ∀ q, (update s.pc p c q).committer = (s.pc q).committer := by
    intro q
    by_cases hq : q = p
    · subst hq; simp [hc]
    · simp [hq]
  refine ⟨?_, ?_, ?_, ?_, ?_, ?_, ?_, hnd⟩ <;> simp only [hpc, hcm, hcmt]
  · have := hI.outstanding
    omega
  · exact hI.committing
  · exact hI.committer
  · exact hI.unique
  · exact halone
  · exact hidle
  · intro q hq
    by_cases hqp : q = p
    · subst hqp
      exact hcl (by simpa using hq)
    · rw [update_of_ne hqp] at hq
      refine hlh (hI.cleared q hq) (hI.committing q ?_)
      revert hq
      cases s.pc q <;> simp [Pc.cleared, Pc.committer]

lemma CommitInv.move_log (hI : CommitInv s)
    (hlog : t.log = s.log) (hpc : t.pc = update s.pc p c)
    (ha : c.active = (s.pc p).active) (hc : c.committer = (s.pc p).committer)
    (hcl : c.cleared = true → (s.pc p).cleared = true ∨ s.log.lh = []) : CommitInv t := by
  refine hI.move hpc (by rw [hlog, ha]) (by rw [hlog]) hc ?_ ?_ ?_ ?_ ?_ <;> rw [hlog]
  · exact hI.alone
  · exact hI.idle
  · exact fun h => (hcl h).elim (hI.cleared p) id
  · exact fun h _ => h
  · exact hI.nodup

lemma commitInv_move (hI : CommitInv s)
    (hm : Move procs s p t) : CommitInv t := by
  cases hm with
  | acquire hc hl =>
    obtain ⟨_, _, _, _, ha, hcm, hcl, _⟩ := acquired_spec hc
    exact hI.move_log rfl rfl ha hcm (by rw [hcl]; exact Or.inl)
  | silent hc =>
    obtain ⟨_, _, ha, hcm, _, _, hcl, _⟩ := silent_spec hc
    exact hI.move_log rfl rfl ha hcm hcl
  | release hc =>
    obtain ⟨_, _, _, ha, hcm, hcl, _⟩ := released_spec hc
    exact hI.move_log rfl rfl ha hcm (by simp [hcl])
  | wakeSkip hc | wakeOne hc =>
    obtain ⟨_, _, _, _, ha, ha', hcm, hcm', hcl, hcl', _⟩ := waking_spec hc
    exact hI.move_log rfl rfl (ha'.trans ha.symm) (hcm'.trans hcm.symm) (by simp [hcl'])
  | lockProc hc | fallAsleep hc | sched hc | tidy hc =>
    refine hI.move_log rfl rfl ?_ ?_ ?_ <;> simp [hc, Pc.active, Pc.committer, Pc.cleared]
  | writePanic => exact ⟨hI.1, hI.2, hI.3, hI.4, hI.5, hI.6, hI.7, hI.8⟩
  | endPanic hc hw =>
    -- no operation is active while a commit runs
    have hz := hI.alone hw
    rw [hI.outstanding] at hz
    have hn := countActive_eq_zero.mp (by exact_mod_cast hz) p
    simp [hc, Pc.active] at hn
  | enter hc hw =>
    have hcm : s.log.committing = false := by simp_all [Log.mustWait]
    have hpos : (0 : ℤ) ≤ s.log.outstanding := by rw [hI.outstanding]; omega
    refine hI.move rfl ?_ rfl ?_ ?_ ?_ ?_ ?_ hI.nodup <;>
      simp [goto, setLog, setLock, hc, hcm, Pc.active, Pc.committer, Pc.cleared]
    omega
  | write hc hw =>
    obtain ⟨_, _, ho, rfl⟩ := Log.logWrite_ok hw
    have hcm : s.log.committing = false := by
      by_contra hcm
      have := hI.alone (by simpa using hcm)
      omega
    refine hI.move rfl ?_ rfl ?_ ?_ ?_ ?_ ?_ (Log.absorb_nodup hI.nodup) <;>
      simp [goto, setLog, setLock, hc, hcm, Pc.active, Pc.committer, Pc.cleared]
    omega
  | endMore hc hw ho =>
    refine hI.move rfl ?_ rfl ?_ ?_ ?_ ?_ ?_ hI.nodup <;>
      simp [goto, setLog, hc, hw, ho, Pc.active, Pc.committer, Pc.cleared]
  | clear hc =>
    have hcm := hI.committing p (by rw [hc]; rfl)
    refine hI.move rfl ?_ rfl ?_ ?_ ?_ ?_ ?_ ?_ <;>
      simp [goto, setLog, hc, hcm, hI.alone, Pc.active, Pc.committer]
  | endLast hc hw ho =>
    have hcount := countActive_update s.pc p (.endRelease true)
    have hnone : ∀ q, (s.pc q).committer = false := fun q => by
      by_contra hq
      simp [hI.committing q (by simpa using hq)] at hw
    obtain ⟨h1, h2, h3, h4, h5, h6, h7, h8⟩ := hI
    simp only [hc, Pc.active, Bool.toNat_true, Bool.toNat_false] at hcount
    refine ⟨?_, ?_, fun h => ⟨p, by simp [goto, Pc.committer]⟩,
      ?_, ?_, ?_, ?_, h8⟩ <;> simp only [goto, setLog]
    all_goals grind [Pc.committer, Pc.cleared]
  | done hc =>
    have hcount := countActive_update s.pc p (.commitWake procs)
    have hcm := hI.committing p (by rw [hc]; rfl)
    have hother : ∀ q, q ≠ p → (s.pc q).committer = false := fun q hq => by
      by_contra hq'
      exact hq (hI.unique q p (by simpa using hq') (by rw [hc]; rfl))
    have hlh := hI.cleared p (by rw [hc]; rfl)
    obtain ⟨h1, h2, h3, h4, h5, h6, h7, h8⟩ := hI
    simp only [hc, Pc.active, Bool.toNat_false] at hcount
    refine ⟨?_, ?_, ?_, ?_, ?_, ?_, ?_, h8⟩ <;> simp only [goto, setLog]
    all_goals grind [Pc.committer, Pc.cleared]

omit [Fintype ι] in
lemma SleepInv.busy (hI : SleepInv s)
    (hpc : t.pc = update s.pc p c) (hstate : t.state = s.state) (hchan : t.chan = s.chan)
    (hpk : c.parked = (s.pc p).parked)
    (hb : t.log.committing = true ∨ 0 < t.log.outstanding) : SleepInv t := by
  obtain ⟨h1, h2, h3⟩ := hI
  refine ⟨?_, ?_, fun q _ => hb.elim Or.inl fun h => Or.inr (Or.inl h)⟩ <;>
    simp only [hpc, hstate, hchan] <;> grind

omit [Fintype ι] in
lemma SleepInv.move (hI : SleepInv s) (hlog : t.log = s.log)
    (hpc : t.pc = update s.pc p c) (hstate : t.state = s.state) (hchan : t.chan = s.chan)
    (hpk : c.parked = (s.pc p).parked) (hd : c.dozing = true → (s.pc p).dozing = true)
    (hw : ∀ q, Waits s q → WakePending s q → WakePending t q) : SleepInv t := by
  obtain ⟨h1, h2, h3⟩ := hI
  have hwaits : ∀ q, Waits t q → Waits s q := by
    intro q
    simp only [Waits, hpc, hstate]
    grind
  refine ⟨?_, ?_, ?_⟩
  · simp only [hpc, hstate]; grind
  · simp only [hpc, hchan]; grind
  · intro q hq
    have := h3 q (hwaits q hq)
    rw [hlog]
    exact this.imp_right (Or.imp_right (hw q (hwaits q hq)))

omit [Fintype ι] in
lemma wakePending_holder (hL : LockInv s)
    (hp : (s.pc p).holdsLog = true) : WakePending s q ↔ (s.pc p).wakes q = true := by
  have hl := (hL.holder p).mpr hp
  simp [WakePending, hl]

omit [Fintype ι] in
lemma WakePending.keep (h : WakePending s q)
    (hlock : t.lock = s.lock) (hpc : t.pc = update s.pc p c)
    (hw : (s.pc p).wakes q = false) : WakePending t q := by
  obtain ⟨r, hr, hrw⟩ := h
  have hrp : r ≠ p := fun h => by simp [h, hw] at hrw
  exact ⟨r, by rw [hlock, hr], by simpa [hpc, hrp] using hrw⟩

omit [Fintype ι] in
lemma not_wakePending_free (hl : s.lock = none) : ¬ WakePending s q := by
  simp [WakePending, hl]

omit [Fintype ι] in
lemma not_waits_of_skip (hL : LockInv s) (hS : SleepInv s)
    (hp : (s.pc p).holdsLog = true) (hpd : (s.pc p).dozing = false) (hpp : (s.pc p).parked = false)
    (hq : q = p ∨ s.plock q = false ∧ ¬ (s.state q = .sleeping ∧ s.chan q = true)) :
    ¬ Waits s q := by
  rintro (hd | hsl)
  · rcases hq with rfl | ⟨hpl, -⟩
    · simp [hpd] at hd
    · -- a dozing process holds its own lock or `log.lock`
      rw [hL.plock q] at hpl
      have hlog : (s.pc q).holdsLog = true := by
        revert hd hpl
        cases s.pc q <;> simp [Pc.dozing, Pc.holdsProc, Pc.holdsLog]
      have heq := ((hL.holder q).mpr hlog).symm.trans ((hL.holder p).mpr hp)
      simp only [Option.some.injEq] at heq
      subst heq
      simp [hpd] at hd
  · have hpk := hS.parked q hsl
    rcases hq with rfl | ⟨-, hn⟩
    · simp [hpp] at hpk
    · exact hn ⟨hsl, hS.chan q hpk⟩

lemma sleepInv_move (hprocs : ∀ q, q ∈ procs)
    (hL : LockInv s) (hC : CommitInv s) (hS : SleepInv s) (hm : Move procs s p t) :
    SleepInv t := by
  have hpos : (0 : ℤ) ≤ s.log.outstanding := by rw [hC.outstanding]; omega
  cases hm with
  | acquire hc hl =>
    obtain ⟨_, _, _, _, _, _, _, hd, hd', hpk, hpk'⟩ := acquired_spec hc
    exact hS.move rfl rfl rfl rfl (hpk'.trans hpk.symm) (by simp [hd'])
      fun q _ h => (not_wakePending_free hl h).elim
  | @silent c hc =>
    obtain ⟨_, _, _, _, hpk, hpk', _, hd, hw⟩ := silent_spec hc
    by_cases hdz : c.dozing = true
    · refine hS.busy rfl rfl rfl (hpk'.trans hpk.symm) ?_
      rcases hd hdz with hcm | hex
      · exact .inl hcm
      · -- an idle log is empty, and then the reservation fits
        by_contra hb
        simp only [goto, not_or, Bool.not_eq_true, not_lt] at hb
        have hlh := hC.idle hb.1 (by omega)
        simp only [Log.wouldExhaust, Log.n, hlh, maxOpBlocks, logSize, List.length_nil] at hex
        omega
    · exact hS.move rfl rfl rfl rfl (hpk'.trans hpk.symm) (by simp [hdz])
        fun q _ h => h.keep rfl rfl (hw q)
  | release hc =>
    obtain ⟨hh, _, _, _, _, _, hd, hpk, hpk', hw⟩ := released_spec hc
    exact hS.move rfl rfl rfl rfl (hpk'.trans hpk.symm) hd
      fun q _ h => by simp [wakePending_holder hL hh, hw] at h
  | enter hc hw =>
    refine hS.busy rfl rfl rfl (by simp [hc, Pc.parked]) (.inr ?_)
    change 0 < s.log.outstanding + 1
    omega
  | lockProc hc =>
    exact hS.move rfl rfl rfl rfl (by simp [hc, Pc.parked]) (by simp [hc, Pc.dozing])
      fun q _ h => h.keep rfl rfl (by rw [hc]; rfl)
  | fallAsleep hc =>
    -- the sleeper was already waited for when it was dozing
    obtain ⟨h1, h2, h3⟩ := hS
    refine ⟨?_, ?_, fun q hq => ?_⟩
    · simp only [goto, setChan, setState]; grind [Pc.parked]
    · simp only [goto, setChan, setState]; grind [Pc.parked]
    · have hws : Waits s q := by
        by_cases hqp : q = p
        · subst hqp; exact .inl (by rw [hc]; rfl)
        · simpa [Waits, goto, setChan, setState, hqp] using hq
      exact (h3 q hws).imp_right (Or.imp_right fun h => h.keep rfl rfl (by rw [hc]; rfl))
  | sched hc =>
    exact hS.move rfl rfl rfl rfl (by simp [hc, Pc.parked]) (by simp [Pc.dozing])
      fun q _ h => h.keep rfl rfl (by rw [hc]; rfl)
  | tidy hc =>
    obtain ⟨h1, h2, h3⟩ := hS
    refine ⟨?_, ?_, fun q hq => ?_⟩
    · simp only [goto, setChan, setPlock]; grind [Pc.parked]
    · simp only [goto, setChan, setPlock]; grind [Pc.parked]
    · have hws : Waits s q := by
        by_cases hqp : q = p
        · subst hqp; simpa [Waits, goto, setChan, setPlock, Pc.dozing, hc] using hq
        · simpa [Waits, goto, setChan, setPlock, hqp] using hq
      exact (h3 q hws).imp_right (Or.imp_right fun h => h.keep rfl rfl (by rw [hc]; rfl))
  | write hc hw =>
    obtain ⟨_, _, ho, rfl⟩ := Log.logWrite_ok hw
    refine hS.busy rfl rfl rfl (by simp [hc, Pc.parked]) (.inr ?_)
    change 0 < s.log.outstanding
    omega
  | writePanic => exact ⟨hS.1, hS.2, hS.3⟩
  | endPanic hc hw => exact ⟨hS.1, hS.2, fun q _ => .inl hw⟩
  | endLast hc hw ho => exact hS.busy rfl rfl rfl (by simp [hc, Pc.parked]) (.inl rfl)
  | endMore hc hw ho =>
    have hact : 1 ≤ countActive s.pc := by
      by_contra hn
      have := countActive_eq_zero.mp (by omega : countActive s.pc = 0) p
      simp [hc, Pc.active] at this
    have := hC.outstanding
    refine hS.busy rfl rfl rfl (by simp [hc, Pc.parked]) (.inr ?_)
    change 0 < s.log.outstanding - 1
    omega
  | @wakeSkip q c hc hq =>
    obtain ⟨hh, _, _, _, _, _, _, _, _, _, hd, hd', hpk, hpk', hw⟩ := waking_spec hc
    refine hS.move rfl rfl rfl rfl (hpk'.trans hpk.symm) (by simp [hd']) fun r hr h => ?_
    rw [wakePending_holder hL hh] at h
    rcases hw r h with rfl | hrw
    · exact (not_waits_of_skip hL hS hh hd hpk hq hr).elim
    · exact ⟨p, (hL.holder p).mpr hh, by simpa [goto] using hrw⟩
  | @wakeOne q c hc hq hs =>
    obtain ⟨hh, _, _, _, _, _, _, _, _, _, hd, hd', hpk, hpk', hw⟩ := waking_spec hc
    have hqpk := hS.parked q hs
    obtain ⟨h1, h2, h3⟩ := hS
    refine ⟨?_, ?_, fun r hr => ?_⟩
    · simp only [goto, setState]; grind
    · simp only [goto, setState]; grind
    · have hrq : r ≠ q := by
        rintro rfl
        have hnd : (s.pc r).dozing = false := by
          revert hqpk
          cases s.pc r <;> simp [Pc.dozing, Pc.parked]
        simp [Waits, goto, setState, hq, hnd] at hr
      have hws : Waits s r := by
        by_cases hrp : r = p
        · subst hrp; simpa [Waits, goto, setState, hrq, hd, hd'] using hr
        · simpa [Waits, goto, setState, hrq, hrp] using hr
      refine (h3 r hws).imp_right (Or.imp_right fun h => ?_)
      rw [wakePending_holder hL hh] at h
      rcases hw r h with rfl | hrw
      · exact (hrq rfl).elim
      · exact ⟨p, (hL.holder p).mpr hh, by simpa [goto] using hrw⟩
  | clear hc =>
    exact hS.busy rfl rfl rfl (by simp [hc, Pc.parked]) (.inl (hC.committing p (by rw [hc]; rfl)))
  | done hc =>
    -- the wakeup that follows still has the whole table ahead of it
    have hl := (hL.holder p).mpr (by rw [hc]; rfl)
    obtain ⟨h1, h2, h3⟩ := hS
    refine ⟨?_, ?_, fun q _ => .inr (.inr ⟨p, hl, by simp [goto, Pc.wakes, hprocs]⟩)⟩
    · simp only [goto, setLog]; grind [Pc.parked]
    · simp only [goto, setLog]; grind [Pc.parked]

lemma inv_move (hprocs : ∀ q, q ∈ procs)
    (hI : Inv s) (hp : s.panic = none) (hm : Move procs s p t) : Inv t := by
  refine ⟨lockInv_move hI.locks hm, commitInv_move hI.commits hm,
    sleepInv_move hprocs hI.locks hI.commits hI.sleeps hm, ?_⟩
  cases hm with
  | writePanic hc hw =>
    -- the writer is active, so only the size test can fail
    have hact : 1 ≤ countActive s.pc := by
      by_contra hn
      have := countActive_eq_zero.mp (by omega : countActive s.pc = 0) p
      simp [hc, Pc.active] at this
    have ho := hI.commits.outstanding
    unfold Log.logWrite at hw
    split_ifs at hw with h1 h2 <;> cases hw
    · exact .inr rfl
    · omega
  | endPanic hc hw =>
    have hz := hI.commits.alone hw
    rw [hI.commits.outstanding] at hz
    have hn := countActive_eq_zero.mp (by exact_mod_cast hz) p
    simp [hc, Pc.active] at hn
  | _ => exact .inl hp

lemma inv_call (hI : Inv s)
    (hl : c.holdsLog = (s.pc p).holdsLog) (hpl : c.holdsProc = (s.pc p).holdsProc)
    (ha : c.active = (s.pc p).active) (hcm : c.committer = (s.pc p).committer)
    (hcl : c.cleared = false) (hpk : c.parked = (s.pc p).parked) (hd : c.dozing = false)
    (hw : ∀ q, (s.pc p).wakes q = false) : Inv (s.goto p c) := by
  refine ⟨?_, hI.commits.move_log rfl rfl ha hcm (by simp [hcl]),
    hI.sleeps.move rfl rfl rfl rfl hpk (by simp [hd]) fun q _ h => h.keep rfl rfl (hw q), hI.panic⟩
  obtain ⟨h1, h2⟩ := hI.locks
  constructor <;> simp only [goto] <;> grind

lemma inv_dispatch (hI : Inv s) (hc : s.pc p = .asleep) :
    Inv (((s.setPlock p true).setState p .running).goto p .sleepTidy) := by
  refine ⟨?_, ?_, ?_, hI.panic⟩
  · obtain ⟨h1, h2⟩ := hI.locks
    constructor <;> simp only [goto, setPlock, setState] <;>
      grind [Pc.holdsLog, Pc.holdsProc]
  · refine hI.commits.move_log rfl rfl ?_ ?_ ?_ <;> simp [hc, Pc.active, Pc.committer, Pc.cleared]
  · obtain ⟨h1, h2, h3⟩ := hI.sleeps
    refine ⟨?_, ?_, fun q hq => ?_⟩
    · simp only [goto, setPlock, setState]; grind [Pc.parked]
    · simp only [goto, setPlock, setState]; grind [Pc.parked]
    · have hws : Waits s q := by
        by_cases hqp : q = p
        · subst hqp; simp [Waits, goto, setPlock, setState, Pc.dozing] at hq
        · simpa [Waits, goto, setPlock, setState, hqp] using hq
      exact (h3 q hws).imp_right (Or.imp_right fun h => h.keep rfl rfl (by rw [hc]; rfl))

lemma inv_kill (hI : Inv s) : Inv (s.setState p .runnable) := by
  have hC := hI.commits
  obtain ⟨h1, h2, h3⟩ := hI.sleeps
  refine ⟨⟨hI.locks.1, hI.locks.2⟩, ⟨hC.1, hC.2, hC.3, hC.4, hC.5, hC.6, hC.7, hC.8⟩,
    ⟨?_, h2, fun q hq => ?_⟩, hI.panic⟩
  · simp only [setState]; grind
  · have hws : Waits s q := by
      by_cases hqp : q = p
      · subst hqp
        exact .inl (by simpa [Waits, setState] using hq)
      · simpa [Waits, setState, hqp] using hq
    exact h3 q hws

/-- One step keeps the protocol invariant, when the wakeup loop walks the whole table. -/
theorem inv_step {e : Event ι} (hprocs : ∀ q, q ∈ procs)
    (hI : Inv s) (h : Step procs s e t) : Inv t := by
  unfold Step at h
  cases e with
  | callBeginOp p =>
    simp only [next] at h
    split_ifs at h with hc
    cases h
    apply inv_call hI <;> simp [hc.2, Pc.holdsLog, Pc.holdsProc, Pc.active, Pc.committer,
      Pc.cleared, Pc.parked, Pc.dozing, Pc.wakes]
  | callLogWrite p b | callEndOp p =>
    simp only [next] at h
    split_ifs at h
    split at h <;> cases h
    rename_i hc
    apply inv_call hI <;> simp [hc, Pc.holdsLog, Pc.holdsProc, Pc.active, Pc.committer,
      Pc.cleared, Pc.parked, Pc.dozing, Pc.wakes]
  | run p =>
    simp only [next] at h
    split_ifs at h with hp
    exact inv_move hprocs hI hp (runPc_move h)
  | dispatch p =>
    simp only [next] at h
    split_ifs at h with hc
    cases h
    exact inv_dispatch hI hc.2.1
  | kill p =>
    simp only [next] at h
    split_ifs at h
    cases h
    exact inv_kill hI

lemma inv_run {es : List (Event ι)} (hprocs : ∀ q, q ∈ procs)
    (h : Run (Step procs) s es t) (hI : Inv s) : Inv t :=
  h.invariant (I := Inv) (fun _ _ _ hs => inv_step hprocs hs) hI

/-- The group-commit protocol, in every state of every run of any number of processes. -/
theorem group_commit {n start size : ℕ} {es : List (Event (Fin n))} {s : Sys (Fin n)}
    (h : Run (Step (List.finRange n)) (boot start size) es s) :
    s.log.outstanding = countActive s.pc ∧
    (∀ p q, (s.pc p).inCommit = true → (s.pc q).inCommit = true → p = q) ∧
    (s.log.committing = true → ∀ p, (s.pc p).active = false) ∧
    (s.panic ≠ some .logCommitting ∧ s.panic ≠ some .logWriteOutsideOfTrans) ∧
    (s.log.outstanding = 0 → s.log.committing = false → s.log.n = 0) ∧
    s.log.lh.Nodup ∧
    (∀ p, s.state p = .sleeping → s.lock = none →
      s.log.committing = true ∨ 0 < s.log.outstanding) := by
  have hI := inv_run (fun q => List.mem_finRange q) h (boot_inv start size)
  have hin : ∀ p, (s.pc p).inCommit = true → (s.pc p).committer = true := by
    intro p
    cases s.pc p <;> simp [Pc.inCommit, Pc.committer]
  refine ⟨hI.commits.outstanding, fun p q hp hq => hI.commits.unique p q (hin p hp) (hin q hq),
    fun hc => ?_, ?_, fun ho hc => ?_, hI.commits.nodup, fun p hs hl => ?_⟩
  · have hz := hI.commits.alone hc
    rw [hI.commits.outstanding] at hz
    exact countActive_eq_zero.mp (by exact_mod_cast hz)
  · rcases hI.panic with hp | hp <;> simp [hp]
  · simp [Log.n, hI.commits.idle hc ho]
  · rcases hI.sleeps.awaited p (.inr hs) with hc | ho | hw
    · exact .inl hc
    · exact .inr ho
    · exact (not_wakePending_free hl hw).elim

/-- A process that finds the log busy sleeps, and the log is indeed busy. -/
theorem group_commit_sleeper : ∃ s : Sys (Fin 4),
    Run (Step (List.finRange 4)) (boot 2 30)
      ([0, 1, 2].flatMap (fun p => [.callBeginOp p, .run p, .run p]) ++
        (Event.callBeginOp 3 :: List.replicate 6 (.run 3))) s ∧
    (s.state 3 = .sleeping ∧ s.lock = none) ∧
    (s.log.committing = true ∨ 0 < s.log.outstanding) := by
  obtain ⟨s, hrun, hs⟩ := exists_run_of_replay
    (f := next (List.finRange 4)) (G := fun _ _ => True)
    (P := fun s => s.state 3 = .sleeping ∧ s.lock = none) (s := boot 2 30)
    (l := [0, 1, 2].flatMap (fun p => [.callBeginOp p, .run p, .run p]) ++
      (Event.callBeginOp 3 :: List.replicate 6 (.run 3))) (by decide +kernel)
  have hrun' := hrun.mono fun _ _ _ h => h.2
  have hs' : s.state 3 = .sleeping ∧ s.lock = none := by simpa using hs
  exact ⟨s, hrun', hs', (group_commit hrun').2.2.2.2.2.2 3 hs'.1 hs'.2⟩

end Xv6.LogProtocol
