import Xv6.Creation
import Xv6.Reaping

/-! The times a process is charged. `clockintr` increments `ticks` and then lets `update_time`
walk the table, one slot after the other, while the other CPUs go on; a process made and
dispatched in between is charged a tick that lies before its creation. -/
namespace Xv6.Scheduler

open Function Transition List

variable {ι κ : Type*}

/-- The table with the times of each process, and the slots that an `update_time` in progress
has still to visit. `run_time` is counted without bound, as `ticks` and `creation_time` are; the
words that `exit` computes with are their residues. -/
structure Acct (ι κ : Type*) where
  sys : Sys ι κ
  runTime : ι → ℕ
  finishTime : ι → BitVec 32
  turnaroundTime : ι → BitVec 32
  waitingTime : ι → BitVec 32
  clock : Option (List ι)

inductive AcctEvent (ι κ : Type*)
  | base (e : Event ι κ)
  | clockintr
  | updateTime
  | clockEnd
  deriving DecidableEq

def acctBoot [DecidableEq ι] (init : ι) : Acct ι κ where
  sys := boot init
  runTime := fun _ => 0
  finishTime := fun _ => 0
  turnaroundTime := fun _ => 0
  waitingTime := fun _ => 0
  clock := none

section
variable [DecidableEq ι]

section
variable (a : Acct ι κ) (t : Sys ι κ)

def Acct.clear (p : ι) : Acct ι κ :=
  { a with
    sys := t
    runTime := update a.runTime p 0
    finishTime := update a.finishTime p 0
    turnaroundTime := update a.turnaroundTime p 0
    waitingTime := update a.waitingTime p 0 }

def Acct.finish (p : ι) : Acct ι κ :=
  let finishTime := BitVec.ofNat 32 a.sys.ticks
  let turnaroundTime := finishTime - BitVec.ofNat 32 (a.sys.creationTime p)
  { a with
    sys := t
    finishTime := update a.finishTime p finishTime
    turnaroundTime := update a.turnaroundTime p turnaroundTime
    waitingTime := update a.waitingTime p (turnaroundTime - BitVec.ofNat 32 (a.runTime p)) }

def Acct.account (e : Event ι κ) : Acct ι κ :=
  match creates a.sys e, note a.sys e with
  | some np, _ => a.clear t np
  | none, some (.zombie p) => a.finish t p
  | none, some (.reaped _ q) => a.clear t q
  | none, some (.freed np) => a.clear t np
  | none, _ => { a with sys := t }

end

variable [DecidableEq κ]

/-- CPU `c` does nothing else while it is in `clockintr`, which after `update_time` wakes the
processes that sleep on `ticks`. -/
def Acct.free (a : Acct ι κ) (c : κ) : Event ι κ → Bool
  | .step c' | .call c' _ | .fail c' => a.clock = none ∨ c' ≠ c
  | .intr c' _ _ => a.clock = none ∨ a.clock = some [] ∨ c' ≠ c
  | .tick => false
  | .setSched _ => true

/-- `cpu0` is the CPU that handles the clock interrupt. -/
def acctNext (procs : List ι) (init : ι) (cpu0 : κ) (a : Acct ι κ) :
    AcctEvent ι κ → Option (Acct ι κ)
  | .base e =>
      if a.free cpu0 e then (next procs init a.sys e).map fun t => a.account t e else none
  | .clockintr =>
      if a.clock = none ∧ held a.sys cpu0 = [] ∧ a.sys.waitLock ≠ some cpu0 then
        some { a with sys := { a.sys with ticks := a.sys.ticks + 1 }, clock := some procs }
      else none
  | .updateTime =>
      match a.clock with
      | some (p :: todo) =>
          if a.sys.lock p = none then
            some { a with
              runTime := if a.sys.state p = .running
                then update a.runTime p (a.runTime p + 1) else a.runTime
              clock := some todo }
          else none
      | _ => none
  | .clockEnd => if a.clock = some [] then some { a with clock := none } else none

end

def Acct.pending (a : Acct ι κ) : List ι := a.clock.getD []

structure Settled (a : Acct ι κ) (q : ι) : Prop where
  turnaround : a.turnaroundTime q = a.finishTime q - BitVec.ofNat 32 (a.sys.creationTime q)
  run_le : a.runTime q ≤ (a.turnaroundTime q).toNat
  waiting : (a.waitingTime q).toNat = (a.turnaroundTime q).toNat - a.runTime q

structure SameTimes (a b : Acct ι κ) (q : ι) : Prop where
  creation : b.sys.creationTime q = a.sys.creationTime q
  run : b.runTime q = a.runTime q
  finish : b.finishTime q = a.finishTime q
  turnaround : b.turnaroundTime q = a.turnaroundTime q
  waiting : b.waitingTime q = a.waitingTime q

structure ExitTimes (a : Acct ι κ) (q : ι) : Prop where
  turnaround : a.turnaroundTime q = a.finishTime q - BitVec.ofNat 32 (a.sys.creationTime q)
  waiting : a.waitingTime q = a.turnaroundTime q - BitVec.ofNat 32 (a.runTime q)

section
variable [DecidableEq ι]

/-- `allocproc` does not read `ticks` for a slot that the `update_time` of that tick has still
to visit, and a process exits less than 2^32 ticks after its creation. -/
def InTime (a : Acct ι κ) : AcctEvent ι κ → Prop
  | .base e => (∀ np, creates a.sys e = some np → np ∉ a.pending) ∧
      ∀ p, note a.sys e = some (.zombie p) → a.sys.ticks < a.sys.creationTime p + 2 ^ 32
  | _ => True

structure AcctInv (a : Acct ι κ) : Prop where
  inv : Inv a.sys
  charged : ∀ p, Created a.sys p →
    a.runTime p + a.pending.count p + a.sys.creationTime p ≤ a.sys.ticks
  settled : ∀ q, a.sys.state q = .zombie → Settled a q

variable {procs : List ι} {init : ι} {a b : Acct ι κ} {t : Sys ι κ} {e : Event ι κ} {c : κ}
  {p q np : ι}

@[simp] lemma account_sys : (a.account t e).sys = t := by
  unfold Acct.account
  split <;> rfl

@[simp] lemma account_clock : (a.account t e).clock = a.clock := by
  unfold Acct.account
  split <;> rfl

lemma account_frame [DecidableEq κ] (hI : Inv a.sys) (ht : next procs init a.sys e = some t)
    (hcreate : creates a.sys e ≠ some q) (hexit : note a.sys e ≠ some (.zombie q))
    (hused : t.state q ≠ .unused) :
    (a.account t e).runTime q = a.runTime q ∧ (a.account t e).finishTime q = a.finishTime q ∧
      (a.account t e).turnaroundTime q = a.turnaroundTime q ∧
      (a.account t e).waitingTime q = a.waitingTime q := by
  have hclear : ∀ {r}, q ≠ r → (a.clear t r).runTime q = a.runTime q ∧
      (a.clear t r).finishTime q = a.finishTime q ∧
      (a.clear t r).turnaroundTime q = a.turnaroundTime q ∧
      (a.clear t r).waitingTime q = a.waitingTime q := by
    intro r hr
    simp [Acct.clear, hr]
  have hfreed : ∀ {r}, t.table = (a.sys.freeproc r).table → q ≠ r := by
    rintro r hT rfl
    have hst := congrFun (congrArg Table.state hT) q
    exact hused (by simpa [Sys.table, Sys.freeproc] using hst)
  have hn := next_noted hI ht
  unfold Acct.account
  split
  next np _ hc => exact hclear fun h => hcreate (by rw [hc, h])
  next p _ hz =>
    have hqp : q ≠ p := fun h => hexit (by rw [hz, h])
    simp [Acct.finish, hqp]
  next p r _ hr =>
    rw [hr] at hn
    cases hn with
    | quiet hm _ =>
      obtain ⟨_, hm⟩ := hm _ rfl
      cases hm
    | reaped _ _ hT => exact hclear (hfreed hT)
  next np _ hf =>
    rw [hf] at hn
    cases hn with
    | quiet hm _ =>
      obtain ⟨_, hm⟩ := hm _ rfl
      cases hm
    | freed _ hT => exact hclear (hfreed hT)
  next => exact ⟨rfl, rfl, rfl, rfl⟩

omit [DecidableEq ι] in
lemma note_zombie {s : Sys ι κ} (h : note s e = some (.zombie p)) :
    ∃ c, e = .step c ∧ s.cpu c = .thread p ∧ (s.thread p).sw = .set .exit := by
  unfold note at h
  split at h
  next c =>
    split at h
    next r hc =>
      unfold stepNote at h
      split at h
      next hsw =>
        cases h
        exact ⟨c, rfl, hc, hsw⟩
      next => split at h <;> cases h
      next => split at h <;> cases h
      next => cases h
    next => cases h
  next =>
    split at h
    next =>
      unfold failNote at h
      split at h
      next => cases h
      next => cases h
      next => split at h <;> cases h
      next => cases h
    next => cases h
  next => split at h <;> cases h
  next => cases h

lemma note_of_zombie [DecidableEq κ] (hI : Inv a.sys) (ht : next procs init a.sys e = some t)
    (hq : t.state q = .zombie) (hs : a.sys.state q ≠ .zombie) :
    note a.sys e = some (.zombie q) := by
  have hn := next_noted hI ht
  have hT : t.table.state q = .zombie := hq
  generalize note a.sys e = n at hn
  cases hn with
  | quiet _ hz => exact absurd ((hz q).mp hT) hs
  | @zombie c p _ _ h =>
    by_cases hqp : q = p
    · rw [hqp]
    · rw [h] at hT
      exact absurd (by simpa [Sys.table, Sys.goOff, Sys.releaseWait, Sys.setState, hqp] using hT) hs
  | failed h =>
    rw [h] at hT
    exact absurd hT hs
  | @reaped _ _ r _ _ _ h | @freed _ _ r _ h =>
    rw [h] at hT
    by_cases hqr : q = r
    · simp [Sys.table, Sys.freeproc, hqr] at hT
    · exact absurd (by simpa [Sys.table, Sys.freeproc, hqr] using hT) hs

lemma account_exit (h : note a.sys e = some (.zombie p)) : a.account t e = a.finish t p := by
  obtain ⟨c, rfl, hc, hsw⟩ := note_zombie h
  have hno : creates a.sys (.step c) = none := by simp [creates, hc, hsw]
  simp only [Acct.account, hno, h]

lemma account_create (h : creates a.sys e = some p) : a.account t e = a.clear t p := by
  simp only [Acct.account, h]

omit [DecidableEq ι] in
lemma created_of_exit (hI : Inv a.sys) (h : note a.sys e = some (.zombie p)) :
    Created a.sys p := by
  obtain ⟨c, _, hc, hsw⟩ := note_zombie h
  have hrun : a.sys.state p = .running := by
    have hok := hI.table.thread c p hc
    rwa [Thread.ok, hsw] at hok
  refine ⟨by simp [hrun], by simp [hrun], fun r hr => ?_⟩
  have hu := hI.table.child r p (by rw [hr]; rfl)
  rw [hrun] at hu
  cases hu

lemma finish_exact (h : AcctInv a) (hn : note a.sys e = some (.zombie p))
    (hlt : a.sys.ticks < a.sys.creationTime p + 2 ^ 32) :
    a.runTime p ≤ a.sys.ticks - a.sys.creationTime p ∧
      ((a.finish t p).turnaroundTime p).toNat = a.sys.ticks - a.sys.creationTime p ∧
      ((a.finish t p).waitingTime p).toNat =
        a.sys.ticks - a.sys.creationTime p - a.runTime p := by
  have hc := h.charged p (created_of_exit h.inv hn)
  have hturn : (BitVec.ofNat 32 a.sys.ticks - BitVec.ofNat 32 (a.sys.creationTime p)).toNat =
      a.sys.ticks - a.sys.creationTime p := by
    simp only [BitVec.toNat_sub, BitVec.toNat_ofNat]
    omega
  refine ⟨by omega, by simpa [Acct.finish] using hturn, ?_⟩
  simp only [Acct.finish, update_self]
  rw [BitVec.toNat_sub, hturn, BitVec.toNat_ofNat]
  omega

omit [DecidableEq ι] in
lemma Settled.keep (h : Settled a q) (hs : SameTimes a b q) : Settled b q := by
  refine ⟨?_, ?_, ?_⟩
  · rw [hs.turnaround, hs.finish, hs.creation]
    exact h.turnaround
  · rw [hs.run, hs.turnaround]
    exact h.run_le
  · rw [hs.waiting, hs.turnaround, hs.run]
    exact h.waiting

omit [DecidableEq ι] in
lemma ExitTimes.keep (h : ExitTimes a q) (hs : SameTimes a b q) : ExitTimes b q := by
  refine ⟨?_, ?_⟩
  · rw [hs.turnaround, hs.finish, hs.creation]
    exact h.turnaround
  · rw [hs.waiting, hs.turnaround, hs.run]
    exact h.waiting

section step
variable [DecidableEq κ]

lemma AcctInv.charged_step (h : AcctInv a) (ht : next procs init a.sys e = some t)
    (hticks : t.ticks = a.sys.ticks) (hg : InTime a (.base e)) (hp : Created t p) :
    (a.account t e).runTime p + a.pending.count p + t.creationTime p ≤ t.ticks := by
  rw [hticks]
  rcases created_cases h.inv ht hp with ⟨hs, _, hct⟩ | ⟨hnew, _, hct⟩
  · have hframe : (a.account t e).runTime p = a.runTime p := by
      by_cases hexit : note a.sys e = some (.zombie p)
      · rw [account_exit hexit]
        rfl
      · refine (account_frame h.inv ht ?_ hexit hp.used).1
        intro hc
        obtain ⟨r, hr⟩ := creates_task hc
        exact hs.done r hr
    rw [hframe, hct]
    exact h.charged p hs
  · have hnot := hg.1 p hnew
    rw [account_create hnew, hct]
    simp [Acct.clear, count_eq_zero.mpr hnot]

lemma creationTime_keep (ht : next procs init a.sys e = some t) (hq : t.state q ≠ .unused)
    (hno : ∀ r, (a.sys.thread r).task ≠ .allocprocFound q) :
    t.creationTime q = a.sys.creationTime q := by
  rcases (next_effect ht).creationTime_cases q with hs | hu | ⟨_, c, r, _, hat⟩
  · exact hs
  · exact absurd hu hq
  · exact absurd hat.2.2 (hno r)

lemma account_zombie (hI : Inv a.sys) (ht : next procs init a.sys e = some t)
    (hs : a.sys.state q = .zombie) (hq : t.state q = .zombie) : SameTimes a (a.account t e) q := by
  have hno : ∀ r, (a.sys.thread r).task ≠ .allocprocFound q := by
    intro r hr
    have hu := hI.table.child r q (by rw [hr]; rfl)
    rw [hs] at hu
    cases hu
  have hcreate : creates a.sys e ≠ some q := by
    intro hc
    obtain ⟨r, hr⟩ := creates_task hc
    exact hno r hr
  have hexit : note a.sys e ≠ some (.zombie q) := by
    intro hn
    exact (created_of_exit hI hn).alive hs
  obtain ⟨hr, hf, htt, hw⟩ := account_frame hI ht hcreate hexit (by simp [hq])
  exact ⟨by rw [account_sys, creationTime_keep ht (by simp [hq]) hno], hr, hf, htt, hw⟩

variable {cpu0 : κ} {x : AcctEvent ι κ}

theorem acctNext_zombie (hI : Inv a.sys)
    (hb : acctNext procs init cpu0 a x = some b) (hs : a.sys.state q = .zombie)
    (hq : b.sys.state q = .zombie) : SameTimes a b q := by
  cases x with
  | base e =>
    simp only [acctNext] at hb
    split at hb
    next =>
      obtain ⟨t, ht, rfl⟩ := Option.map_eq_some_iff.mp hb
      rw [account_sys] at hq
      exact account_zombie hI ht hs hq
    next => cases hb
  | clockintr =>
    simp only [acctNext] at hb
    split at hb
    next =>
      cases hb
      exact ⟨rfl, rfl, rfl, rfl, rfl⟩
    next => cases hb
  | updateTime =>
    simp only [acctNext] at hb
    split at hb
    next p todo hc =>
      split at hb
      next =>
        cases hb
        refine ⟨rfl, ?_, rfl, rfl, rfl⟩
        -- a RUNNING process is charged, and `q` is none
        change (if a.sys.state p = .running then _ else a.runTime) q = _
        split
        next hrun =>
          refine update_of_ne ?_ _ _
          rintro rfl
          exact absurd (hrun.symm.trans hs) (by decide)
        next => rfl
      next => cases hb
    next => cases hb
  | clockEnd =>
    simp only [acctNext] at hb
    split at hb
    next =>
      cases hb
      exact ⟨rfl, rfl, rfl, rfl, rfl⟩
    next => cases hb

lemma AcctInv.settled_step (h : AcctInv a) (ht : next procs init a.sys e = some t)
    (hg : InTime a (.base e)) (hq : t.state q = .zombie) : Settled (a.account t e) q := by
  by_cases hs : a.sys.state q = .zombie
  · exact (h.settled q hs).keep (account_zombie h.inv ht hs hq)
  · have hn := note_of_zombie h.inv ht hq hs
    obtain ⟨hrun, hturn, hwait⟩ := finish_exact (t := t) h hn (hg.2 q hn)
    have hkeep : (a.finish t q).runTime = a.runTime := rfl
    rw [account_exit hn]
    refine ⟨?_, by rw [hkeep, hturn]; exact hrun, by rw [hkeep, hturn]; exact hwait⟩
    change (a.finish t q).turnaroundTime q =
      (a.finish t q).finishTime q - BitVec.ofNat 32 (t.creationTime q)
    rw [creationTime_keep ht (by simp [hq]) (created_of_exit h.inv hn).done]
    simp [Acct.finish]

lemma AcctInv.base_step (h : AcctInv a) (hg : InTime a (.base e))
    (hb : acctNext procs init cpu0 a (.base e) = some b) : AcctInv b := by
  simp only [acctNext] at hb
  split at hb
  next hfree =>
    obtain ⟨t, ht, rfl⟩ := Option.map_eq_some_iff.mp hb
    have hticks : t.ticks = a.sys.ticks := by
      refine next_ticks ht ?_
      rintro rfl
      simp [Acct.free] at hfree
    refine ⟨?_, ?_, ?_⟩
    · rw [account_sys]
      exact inv_step h.inv ht
    · intro p hp
      rw [account_sys] at hp ⊢
      rw [Acct.pending, account_clock]
      exact h.charged_step ht hticks hg hp
    · intro q hq
      rw [account_sys] at hq
      exact h.settled_step ht hg hq
  next => cases hb

lemma AcctInv.clock_step (hnodup : procs.Nodup) (h : AcctInv a)
    (hb : acctNext procs init cpu0 a .clockintr = some b) : AcctInv b := by
  have hsame := fun q => acctNext_zombie (q := q) h.inv hb
  simp only [acctNext] at hb
  split at hb
  next hc =>
    cases hb
    have htick : next procs init a.sys .tick =
        some { a.sys with ticks := a.sys.ticks + 1 } := rfl
    refine ⟨inv_step h.inv htick, ?_, ?_⟩
    · intro p hp
      have hold := h.charged p ⟨hp.used, hp.alive, hp.done⟩
      have honce := nodup_iff_count_le_one.mp hnodup p
      simp only [Acct.pending, Option.getD_some]
      omega
    · intro q hq
      exact (h.settled q hq).keep (hsame q hq hq)
  next => cases hb

lemma AcctInv.update_step (h : AcctInv a)
    (hb : acctNext procs init cpu0 a .updateTime = some b) : AcctInv b := by
  have hsame := fun q => acctNext_zombie (q := q) h.inv hb
  simp only [acctNext] at hb
  split at hb
  next p todo hc =>
    split at hb
    next =>
      cases hb
      have hpend : a.pending = p :: todo := by simp [Acct.pending, hc]
      refine ⟨h.inv, ?_, ?_⟩
      · intro q hq
        have hold := h.charged q hq
        rw [hpend] at hold
        simp only [Acct.pending, Option.getD_some]
        by_cases hqp : q = p
        · subst hqp
          rw [count_cons_self] at hold
          split
          · rw [update_self]
            omega
          · omega
        · rw [count_cons_of_ne (Ne.symm hqp)] at hold
          split
          · rw [update_of_ne hqp]
            exact hold
          · exact hold
      · intro q hq
        exact (h.settled q hq).keep (hsame q hq hq)
    next => cases hb
  next => cases hb

lemma AcctInv.step (hnodup : procs.Nodup) (h : AcctInv a)
    (hg : InTime a x) (hb : acctNext procs init cpu0 a x = some b) : AcctInv b := by
  cases x with
  | base e => exact h.base_step hg hb
  | clockintr => exact h.clock_step hnodup hb
  | updateTime => exact h.update_step hb
  | clockEnd =>
    have hsame := fun q => acctNext_zombie (q := q) h.inv hb
    simp only [acctNext] at hb
    split at hb
    next hc =>
      cases hb
      have hpend : a.pending = [] := by simp [Acct.pending, hc]
      refine ⟨h.inv, ?_, ?_⟩
      · intro p hp
        have hold := h.charged p hp
        rw [hpend] at hold
        exact hold
      · intro q hq
        exact (h.settled q hq).keep (hsame q hq hq)
    next => cases hb

omit [DecidableEq κ] in
lemma boot_acct (init : ι) : AcctInv (acctBoot init : Acct ι κ) := by
  refine ⟨boot_inv init, ?_, ?_⟩
  · intro p _
    simp [acctBoot, boot, Acct.pending]
  · intro q hq
    by_cases h : q = init <;> simp [acctBoot, boot, h] at hq

/-- An exit finds that the process ran no more ticks than have passed since its creation, and
the waiting time it stores is their difference. -/
theorem waiting_time_exact {cpu0 : κ} {xs : List (AcctEvent ι κ)} (hnodup : procs.Nodup)
    (h : Run (Guarded (acctNext procs init cpu0) InTime) (acctBoot init)
      xs a) :
    (∀ q, a.sys.state q = .zombie → Settled a q) ∧
    ∀ e p b, note a.sys e = some (.zombie p) →
      Guarded (acctNext procs init cpu0) InTime a (.base e) b →
      a.runTime p ≤ a.sys.ticks - a.sys.creationTime p ∧
      b.finishTime p = BitVec.ofNat 32 a.sys.ticks ∧
      (b.turnaroundTime p).toNat = a.sys.ticks - a.sys.creationTime p ∧
      (b.waitingTime p).toNat = a.sys.ticks - a.sys.creationTime p - a.runTime p := by
  have hinv : AcctInv a :=
    h.invariant (fun _ _ _ ha hb => ha.step hnodup hb.1 hb.2) (boot_acct init)
  refine ⟨hinv.settled, ?_⟩
  rintro e p b hn ⟨hg, hb⟩
  simp only [acctNext] at hb
  split at hb
  next =>
    obtain ⟨t, _, rfl⟩ := Option.map_eq_some_iff.mp hb
    rw [account_exit hn]
    obtain ⟨hrun, hturn, hwait⟩ := finish_exact (t := t) hinv hn (hg.2 p hn)
    exact ⟨hrun, by simp [Acct.finish], hturn, hwait⟩
  next => cases hb

section
variable (hI : Inv a.sys) (hb : acctNext procs init cpu0 a x = some b)
include hI hb

end

end step

end

instance (a : Acct (Fin 2) (Fin 2)) (x : AcctEvent (Fin 2) (Fin 2)) : Decidable (InTime a x) :=
  match x with
  | .base e => inferInstanceAs (Decidable ((∀ np, creates a.sys e = some np → np ∉ a.pending) ∧
      ∀ p, note a.sys e = some (.zombie p) → a.sys.ticks < a.sys.creationTime p + 2 ^ 32))
  | .clockintr | .updateTime | .clockEnd => isTrue trivial

attribute [local instance] neZero_two in
def secondCpu (n : ℕ) : List (AcctEvent (Fin 2) (Fin 2)) := replicate n (.base (.step 1))

def oneTick : List (AcctEvent (Fin 2) (Fin 2)) := [.clockintr, .updateTime, .updateTime, .clockEnd]

attribute [local instance] neZero_two in
/-- init forks, a tick passes, init waits, a tick passes, the child is about to exit. -/
def forkTwoTicks : List (AcctEvent (Fin 2) (Fin 2)) :=
  secondCpu 6 ++ .base (.call 1 .fork) :: secondCpu 10 ++ oneTick ++
    .base (.call 1 .wait) :: secondCpu 17 ++ oneTick ++ .base (.call 1 .exit) :: secondCpu 9

theorem waiting_time_exact_fork : ∃ a b : Acct (Fin 2) (Fin 2),
    Run (Guarded (acctNext (finRange 2) 0 0) InTime) (acctBoot 0)
      forkTwoTicks a ∧
    Guarded (acctNext (finRange 2) 0 0) InTime a (.base (.step 1)) b ∧
    (a.sys.ticks = 2 ∧ a.sys.creationTime 1 = 0 ∧ a.runTime 1 = 1) ∧
    (b.turnaroundTime 1).toNat = 2 ∧ (b.waitingTime 1).toNat = 1 := by
  obtain ⟨a, hrun, ha⟩ := exists_run_of_replay
    (f := acctNext (finRange 2) (0 : Fin 2) (0 : Fin 2)) (G := InTime)
    (P := fun a : Acct (Fin 2) (Fin 2) => note a.sys (.step 1) = some (.zombie 1) ∧
      InTime a (.base (.step 1)) ∧
      (acctNext (finRange 2) 0 0 a (.base (.step 1))).isSome ∧
      a.sys.ticks = 2 ∧ a.sys.creationTime 1 = 0 ∧ a.runTime 1 = 1)
    (s := acctBoot 0) (l := forkTwoTicks) (by decide +kernel)
  obtain ⟨hn, hg, hb, htick, hct, hrt⟩ := of_decide_eq_true ha
  obtain ⟨b, hb⟩ := Option.isSome_iff_exists.mp hb
  obtain ⟨_, _, hturn, hwait⟩ :=
    (waiting_time_exact (nodup_finRange 2) hrun).2 (.step 1) 1 b hn ⟨hg, hb⟩
  rw [htick, hct] at hturn
  rw [htick, hct, hrt] at hwait
  exact ⟨a, b, hrun, ⟨hg, hb⟩, ⟨htick, hct, hrt⟩, hturn, hwait⟩

attribute [local instance] neZero_two in
/-- init forks after `ticks` has moved on and before `update_time` comes to the child's slot,
and waits; the child is RUNNING when `update_time` comes, and exits in the same tick. -/
def forkInsideTick : List (AcctEvent (Fin 2) (Fin 2)) :=
  secondCpu 6 ++ [.clockintr, .updateTime, .base (.call 1 .fork)] ++ secondCpu 10 ++
    .base (.call 1 .wait) :: secondCpu 17 ++ [.updateTime, .clockEnd, .base (.call 1 .exit)] ++
    secondCpu 10

theorem waiting_time_wraps : ∃ a : Acct (Fin 2) (Fin 2),
    Run (fun a x b => acctNext (finRange 2) 0 0 a x = some b) (acctBoot 0)
      forkInsideTick a ∧
    a.sys.state 1 = .zombie ∧ a.sys.creationTime 1 = 1 ∧ a.finishTime 1 = 1 ∧ a.runTime 1 = 1 ∧
    a.turnaroundTime 1 = 0 ∧ (a.waitingTime 1).toNat = 2 ^ 32 - 1 := by
  obtain ⟨a, hrun, ha⟩ := exists_run_of_replay
    (f := acctNext (finRange 2) (0 : Fin 2) (0 : Fin 2)) (G := fun _ _ => True)
    (P := fun a : Acct (Fin 2) (Fin 2) => a.sys.state 1 = .zombie ∧ a.sys.creationTime 1 = 1 ∧
      a.finishTime 1 = 1 ∧ a.runTime 1 = 1 ∧ a.turnaroundTime 1 = 0 ∧
      (a.waitingTime 1).toNat = 2 ^ 32 - 1)
    (s := acctBoot 0) (l := forkInsideTick) (by decide +kernel)
  exact ⟨a, hrun.mono fun _ _ _ h => h.2, of_decide_eq_true ha⟩

end Xv6.Scheduler
