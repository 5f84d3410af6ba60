import Xv6.ProcessTree

/-! `wait_lock`: the places of the code at which a thread holds it, and that no two threads
are at such places. -/
namespace Xv6.Scheduler

variable {ι κ : Type*}

def After.waits : After ι → Bool
  | .run => false
  | .reparent _ | .exit => true

def Task.waits : Task ι → Bool
  | .forkParent _ | .wait _ _ | .waitHold _ _ | .reparent _ => true
  | .wakeup _ _ after | .wakeupHold _ _ _ after => after.waits
  | _ => false

/-- `sleep(p, &wait_lock)` and `exit` keep `wait_lock` until `p->lock` is held. -/
def Why.waits : Why ι → Bool
  | .sleep _ lkIsWaitLock => lkIsWaitLock
  | .exit => true
  | _ => false

def Thread.waits (t : Thread ι) : Bool :=
  match t.sw with
  | .none => t.task.waits
  | .acquire w | .set w => w.waits
  | _ => false

def Switch.why : Switch ι → Option (Why ι)
  | .none => Option.none
  | .acquire w | .set w | .sched w | .off w | .resumed w => some w

def Switch.exited : Switch ι → Bool
  | .sched .exit | .off .exit | .resumed .exit => true
  | _ => false

def Task.built : Task ι → Option ι
  | .forkCopy np | .forkWaitLock np | .forkParent np | .forkReady np | .forkSet np => some np
  | _ => none

structure WaitInv (s : Sys ι κ) : Prop where
  owner : ∀ c, s.waitLock = some c ↔ ∃ p, s.cpu c = .thread p ∧ (s.thread p).waits = true
  saved : ∀ p w, (s.thread p).sw.why = some w → (s.thread p).task.waits = true → w = .exit
  dead : ∀ p, (s.thread p).sw.exited = true → ¬ Live (s.state p)
  built : ∀ p np, (s.thread p).task.built = some np → (s.thread np).sw = .off .forkret

variable {procs : List ι} {init : ι} {s t : Sys ι κ} {e : Event ι κ} {a : Option κ} {c : κ}
  {p q r : ι} {T : Table ι}

theorem WaitInv.unique (h : WaitInv s) {c' : κ} (hc : s.cpu c = .thread p)
    (hp : (s.thread p).waits = true) (hc' : s.cpu c' = .thread q)
    (hq : (s.thread q).waits = true) : p = q := by
  have h1 := (h.owner c).mpr ⟨p, hc, hp⟩
  have h2 := (h.owner c').mpr ⟨q, hc', hq⟩
  rw [h1] at h2
  cases h2
  rw [hc] at hc'
  cases hc'
  rfl

theorem Inv.on_of_waits (hI : Inv s) (hp : (s.thread p).waits = true) :
    ∃ c, s.cpu c = .thread p := by
  by_contra hoff
  push Not at hoff
  obtain ⟨w, hsw⟩ := hI.table.off p hoff
  rw [Thread.waits, hsw] at hp
  cases hp

theorem Inv.running_of_waits (hI : Inv s) (hc : s.cpu c = .thread p)
    (hp : (s.thread p).waits = true) : s.state p = .running := by
  have hok := hI.table.thread c p hc
  unfold Thread.ok at hok
  unfold Thread.waits at hp
  split at hok
  next hsw => simp [hsw] at hp
  next => exact hok.elim
  next => exact hok

lemma Task.child_of_built {x : Task ι} (h : x.built = some q) : x.child = some q := by
  cases x <;> simp_all [Task.built, Task.child]

variable [DecidableEq ι]

variable {d u : Thread ι} {w : Option κ}

lemma Moves.waits (hm : Moves procs init s e c p d u w T)
    (hd : s.waitLock = some c ↔ d.waits = true)
    (hback : ∀ w, d.sw = .resumed w → d.task.waits = false) :
    (w = some c ↔ u.waits = true) ∧ ∀ c', c' ≠ c → (w = some c' ↔ s.waitLock = some c') := by
  have hfree : d.waits = true → ∀ c', c' ≠ c → ((none : Option κ) = some c' ↔ s.waitLock = some c') := by
    intro h c' hne
    rw [hd.mpr h]
    simp [Ne.symm hne]
  have hgain : s.waitLock = none → ∀ c', c' ≠ c → (some c = some c' ↔ s.waitLock = some c') := by
    intro h c' hne
    simp [h, Ne.symm hne]
  cases hm with
  | forkWait hw | waitEnter hw | exitEnter hw => exact ⟨by simp [Thread.waits, Task.waits], hgain hw⟩
  | adopt | waitReturn | waitReap _ _ | waitFail _ _ =>
    exact ⟨by simp [Thread.waits, Task.waits], hfree rfl⟩
  | @switchSet x w =>
    cases w with
    | sleep ch lk =>
      cases lk with
      | false => exact ⟨hd, fun _ _ => Iff.rfl⟩
      | true => exact ⟨by simp [Thread.waits, Sys.goOff, Sys.releaseWait], hfree rfl⟩
    | exit => exact ⟨by simp [Thread.waits, Sys.goOff, Sys.releaseWait], hfree rfl⟩
    | yield | forkret => exact ⟨hd, fun _ _ => Iff.rfl⟩
  | @switchBack x w =>
    refine ⟨?_, fun _ _ => Iff.rfl⟩
    have hx : x.waits = false := hback w rfl
    simpa [Thread.waits, hx] using hd
  | callYield hx hw =>
    refine ⟨?_, fun _ _ => Iff.rfl⟩
    simp [Thread.waits, Why.waits, hw]
  | _ =>
    refine ⟨?_, fun _ _ => Iff.rfl⟩
    simpa [Thread.waits, Task.waits, Why.waits, After.waits] using hd

omit [DecidableEq ι] in
theorem WaitInv.back (h : WaitInv s) (hI : Inv s) (hc : s.cpu c = .thread p) {w : Why ι}
    (hsw : (s.thread p).sw = .resumed w) : (s.thread p).task.waits = false := by
  by_contra hx
  have hw := h.saved p w (by rw [hsw]; rfl) (by simpa using hx)
  subst hw
  have hok := hI.table.thread c p hc
  rw [Thread.ok, hsw] at hok
  exact h.dead p (by rw [hsw]; rfl) (.inr (.inr hok))

lemma WaitInv.owner_step (h : WaitInv s) (hI : Inv s) (hctl : Control procs init s e t) (c' : κ) :
    t.waitLock = some c' ↔ ∃ q, t.cpu c' = .thread q ∧ (t.thread q).waits = true := by
  cases hctl with
  | quiet _ _ hth hw hcpu =>
    rw [hw, hth]
    simp only [hcpu]
    exact h.owner c'
  | @dispatch c p ha hc hr hT hth hw hcpu =>
    have hoff := hI.off_of_recheck hc hr
    obtain ⟨w, hsw⟩ := hI.table.off p hoff
    rw [hw, h.owner c', hth]
    constructor
    · rintro ⟨q, hq, hu⟩
      have hqp : q ≠ p := by
        rintro rfl
        exact hoff c' hq
      have hcc : c' ≠ c := by
        rintro rfl
        rw [hc] at hq
        cases hq
      exact ⟨q, (hcpu c' q).mpr (.inr ⟨hcc, hq⟩), by rw [Function.update_of_ne hqp]; exact hu⟩
    · rintro ⟨q, hq, hu⟩
      rcases (hcpu c' q).mp hq with ⟨_, rfl⟩ | ⟨_, hs⟩
      · simp [Thread.waits, hsw, switchIn] at hu
      · have hqp : q ≠ p := by
          rintro rfl
          exact hoff c' hs
        rw [Function.update_of_ne hqp] at hu
        exact ⟨q, hs, hu⟩
  | @move c p ha hc hm hother hcpu =>
    have hd : s.waitLock = some c ↔ (s.thread p).waits = true := by
      rw [h.owner c, hc]
      simp
    obtain ⟨hown, hrest⟩ := hm.waits hd fun w hsw => h.back hI hc hsw
    by_cases hcc : c' = c
    · subst hcc
      rw [hown]
      constructor
      · intro hu
        refine ⟨p, (hcpu c' p).mpr ⟨hc, fun _ w hsw => ?_⟩, hu⟩
        rw [Thread.waits, hsw] at hu
        cases hu
      · rintro ⟨q, hq, hu⟩
        have hs := ((hcpu c' q).mp hq).1
        rw [hc] at hs
        cases hs
        exact hu
    · rw [hrest c' hcc, h.owner c']
      have hsame : ∀ q, s.cpu c' = .thread q → t.thread q = s.thread q := by
        intro q hq
        have hqp : q ≠ p := by
          rintro rfl
          exact hcc (hI.table.unique c' c q (.inl hq) (.inl hc))
        rcases hother q hqp with hth | ⟨hat, _⟩
        · exact hth
        · exact absurd (hat.child_used hI rfl) (hI.thread_used hq).2
      constructor
      · rintro ⟨q, hq, hu⟩
        exact ⟨q, (hcpu c' q).mpr ⟨hq, fun h => absurd h hcc⟩, by rw [hsame q hq]; exact hu⟩
      · rintro ⟨q, hq, hu⟩
        have hs := ((hcpu c' q).mp hq).1
        exact ⟨q, hs, by rw [← hsame q hs]; exact hu⟩

omit [DecidableEq ι] in
lemma why_switchIn (x : Switch ι) : (switchIn x).why = x.why := by
  cases x <;> rfl

omit [DecidableEq ι] in
lemma exited_switchIn (x : Switch ι) : (switchIn x).exited = x.exited := by
  cases x with
  | off w => cases w <;> rfl
  | _ => rfl

lemma Moves.saved (hm : Moves procs init s e c p d u w T)
    (hd : s.waitLock = some c ↔ d.waits = true)
    (hs : ∀ w, d.sw.why = some w → d.task.waits = true → w = .exit) (w' : Why ι)
    (hu : u.sw.why = some w') (hx : u.task.waits = true) : w' = .exit := by
  cases hm with
  | wakeExit => simpa [Switch.why] using hu.symm
  | switchLock | switchSet | switchOff => exact hs w' hu hx
  | callYield _ hw => exact absurd (hd.mpr hx) hw
  | waitSleep | callSleep _ => cases hx
  | _ => cases hu

lemma Moves.exited (hm : Moves procs init s e c p d u w T)
    (hu : u.sw.exited = true) :
    d.sw.exited = true ∧ T = s.table ∨ T = (s.goOff p .exit).table := by
  cases hm with
  | @switchSet x w =>
    cases w with
    | exit => exact .inr rfl
    | _ => cases hu
  | @switchOff x w =>
    cases w with
    | exit => exact .inl ⟨rfl, rfl⟩
    | _ => cases hu
  | _ => cases hu

variable {np : ι}

lemma Moves.built
    (hm : Moves procs init s e c p d u w T) (hu : u.task.built = some np) :
    d.task.built = some np ∨ e = .step c ∧ d = ⟨.allocprocFound np, .none⟩ := by
  cases hm with
  | create he => cases hu; exact .inr ⟨he, rfl⟩
  | _ => first | exact .inl hu | cases hu

lemma create_thread [DecidableEq κ] (hat : At s c p (.allocprocFound np)) (hne : np ≠ p)
    (ht : next procs init s (.step c) = some t) : t.thread np = ⟨.run, .off .forkret⟩ := by
  obtain ⟨hc, hsw, hx⟩ := hat
  simp only [next, cpuStep, hc, threadStep, hsw, hx, taskStep, Option.some.injEq] at ht
  subst ht
  simp [Sys.setTask, Sys.allocprocInit, hne]

section
variable (h : WaitInv s) (hI : Inv s)
include h hI

lemma WaitInv.dead_step (hctl : Control procs init s e t) (hp : (t.thread p).sw.exited = true) :
    ¬ Live (t.state p) := by
  have hkeep : (s.thread p).sw.exited = true → ¬ Live (t.state p) := by
    intro hs hlive
    rcases hctl.effect.live_born hI hlive with hl | ⟨c, r, _, hat⟩
    · exact h.dead p hs hl
    · have hb := h.built r p (by rw [hat.2.2]; rfl)
      rw [hb] at hs
      cases hs
  rcases hctl.thread_cases p with ⟨hth | ⟨_, hth⟩, _⟩ | ⟨_, _, _, _, hth⟩ | ⟨c, ha, hc, hm⟩
  · exact hkeep (by rw [← hth]; exact hp)
  · rw [hth] at hp
    exact hkeep (by rw [← exited_switchIn]; exact hp)
  · rw [hth] at hp
    cases hp
  · rcases hm.exited hp with ⟨hs, _⟩ | hT
    · exact hkeep hs
    · have hz : t.table.state p = .zombie := by
        rw [hT]
        simp [Sys.table, Sys.goOff, Sys.setState, Sys.releaseWait]
      intro hlive
      exact hlive.ne_zombie hz

lemma WaitInv.built_step [DecidableEq κ] (ht : next procs init s e = some t)
    (hp : (t.thread p).task.built = some np) : (t.thread np).sw = .off .forkret := by
  have hctl := next_control ht
  -- the thread of a slot in state USED does not move
  have hkeep : (s.thread p).task.built = some np → (t.thread np).sw = .off .forkret := by
    intro hb
    have hoff := h.built p np hb
    have hused := hI.table.child p np (Task.child_of_built hb)
    rcases hctl.thread_cases np with ⟨hth | ⟨hrun, _⟩, _⟩ | ⟨_, _, _, _, hth⟩ | ⟨c, ha, hc, hm⟩
    · rw [hth, hoff]
    · rw [hused] at hrun
      cases hrun
    · rw [hth]
    · exact absurd hused (hI.thread_used hc).2
  rcases hctl.thread_cases p with ⟨hth | ⟨_, hth⟩, _⟩ | ⟨_, _, _, _, hth⟩ | ⟨c, ha, hc, hm⟩
  · exact hkeep (by rw [← hth]; exact hp)
  · exact hkeep (by rw [hth] at hp; exact hp)
  · rw [hth] at hp
    cases hp
  · rcases hm.built hp with hs | ⟨he, hd⟩
    · exact hkeep hs
    · have hat : At s c p (.allocprocFound np) := at_of_thread hc rfl hd
      have hne : np ≠ p := by
        rintro rfl
        have hused := hat.child_used hI rfl
        exact (hI.thread_used hc).2 hused
      rw [he] at ht
      rw [create_thread hat hne ht]

theorem WaitInv.step [DecidableEq κ] (ht : next procs init s e = some t) : WaitInv t := by
  have hctl := next_control ht
  refine ⟨h.owner_step hI hctl, ?_, fun p => h.dead_step hI hctl, fun p np => h.built_step hI ht⟩
  intro p w hw hx
  rcases hctl.thread_cases p with ⟨hth | ⟨_, hth⟩, _⟩ | ⟨_, _, _, _, hth⟩ | ⟨c, ha, hc, hm⟩
  · rw [hth] at hw hx
    exact h.saved p w hw hx
  · rw [hth] at hw hx
    exact h.saved p w (by rw [← why_switchIn]; exact hw) hx
  · rw [hth] at hx
    cases hx
  · have hd : s.waitLock = some c ↔ (s.thread p).waits = true := by
      rw [h.owner c, hc]
      simp
    exact hm.saved hd (h.saved p) w hw hx

end

omit [DecidableEq ι] in
theorem boot_wait [DecidableEq ι] (init : ι) : WaitInv (boot init : Sys ι κ) :=
  ⟨by simp [boot], by simp [boot, Task.waits], by simp [boot, Switch.exited],
    by simp [boot]⟩

end Xv6.Scheduler
