import Xv6.Scheduler

/-! What every step keeps true of the table: which CPU holds which lock, which thread
runs where, and the state each running thread has given itself. -/
namespace Xv6.Scheduler

open Function

structure Table (ι : Type*) where
  state : ι → ProcState
  chan : ι → Option (Chan ι)
  killed : ι → Bool
  pid : ι → ℤ
  parent : ι → Option ι
  priority : ι → ℤ
  creationTime : ι → ℕ
  nextpid : ℤ
  ticks : ℕ
  schedMode : Mode

variable {ι κ : Type*}

def Sys.table (s : Sys ι κ) : Table ι where
  state := s.state
  chan := s.chan
  killed := s.killed
  pid := s.pid
  parent := s.parent
  priority := s.priority
  creationTime := s.creationTime
  nextpid := s.nextpid
  ticks := s.ticks
  schedMode := s.schedMode

def Task.child : Task ι → Option ι
  | .allocprocFound np | .forkCopy np | .forkWaitLock np | .forkParent np | .forkReady np
  | .forkSet np => some np
  | _ => none

def OnCpu (s : Sys ι κ) (c : κ) (p : ι) : Prop := s.cpu c = .thread p ∨ s.cpu c = .back p

/-- A thread on a CPU is RUNNING until it has prepared its own `sched()`. -/
def Thread.ok (t : Thread ι) (x : ProcState) : Prop :=
  match t.sw with
  | .sched w => x = w.state
  | .off _ => False
  | _ => x = .running

structure LockInv (s : Sys ι κ) : Prop where
  owner : ∀ c q, s.lock q = some c ↔ q ∈ held s c
  nodup : ∀ c, (held s c).Nodup

structure TableInv (s : Sys ι κ) : Prop where
  proc : ∀ c p, s.proc c = some p ↔ OnCpu s c p
  unique : ∀ c c' p, OnCpu s c p → OnCpu s c' p → c = c'
  running : ∀ p, s.state p = .running → ∃ c, s.cpu c = .thread p
  thread : ∀ c p, s.cpu c = .thread p → (s.thread p).ok (s.state p)
  off : ∀ p, (∀ c, s.cpu c ≠ .thread p) → ∃ w, (s.thread p).sw = .off w
  child : ∀ p np, (s.thread p).task.child = some np → s.state np = .used
  parent : ∀ p p' np, (s.thread p).task.child = some np →
    (s.thread p').task.child = some np → p = p'
  saved : ∀ p, (s.thread p).sw ≠ .none → (s.thread p).task.held = []

structure Inv (s : Sys ι κ) : Prop where
  locks : LockInv s
  table : TableInv s

variable {s : Sys ι κ} {q : ι}

theorem LockInv.free (h : LockInv s) (hq : s.lock q = none) (c : κ) :
    q ∉ held s c := by
  intro hm
  rw [(h.owner c q).mpr hm] at hq
  cases hq

variable {c : κ}

theorem LockInv.owner_eq (h : LockInv s) {c' : κ}
    (hc : q ∈ held s c) (hc' : q ∈ held s c') : c' = c := by
  have h1 := (h.owner c q).mpr hc
  have h2 := (h.owner c' q).mpr hc'
  rw [h1] at h2
  exact (Option.some.inj h2).symm

theorem LockInv.keep {t : Sys ι κ} (h : LockInv s) (hl : t.lock = s.lock)
    (hh : ∀ c, held t c = held s c) : LockInv t := by
  constructor
  · intro c q
    rw [hl, hh]
    exact h.owner c q
  · intro c
    rw [hh]
    exact h.nodup c

section
variable [DecidableEq ι]

theorem LockInv.acquire {t : Sys ι κ} (h : LockInv s) (hq : s.lock q = none)
    (hl : t.lock = update s.lock q (some c)) (hc : held t c = q :: held s c)
    (ho : ∀ c', c' ≠ c → held t c' = held s c') : LockInv t := by
  constructor
  · intro c' r
    by_cases hr : r = q
    · subst hr
      rw [hl, update_self]
      by_cases hcc : c' = c
      · subst hcc
        simp [hc]
      · rw [ho c' hcc]
        constructor
        · intro he
          exact absurd (Option.some.inj he).symm hcc
        · intro hm
          exact absurd hm (h.free hq c')
    · rw [hl, update_of_ne hr]
      by_cases hcc : c' = c
      · subst hcc
        simp [hc, hr, h.owner]
      · rw [ho c' hcc]
        exact h.owner c' r
  · intro c'
    by_cases hcc : c' = c
    · subst hcc
      rw [hc]
      exact List.nodup_cons.mpr ⟨h.free hq c', h.nodup c'⟩
    · rw [ho c' hcc]
      exact h.nodup c'

theorem LockInv.release {t : Sys ι κ} (h : LockInv s) (hq : q ∈ held s c)
    (hl : t.lock = update s.lock q none) (hc : held t c = (held s c).erase q)
    (ho : ∀ c', c' ≠ c → held t c' = held s c') : LockInv t := by
  constructor
  · intro c' r
    by_cases hr : r = q
    · subst hr
      rw [hl, update_self]
      by_cases hcc : c' = c
      · subst hcc
        simp [hc, (h.nodup c').mem_erase_iff]
      · rw [ho c' hcc]
        constructor
        · intro he
          cases he
        · intro hm
          exact absurd (h.owner_eq hq hm) hcc
    · rw [hl, update_of_ne hr]
      by_cases hcc : c' = c
      · subst hcc
        rw [hc, h.owner]
        simp [hr]
      · rw [ho c' hcc]
        exact h.owner c' r
  · intro c'
    by_cases hcc : c' = c
    · subst hcc
      rw [hc]
      exact (h.nodup c').erase q
    · rw [ho c' hcc]
      exact h.nodup c'

end

theorem TableInv.mem_held (h : TableInv s) {p : ι}
    (hc : OnCpu s c p) (hp : s.state p ≠ .running) : p ∈ held s c := by
  rcases hc with hc | hc
  · have hok := h.thread c p hc
    rcases hs : (s.thread p).sw <;> simp_all [Thread.ok, held, Thread.held]
  · simp [held, hc, Cpu.held]

/-- The state of `q` is as before, or was changed between two states other than RUNNING
by the CPU `c`, while no other CPU held the lock of `q`. -/
def Foreign (s t : Sys ι κ) (c : κ) (q : ι) : Prop :=
  t.state q = s.state q ∨
    s.state q ≠ .running ∧ t.state q ≠ .running ∧ ∀ c', q ∈ held s c' → c' = c

theorem TableInv.offCpu (h : TableInv s)
    (hq : s.state q ≠ .running) (hl : ∀ c', q ∈ held s c' → c' = c) (hc : ¬ OnCpu s c q)
    (c' : κ) : ¬ OnCpu s c' q := by
  intro ho
  have he := hl c' (h.mem_held ho hq)
  subst he
  exact hc ho

theorem TableInv.not_used (h : TableInv s) {p : ι}
    (hc : s.cpu c = .thread p) : s.state p ≠ .used := by
  intro hu
  have hok := h.thread c p hc
  rw [hu] at hok
  unfold Thread.ok at hok
  split at hok
  next w _ => cases w <;> cases hok
  next => exact hok
  next => cases hok

/-- A step of the thread of `p` on CPU `c`: it moves the thread of `p`, perhaps sets up the
thread of a USED slot, and changes the state of other processes only as `Foreign` allows. -/
structure ThreadMove (s t : Sys ι κ) (c : κ) (p : ι) : Prop where
  here : s.cpu c = .thread p
  cpu : t.cpu = s.cpu
  proc : t.proc = s.proc
  state : ∀ q, q ≠ p → Foreign s t c q
  ok : (t.thread p).ok (t.state p)
  thread : ∀ q, q ≠ p → t.thread q = s.thread q ∨
    s.state q = .used ∧ t.thread q = ⟨.run, .off .forkret⟩
  child : ∀ np, (t.thread p).task.child = some np →
    (s.thread p).task.child = some np ∧ t.state np = s.state np ∨
      s.state np = .unused ∧ t.state np = .used
  used : ∀ q, s.state q = .used → t.state q ≠ .used →
    (s.thread p).task.child = some q
  saved : (t.thread p).sw ≠ .none → (t.thread p).task.held = []

namespace ThreadMove

variable {s t : Sys ι κ} {c : κ} {p : ι}

section
variable (m : ThreadMove s t c p)
include m

lemma thread_onCpu (h : TableInv s) {c' : κ} (hq : q ≠ p) (hc : s.cpu c' = .thread q) :
    t.thread q = s.thread q := by
  rcases m.thread q hq with hth | ⟨hu, _⟩
  · exact hth
  · exact absurd hu (h.not_used hc)

lemma state_onCpu (h : TableInv s) {c' : κ} (hq : q ≠ p) (hc : s.cpu c' = .thread q) :
    t.state q = s.state q := by
  rcases m.state q hq with hs | ⟨hr, _, hl⟩
  · exact hs
  · have he := hl c' (h.mem_held (.inl hc) hr)
    rw [he, m.here] at hc
    exact absurd (Cpu.thread.inj hc).symm hq

lemma held_other (h : TableInv s) (c' : κ) (hne : c' ≠ c) : held t c' = held s c' := by
  unfold held
  rw [m.cpu]
  cases hc : s.cpu c' with
  | thread q =>
    have hq : q ≠ p := by
      rintro rfl
      exact hne (h.unique c' c q (.inl hc) (.inl m.here))
    simp only [m.thread_onCpu h hq hc]
  | _ => rfl

lemma held_here : held t c = (t.thread p).held p := by
  simp [held, m.cpu, m.here]

lemma child_used (h : TableInv s) (r np : ι) (hr : (t.thread r).task.child = some np) :
    t.state np = .used := by
  by_cases hrp : r = p
  · subst hrp
    rcases m.child np hr with ⟨hs, hst⟩ | ⟨_, hst⟩
    · rw [hst]
      exact h.child r np hs
    · exact hst
  · rcases m.thread r hrp with hth | ⟨_, hth⟩
    · rw [hth] at hr
      by_contra hn
      have hp := m.used np (h.child r np hr) hn
      exact hrp (h.parent r p np hr hp)
    · rw [hth] at hr
      cases hr

lemma child_own (h : TableInv s) (r np : ι) (hrp : r ≠ p) (hp : (t.thread p).task.child = some np)
    (hr : (t.thread r).task.child = some np) : False := by
  rcases m.thread r hrp with hth | ⟨_, hth⟩
  · rw [hth] at hr
    rcases m.child np hp with ⟨hs, _⟩ | ⟨hu, _⟩
    · exact hrp (h.parent r p np hr hs)
    · rw [h.child r np hr] at hu
      cases hu
  · rw [hth] at hr
    cases hr

theorem table (h : TableInv s) : TableInv t := by
  have hon : ∀ c' q, OnCpu t c' q ↔ OnCpu s c' q := by
    intro c' q
    simp only [OnCpu, m.cpu]
  constructor
  · intro c' q
    rw [m.proc, hon]
    exact h.proc c' q
  · intro c1 c2 q h1 h2
    exact h.unique c1 c2 q ((hon c1 q).mp h1) ((hon c2 q).mp h2)
  · intro q hq
    rw [m.cpu]
    by_cases hqp : q = p
    · exact ⟨c, by rw [hqp]; exact m.here⟩
    · rcases m.state q hqp with hs | ⟨_, hn, _⟩
      · exact h.running q (hs ▸ hq)
      · exact absurd hq hn
  · intro c' q hc
    rw [m.cpu] at hc
    by_cases hqp : q = p
    · rw [hqp]
      exact m.ok
    · rw [m.thread_onCpu h hqp hc, m.state_onCpu h hqp hc]
      exact h.thread c' q hc
  · intro q hq
    rw [m.cpu] at hq
    have hqp : q ≠ p := by
      rintro rfl
      exact hq c m.here
    rcases m.thread q hqp with hth | ⟨_, hth⟩
    · rw [hth]
      exact h.off q hq
    · exact ⟨.forkret, by rw [hth]⟩
  · exact m.child_used h
  · intro r r' np hr hr'
    by_cases h1 : r = p
    · by_cases h2 : r' = p
      · rw [h1, h2]
      · subst h1
        exact (m.child_own h r' np h2 hr hr').elim
    · by_cases h2 : r' = p
      · subst h2
        exact (m.child_own h r np h1 hr' hr).elim
      · rcases m.thread r h1 with e1 | ⟨_, e1⟩
        · rcases m.thread r' h2 with e2 | ⟨_, e2⟩
          · rw [e1] at hr
            rw [e2] at hr'
            exact h.parent r r' np hr hr'
          · rw [e2] at hr'
            cases hr'
        · rw [e1] at hr
          cases hr
  · intro q hq
    by_cases hqp : q = p
    · subst hqp
      exact m.saved hq
    · rcases m.thread q hqp with hth | ⟨_, hth⟩
      · rw [hth] at hq ⊢
        exact h.saved q hq
      · rw [hth]
        rfl

theorem keep (h : Inv s) (hl : t.lock = s.lock) (hh : (t.thread p).held p = (s.thread p).held p) :
    Inv t := by
  refine ⟨h.locks.keep hl ?_, m.table h.table⟩
  intro c'
  by_cases hc : c' = c
  · subst hc
    rw [m.held_here, hh]
    simp [held, m.here]
  · exact m.held_other h.table c' hc

end

variable [DecidableEq ι]

theorem acquire (m : ThreadMove s t c p) (h : Inv s) (hq : s.lock q = none)
    (hl : t.lock = update s.lock q (some c))
    (hh : (t.thread p).held p = q :: (s.thread p).held p) : Inv t := by
  refine ⟨h.locks.acquire hq hl ?_ (m.held_other h.table), m.table h.table⟩
  rw [m.held_here, hh]
  simp [held, m.here]

theorem release (m : ThreadMove s t c p) (h : Inv s)
    (hl : t.lock = update s.lock q none)
    (hs : (s.thread p).held p = [q]) (ht : (t.thread p).held p = []) : Inv t := by
  have hc : held s c = [q] := by simp [held, m.here, hs]
  refine ⟨h.locks.release ?_ hl ?_ (m.held_other h.table), m.table h.table⟩
  · rw [hc]
    exact List.mem_singleton_self q
  · rw [m.held_here, ht, hc]
    simp

end ThreadMove

end Xv6.Scheduler
