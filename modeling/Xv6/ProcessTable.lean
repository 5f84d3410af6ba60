import Xv6.SchedulerSafety

/-! What one step does to the entries of the process table, and which code does it. Every
invariant of the table is read off from the list of effects. -/
namespace Xv6.Scheduler

open Function Sys

variable {ι κ : Type*}

def Event.cpu : Event ι κ → Option κ
  | .step c | .call c _ | .fail c => some c
  | _ => none

def At (s : Sys ι κ) (c : κ) (p : ι) (x : Task ι) : Prop :=
  s.cpu c = .thread p ∧ (s.thread p).sw = .none ∧ (s.thread p).task = x

variable [DecidableEq ι]

inductive Effect (init : ι) (s : Sys ι κ) : Option κ → Table ι → Prop
  | same {a} : Effect init s a s.table
  | wake {a} (q : ι) : s.state q = .sleeping → Effect init s a (s.setState q .runnable).table
  | kill {c p q pid todo} : At s c p (.killHold q pid todo) → s.pid q = pid →
      Effect init s (some c) (s.killBody q).table
  | alloc {c p q todo} : At s c p (.allocprocHold q todo) → s.state q = .unused →
      Effect init s (some c) (s.allocprocFound q).table
  | create {c p np} : At s c p (.allocprocFound np) →
      Effect init s (some c) (s.allocprocInit np).table
  | abort {c p np} : At s c p (.allocprocFound np) ∨ At s c p (.forkCopy np) →
      Effect init s (some c) (s.freeproc np).table
  | adopt {c p np} : At s c p (.forkParent np) →
      Effect init s (some c) (s.setParent np p).table
  | ready {c p np} : At s c p (.forkSet np) →
      Effect init s (some c) (s.setState np .runnable).table
  | reap {c p q todo} : At s c p (.waitHold q todo) → s.state q = .zombie →
      Effect init s (some c) (s.freeproc q).table
  | disown {c p q todo} : At s c p (.reparent (q :: todo)) → s.parent q = some p →
      Effect init s (some c) (s.setParent q init).table
  | off {c p w} : s.cpu c = .thread p → (s.thread p).sw = .set w →
      Effect init s (some c) (s.goOff p w).table
  | back {c p w} : s.cpu c = .thread p → (s.thread p).sw = .resumed w →
      Effect init s (some c) (s.comeBack p w).table
  | run {c p} : s.cpu c = .recheck p → s.state p = .runnable →
      Effect init s (some c) (s.setState p .running).table
  | tick {a} : Effect init s a { s.table with ticks := s.ticks + 1 }
  | mode {a} (m : Mode) : Effect init s a { s.table with schedMode := m }

inductive Shift (s : Sys ι κ) (a : Option κ) (q : ι) : ProcState → Prop
  | same : Shift s a q (s.state q)
  | wake : s.state q = .sleeping → Shift s a q .runnable
  | take {c p todo} : a = some c → At s c p (.allocprocHold q todo) → s.state q = .unused →
      Shift s a q .used
  | abort {c p} : a = some c → At s c p (.allocprocFound q) ∨ At s c p (.forkCopy q) →
      Shift s a q .unused
  | ready {c p} : a = some c → At s c p (.forkSet q) → Shift s a q .runnable
  | reap {c p todo} : a = some c → At s c p (.waitHold q todo) → s.state q = .zombie →
      Shift s a q .unused
  | off {c w} : a = some c → s.cpu c = .thread q → (s.thread q).sw = .set w →
      Shift s a q w.state
  | run {c} : a = some c → s.cpu c = .recheck q → s.state q = .runnable → Shift s a q .running

section effect
variable {init : ι} {s t : Sys ι κ} {a : Option κ} {c : κ} {q : ι}

theorem wakeBody_effect (q : ι) (chan : Option (Chan ι)) :
    Effect init s a (s.wakeBody q chan).table := by
  unfold wakeBody
  split
  next h => exact .wake q h.1
  next => exact .same

theorem table_of_acquire {f : Sys ι κ → Sys ι κ} (h : (s.acquire c q).map f = some t)
    (hf : ∀ u, (f u).table = u.table) : t.table = s.table := by
  unfold acquire at h
  split at h
  · simp only [Option.map_some, Option.some.injEq] at h
    rw [← h, hf]
    rfl
  · simp at h

lemma Shift.of_update {x : ProcState} (h : Shift s a q x) (r : ι) :
    Shift s a r (update s.state q x r) := by
  by_cases hr : r = q
  · subst hr
    rwa [update_self]
  · rw [update_of_ne hr]
    exact .same

theorem Effect.shift {T : Table ι} (he : Effect init s a T) (r : ι) : Shift s a r (T.state r) := by
  cases he with
  | wake q hq => exact (Shift.wake hq).of_update r
  | @kill _ _ q _ _ _ _ =>
    unfold killBody
    split
    next hq => exact (Shift.wake hq).of_update r
    next => exact .same
  | alloc hat hq => exact (Shift.take rfl hat hq).of_update r
  | abort hat => exact (Shift.abort rfl hat).of_update r
  | ready hat => exact (Shift.ready rfl hat).of_update r
  | reap hat hq => exact (Shift.reap rfl hat hq).of_update r
  | @off c p w hc hsw =>
    have hstate : (s.goOff p w).table.state = update s.state p w.state := by
      cases w with
      | sleep ch lk => cases lk <;> rfl
      | _ => rfl
    rw [hstate]
    exact (Shift.off rfl hc hsw).of_update r
  | @back _ _ w _ _ => cases w <;> exact .same
  | run hc hq => exact (Shift.run rfl hc hq).of_update r
  | _ => exact .same

end effect

/-- A slot without a process has pid 0; all other pids are different, and smaller than the
next one. -/
structure PidInv (T : Table ι) : Prop where
  unused : ∀ q, T.state q = .unused ↔ T.pid q = 0
  range : ∀ q, 0 ≤ T.pid q ∧ T.pid q < T.nextpid
  inj : ∀ p q, T.pid p = T.pid q → T.pid p ≠ 0 → p = q

section pid
variable {init : ι} {s : Sys ι κ} {T : Table ι} {p q : ι} {a : Option κ} {c : κ}

omit [DecidableEq ι] in
lemma PidInv.of_state {U : Table ι} (h : PidInv T) (hp : U.pid = T.pid)
    (hn : U.nextpid = T.nextpid) (hs : ∀ q, U.state q = .unused ↔ T.state q = .unused) :
    PidInv U := by
  refine ⟨?_, ?_, ?_⟩
  · intro q
    rw [hs, hp]
    exact h.unused q
  · rw [hp, hn]
    exact h.range
  · rw [hp]
    exact h.inj

lemma unused_setState {x : ProcState} (hq : s.state q ≠ .unused) (hx : x ≠ .unused) (r : ι) :
    (s.setState q x).state r = .unused ↔ s.state r = .unused := by
  by_cases hr : r = q
  · subst hr
    simp [setState, hq, hx]
  · simp [setState, hr]

lemma PidInv.alloc (h : PidInv s.table) (hq : s.state q = .unused) :
    PidInv (s.allocprocFound q).table := by
  have h0 : s.pid q = 0 := (h.unused q).mp hq
  have hn : 0 < s.nextpid := h0 ▸ (h.range q).2
  refine ⟨?_, ?_, ?_⟩
  · intro r
    by_cases hr : r = q
    · subst hr
      simp [table, allocprocFound]
      omega
    · simpa [table, allocprocFound, hr] using h.unused r
  · intro r
    by_cases hr : r = q
    · subst hr
      simp [table, allocprocFound]
      omega
    · have hrange := h.range r
      simp only [table] at hrange
      simp [table, allocprocFound, hr]
      omega
  · intro r r' he hne
    have hrange := fun x => (h.range x).2
    by_cases hr : r = q
    · by_cases hr' : r' = q
      · rw [hr, hr']
      · have hlt := hrange r'
        simp only [table] at hlt
        simp [table, allocprocFound, hr, hr'] at he
        omega
    · by_cases hr' : r' = q
      · have hlt := hrange r
        simp only [table] at hlt
        simp [table, allocprocFound, hr, hr'] at he
        omega
      · refine h.inj r r' ?_ ?_
        · simpa [table, allocprocFound, hr, hr'] using he
        · simpa [table, allocprocFound, hr] using hne

lemma PidInv.free (h : PidInv s.table) : PidInv (s.freeproc q).table := by
  refine ⟨?_, ?_, ?_⟩
  · intro r
    by_cases hr : r = q
    · subst hr
      simp [table, freeproc]
    · simpa [table, freeproc, hr] using h.unused r
  · intro r
    by_cases hr : r = q
    · subst hr
      have hrange := h.range r
      simp only [table] at hrange
      simp [table, freeproc]
      omega
    · simpa [table, freeproc, hr] using h.range r
  · intro r r' he hne
    by_cases hr : r = q
    · simp [table, freeproc, hr] at hne
    · by_cases hr' : r' = q
      · simp [table, freeproc, hr, hr'] at he
        simp [table, freeproc, hr, he] at hne
      · refine h.inj r r' ?_ ?_
        · simpa [table, freeproc, hr, hr'] using he
        · simpa [table, freeproc, hr] using hne

omit [DecidableEq ι] in
theorem Inv.thread_used (h : Inv s) (hc : s.cpu c = .thread p) :
    s.state p ≠ .unused ∧ s.state p ≠ .used := by
  have hok := h.table.thread c p hc
  refine ⟨?_, h.table.not_used hc⟩
  intro hu
  rw [hu] at hok
  unfold Thread.ok at hok
  split at hok
  next w _ => cases w <;> cases hok
  next => exact hok
  next => cases hok

omit [DecidableEq ι] in
theorem Inv.off_of_recheck (hI : Inv s) (hc : s.cpu c = .recheck p) (hr : s.state p = .runnable)
    (c' : κ) : s.cpu c' ≠ .thread p := by
  intro hc'
  have hheld := hI.table.mem_held (.inl hc') (by simp [hr])
  have hmine : p ∈ held s c := by simp [held, hc, Cpu.held]
  have he := hI.locks.owner_eq hmine hheld
  rw [he, hc] at hc'
  cases hc'

omit [DecidableEq ι] in
theorem Inv.at_of_held (h : Inv s) (hp : (s.thread p).task.held ≠ []) :
    ∃ c, At s c p (s.thread p).task := by
  have hsw : (s.thread p).sw = .none := by
    by_contra hn
    exact hp (h.table.saved p hn)
  by_contra hc
  push Not at hc
  have hoff : ∀ c, s.cpu c ≠ .thread p := fun c hcp => hc c ⟨hcp, hsw, rfl⟩
  obtain ⟨w, hw⟩ := h.table.off p hoff
  rw [hw] at hsw
  cases hsw

omit [DecidableEq ι] in
theorem Inv.holder_unique (h : Inv s) {c' : κ} {p' : ι} {x y : Task ι} (hx : At s c p x)
    (hy : At s c' p' y) (hqx : x.held = [q]) (hqy : y.held = [q]) : p = p' ∧ x = y := by
  have h1 := mem_held_of_task hx.1 hx.2.1 (by rw [hx.2.2]; exact hqx)
  have h2 := mem_held_of_task hy.1 hy.2.1 (by rw [hy.2.2]; exact hqy)
  have hc := h.locks.owner_eq h1 h2
  subst hc
  have hp := hx.1.symm.trans hy.1
  cases hp
  exact ⟨rfl, hx.2.2.symm.trans hy.2.2⟩

omit [DecidableEq ι] in
theorem At.running {x : Task ι} (h : At s c p x) (hI : Inv s) : s.state p = .running :=
  running_of_none hI h.1 h.2.1

omit [DecidableEq ι] in
theorem At.child_used {x : Task ι} (h : At s c p x) (hI : Inv s) (hx : x.child = some q) :
    s.state q = .used := hI.table.child p q (by rw [h.2.2]; exact hx)

theorem PidInv.step (hI : Inv s) (h : PidInv s.table) (he : Effect init s a T) : PidInv T := by
  cases he with
  | same => exact h
  | wake q hq => exact h.of_state rfl rfl (unused_setState (by simp [hq]) (by simp))
  | @kill c p q pid todo hat hpid =>
    unfold killBody
    split
    next hq => exact h.of_state rfl rfl (unused_setState (by simp [hq]) (by simp))
    next => exact h.of_state rfl rfl fun _ => Iff.rfl
  | alloc hat hq => exact h.alloc hq
  | create hat => exact h.of_state rfl rfl fun _ => Iff.rfl
  | abort hat => exact h.free
  | adopt hat => exact h.of_state rfl rfl fun _ => Iff.rfl
  | ready hat =>
    have hu := hat.child_used hI rfl
    exact h.of_state rfl rfl (unused_setState (by simp [hu]) (by simp))
  | reap hat hq => exact h.free
  | disown hat hq => exact h.of_state rfl rfl fun _ => Iff.rfl
  | @off c p w hc hsw =>
    have hu := (hI.thread_used hc).1
    cases w with
    | sleep ch lk =>
      cases lk <;> exact h.of_state rfl rfl (unused_setState hu (by simp))
    | yield => exact h.of_state rfl rfl (unused_setState hu (by simp [Why.state]))
    | exit => exact h.of_state rfl rfl (unused_setState hu (by simp))
    | forkret => exact h.of_state rfl rfl (unused_setState hu (by simp [Why.state]))
  | @back c p w hc hsw => cases w <;> exact h.of_state rfl rfl fun _ => Iff.rfl
  | run hc hr => exact h.of_state rfl rfl (unused_setState (by simp [hr]) (by simp))
  | tick => exact h.of_state rfl rfl fun _ => Iff.rfl
  | mode m => exact h.of_state rfl rfl fun _ => Iff.rfl

theorem boot_pid (init : ι) : PidInv (boot init : Sys ι κ).table := by
  refine ⟨?_, ?_, ?_⟩
  · intro q
    by_cases hq : q = init <;> simp [table, boot]
  · intro q
    by_cases hq : q = init <;> simp [table, boot, hq]
  · intro p q he hne
    by_cases hp : p = init
    · by_cases hq : q = init
      · rw [hp, hq]
      · simp [table, boot, hp, hq] at he
    · simp [table, boot, hp] at hne

end pid

end Xv6.Scheduler
