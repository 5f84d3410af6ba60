import Xv6.ExitWait

/-! The exit status on its way from `exit` to `wait` or `wait_sched`. The process table is
extended by `xstate` and by what the calls return; the return value -1 is `none`. -/
namespace Xv6.Scheduler

open Function Transition List Option

variable {ι κ : Type*}

inductive Note (ι : Type*)
  | exitCall (p : ι)
  | zombie (p : ι)
  | reaped (p q : ι)
  | failed (p : ι)
  | freed (np : ι)
  deriving DecidableEq, Repr

/-- The table with `xstate`, the argument of the `exit` each thread is in, the pid and status
of every process that has exited so far, and every return from `wait` so far. -/
structure ExitSys (ι κ : Type*) where
  sys : Sys ι κ
  status : ι → ℤ
  xstate : ι → ℤ
  exits : List (ℤ × ℤ)
  returns : List (ι × Option (ℤ × ℤ))

def ExitSys.reaps (s : ExitSys ι κ) : List (ℤ × ℤ) := s.returns.filterMap Prod.snd

def exitBoot [DecidableEq ι] (init : ι) : ExitSys ι κ where
  sys := boot init
  status := fun _ => 0
  xstate := fun _ => 0
  exits := []
  returns := []

section
variable [DecidableEq ι]

def stepNote (s : Sys ι κ) (p : ι) : Switch ι → Task ι → Option (Note ι)
  | .set .exit, _ => some (.zombie p)
  | .none, .waitHold q _ => if s.state q = .zombie then some (.reaped p q) else none
  | .none, .wait [] havekids =>
      if havekids ∧ s.killed p = false then none else some (.failed p)
  | _, _ => none

def failNote (s : Sys ι κ) (p : ι) : Task ι → Option (Note ι)
  | .allocprocFound np | .forkCopy np => some (.freed np)
  | .waitHold q _ => if s.state q = .zombie then some (.failed p) else none
  | _ => none

def note (s : Sys ι κ) : Event ι κ → Option (Note ι)
  | .step c =>
      match s.cpu c with
      | .thread p => stepNote s p (s.thread p).sw (s.thread p).task
      | _ => none
  | .fail c =>
      match s.cpu c with
      | .thread p => failNote s p (s.thread p).task
      | _ => none
  | .call c .exit =>
      match s.cpu c with
      | .thread p => some (.exitCall p)
      | _ => none
  | _ => none

/-- `exit` stores its argument in `xstate`, `wait` copies it out, and `freeproc` clears it. -/
def ExitSys.record (s : ExitSys ι κ) (t : Sys ι κ) (status : ℤ) : Option (Note ι) → ExitSys ι κ
  | none => { s with sys := t }
  | some (.exitCall p) => { s with sys := t, status := update s.status p status }
  | some (.zombie p) =>
      { s with
        sys := t
        xstate := update s.xstate p (s.status p)
        exits := s.exits ++ [(s.sys.pid p, s.status p)] }
  | some (.reaped p q) =>
      { s with
        sys := t
        xstate := update s.xstate q 0
        returns := s.returns ++ [(p, some (s.sys.pid q, s.xstate q))] }
  | some (.failed p) => { s with sys := t, returns := s.returns ++ [(p, none)] }
  | some (.freed np) => { s with sys := t, xstate := update s.xstate np 0 }

def exitNext [DecidableEq κ] (procs : List ι) (init : ι) (s : ExitSys ι κ) (x : Event ι κ × ℤ) :
    Option (ExitSys ι κ) :=
  (next procs init s.sys x.1).map fun t => s.record t x.2 (note s.sys x.1)

inductive Noted (s : Sys ι κ) (T : Table ι) : Option (Note ι) → Prop
  | quiet {n} : (∀ m, n = some m → ∃ p, m = .exitCall p) →
      (∀ q, T.state q = .zombie ↔ s.state q = .zombie) → Noted s T n
  | zombie {c p} : s.cpu c = .thread p → (s.thread p).sw = .set .exit →
      T = (s.goOff p .exit).table → Noted s T (some (.zombie p))
  | reaped {c p q todo} : At s c p (.waitHold q todo) → s.state q = .zombie →
      T = (s.freeproc q).table → Noted s T (some (.reaped p q))
  | failed {p} : T = s.table → Noted s T (some (.failed p))
  | freed {c p np} : At s c p (.allocprocFound np) ∨ At s c p (.forkCopy np) →
      T = (s.freeproc np).table → Noted s T (some (.freed np))

end

structure ReapInv (s : ExitSys ι κ) : Prop where
  zombie : ∀ q, s.sys.state q = .zombie → (s.sys.pid q, s.xstate q) ∈ s.exits
  kept : ∀ x ∈ s.exits, x ∈ s.reaps ∨
    ∃ q, s.sys.state q = .zombie ∧ s.sys.pid q = x.1 ∧ s.xstate q = x.2
  gone : ∀ x ∈ s.reaps, x ∈ s.exits ∧ x.1 < s.sys.nextpid ∧
    ∀ q, s.sys.state q ≠ .unused → s.sys.pid q ≠ x.1
  exits_nodup : (s.exits.map Prod.fst).Nodup
  reaps_nodup : (s.reaps.map Prod.fst).Nodup

variable {procs : List ι} {init : ι} {s t : Sys ι κ} {e : Event ι κ} {a : Option κ} {c : κ}
  {p q r x : ι} {T : Table ι}

variable [DecidableEq ι]

lemma Effect.nextpid_le (he : Effect init s a T) : s.nextpid ≤ T.nextpid := by
  cases he with
  | alloc _ _ => simp [Sys.table, Sys.allocprocFound]
  | @kill _ _ q _ _ _ _ =>
    unfold Sys.killBody
    split <;> exact le_rfl
  | @off _ _ w _ _ =>
    cases w with
    | sleep ch lk => cases lk <;> exact le_rfl
    | _ => exact le_rfl
  | @back _ _ w _ _ => cases w <;> exact le_rfl
  | _ => exact le_rfl

omit [DecidableEq ι] in
lemma callStep_table [DecidableEq ι] {f : Call ι} (ht : callStep procs init s p f = some t) :
    t.table = s.table := by
  cases f with
  | exit =>
    simp only [callStep] at ht
    split at ht <;> cases ht
    rfl
  | _ => cases ht; rfl

lemma Effect.zombie_iff (he : Effect init s a T) (hI : Inv s)
    (hexit : ∀ c q, a = some c → s.cpu c = .thread q → (s.thread q).sw ≠ .set .exit)
    (hreap : ∀ c p todo, a = some c → At s c p (.waitHold q todo) → s.state q ≠ .zombie) :
    T.state q = .zombie ↔ s.state q = .zombie := by
  constructor
  · intro hq
    rcases he.zombie_born hq with hs | ⟨c, ha, hc, hsw⟩
    · exact hs
    · exact absurd hsw (hexit c q ha hc)
  · intro hq
    have hs := he.shift q
    generalize T.state q = y at hs
    cases hs with
    | same => exact hq
    | wake h | take _ _ h | run _ _ h =>
      rw [hq] at h
      cases h
    | abort _ hat =>
      have hu : s.state q = .used := by
        rcases hat with hat | hat <;> exact hat.child_used hI rfl
      rw [hq] at hu
      cases hu
    | ready _ hat =>
      have hu := hat.child_used hI rfl
      rw [hq] at hu
      cases hu
    | reap ha hat hz => exact absurd hz (hreap _ _ _ ha hat)
    | off ha hc hsw =>
      have hok := hI.table.thread _ q hc
      rw [Thread.ok, hsw, hq] at hok
      cases hok

section note
variable [DecidableEq κ]

lemma step_noted (hI : Inv s) (ht : next procs init s (.step c) = some t) :
    Noted s t.table (note s (.step c)) := by
  have he : Effect init s (some c) t.table := next_effect ht
  -- a thread elsewhere neither exits nor reaps
  have hquiet : (∀ q, s.cpu c = .thread q → (s.thread q).sw ≠ .set .exit) →
      (∀ p q todo, At s c p (.waitHold q todo) → s.state q ≠ .zombie) →
      Noted s t.table none := by
    intro hexit hreap
    refine .quiet (by simp) fun q => he.zombie_iff hI ?_ ?_
    · rintro _ q ⟨⟩
      exact hexit q
    · rintro _ p todo ⟨⟩
      exact hreap p q todo
  simp only [note]
  split
  next p hc =>
    unfold stepNote
    split
    next hsw =>
      simp only [next, cpuStep, hc, threadStep, hsw, some.injEq] at ht
      subst ht
      exact .zombie hc hsw rfl
    next q todo hsw hx =>
      split
      next hz =>
        simp only [next, cpuStep, hc, threadStep, hsw, hx, taskStep, if_pos hz,
          some.injEq] at ht
        subst ht
        exact .reaped ⟨hc, hsw, hx⟩ hz rfl
      next hz =>
        refine hquiet ?_ ?_
        · intro q' hc'
          cases hc.symm.trans hc'
          simp [hsw]
        · intro p' q' todo' hat
          cases hc.symm.trans hat.1
          cases hx.symm.trans hat.2.2
          exact hz
    next havekids hsw hx =>
      split
      next hk =>
        refine hquiet ?_ ?_
        · intro q' hc'
          cases hc.symm.trans hc'
          simp [hsw]
        · intro p' q' todo' hat
          cases hc.symm.trans hat.1
          cases hx.symm.trans hat.2.2
      next hk =>
        simp only [next, cpuStep, hc, threadStep, hsw, hx, taskStep, if_neg hk,
          some.injEq] at ht
        subst ht
        exact .failed rfl
    next h1 h2 h3 =>
      refine hquiet ?_ ?_
      · intro q' hc'
        cases hc.symm.trans hc'
        exact h1
      · intro p' q' todo' hat
        cases hc.symm.trans hat.1
        exact absurd hat.2.2 (h2 q' todo' hat.2.1)
  next hno =>
    refine hquiet ?_ ?_
    · intro q hc
      exact absurd hc (hno q)
    · intro p q todo hat
      exact absurd hat.1 (hno p)

lemma fail_noted (ht : next procs init s (.fail c) = some t) :
    Noted s t.table (note s (.fail c)) := by
  simp only [next] at ht
  split at ht
  next p hc =>
    simp only [note, hc]
    split at ht
    next np hsw hx =>
      cases ht
      rw [hx]
      exact .freed (.inl ⟨hc, hsw, hx⟩) rfl
    next np hsw hx =>
      cases ht
      rw [hx]
      exact .freed (.inr ⟨hc, hsw, hx⟩) rfl
    next q todo hsw hx =>
      split at ht
      next hz =>
        cases ht
        rw [hx, failNote, if_pos hz]
        exact .failed rfl
      next => cases ht
    next => cases ht
  next => cases ht

theorem next_noted (hI : Inv s) (ht : next procs init s e = some t) :
    Noted s t.table (note s e) := by
  cases e with
  | step c => exact step_noted hI ht
  | fail c => exact fail_noted ht
  | call c f =>
    have hT : t.table = s.table := by
      simp only [next] at ht
      split at ht
      next =>
        split at ht
        next => exact callStep_table ht
        next => cases ht
      next => cases ht
    refine .quiet ?_ fun q => by rw [hT]; rfl
    intro m hm
    cases f <;> simp only [note] at hm <;> try cases hm
    split at hm
    · cases hm
      exact ⟨_, rfl⟩
    · cases hm
  | intr _ _ _ | tick | setSched _ =>
    have he := next_effect ht
    exact .quiet (by simp [note]) fun q => he.zombie_iff hI (by simp [Event.cpu]) (by simp [Event.cpu])

end note

section reap

lemma Effect.pid_zombie (he : Effect init s a T) (hq : s.state q = .zombie)
    (hT : T.state q = .zombie) : T.pid q = s.pid q := by
  rcases he.pid_cases q with h | ⟨h, _⟩ | ⟨_, h, _⟩
  · exact h
  · rw [hq] at h
    cases h
  · rw [hT] at h
    cases h

lemma Effect.pid_gone (he : Effect init s a T) (hI : Inv s) (hP : PidInv s.table) {n : ℤ}
    (hn : n < s.nextpid) (h : ∀ q, s.state q ≠ .unused → s.pid q ≠ n) (q : ι)
    (hq : T.state q ≠ .unused) : T.pid q ≠ n := by
  have hP' := hP.step hI he
  rcases he.pid_cases q with hp | ⟨_, hp⟩ | ⟨_, hp, _⟩
  · rw [hp]
    refine h q fun hu => hq ?_
    have h0 : s.pid q = 0 := (hP.unused q).mp hu
    exact (hP'.unused q).mpr (hp.trans h0)
  · rw [hp]
    exact hn.ne'
  · exact absurd hp hq

variable {u v : ExitSys ι κ}

section
variable (h : ReapInv u) (hI : Inv u.sys) (hP : PidInv u.sys.table)
include h hI hP

lemma ReapInv.zombie_step (hc : u.sys.cpu c = .thread p) (hsw : (u.sys.thread p).sw = .set .exit)
    {status : ℤ} (hT : t.table = (u.sys.goOff p .exit).table) (he : Effect init u.sys a t.table) :
    ReapInv (u.record t status (some (.zombie p))) := by
  have hrun : u.sys.state p = .running := by
    have hok := hI.table.thread c p hc
    rwa [Thread.ok, hsw] at hok
  have hpid : t.pid = u.sys.pid := congrArg Table.pid hT
  have hstate : t.state = update u.sys.state p .zombie := congrArg Table.state hT
  have hother : ∀ {q}, u.sys.state q = .zombie → q ≠ p := by
    rintro q hq rfl
    rw [hrun] at hq
    cases hq
  have hne : p ∈ {q | u.sys.state q ≠ .unused} := by simp [hrun]
  -- no exit of this pid is on record
  have hnew : u.sys.pid p ∉ u.exits.map Prod.fst := by
    intro hmem
    obtain ⟨y, hy, hyp⟩ := mem_map.mp hmem
    rcases h.kept y hy with hr | ⟨q, hq, hqp, _⟩
    · exact (h.gone y hr).2.2 p hne hyp.symm
    · refine hother hq (hP.inj q p (hqp.trans hyp) ?_)
      intro h0
      have hu := (hP.unused q).mpr h0
      rw [show u.sys.table.state q = u.sys.state q from rfl, hq] at hu
      cases hu
  refine ⟨?_, ?_, ?_, ?_, h.reaps_nodup⟩
  · intro q hq
    refine mem_append.mpr ?_
    by_cases hqp : q = p
    · subst hqp
      exact .inr (by simp [ExitSys.record, hpid])
    · have hs : u.sys.state q = .zombie := by
        simpa [ExitSys.record, hstate, hqp] using hq
      exact .inl (by simpa [ExitSys.record, hpid, hqp] using h.zombie q hs)
  · intro y hy
    rcases mem_append.mp hy with hy | hy
    · refine (h.kept y hy).imp id ?_
      rintro ⟨q, hq, hqp, hqx⟩
      have hqp' := hother hq
      exact ⟨q, by simp [ExitSys.record, hstate, hqp', hq], by simp [ExitSys.record, hpid, hqp],
        by simp [ExitSys.record, hqp', hqx]⟩
    · rw [mem_singleton.mp hy]
      exact .inr ⟨p, by simp [ExitSys.record, hstate], by simp [ExitSys.record, hpid],
        by simp [ExitSys.record]⟩
  · intro y hy
    obtain ⟨hmem, hlt, hgone⟩ := h.gone y hy
    exact ⟨mem_append_left _ hmem, lt_of_lt_of_le hlt he.nextpid_le,
      he.pid_gone hI hP hlt hgone⟩
  · simp only [ExitSys.record, map_append, map_cons, map_nil]
    exact List.Nodup.append h.exits_nodup (by simp) (by simpa using hnew)

lemma ReapInv.reaped_step (hq : u.sys.state q = .zombie) {status : ℤ}
    (hT : t.table = (u.sys.freeproc q).table) (he : Effect init u.sys a t.table) :
    ReapInv (u.record t status (some (.reaped p q))) := by
  have hpid : t.pid = update u.sys.pid q 0 := congrArg Table.pid hT
  have hstate : t.state = update u.sys.state q .unused := congrArg Table.state hT
  have hreaps : (u.record t status (some (.reaped p q))).reaps =
      u.reaps ++ [(u.sys.pid q, u.xstate q)] := by simp [ExitSys.reaps, ExitSys.record]
  have hpos : u.sys.pid q ≠ 0 := by
    intro h0
    have hu := (hP.unused q).mpr h0
    rw [show u.sys.table.state q = u.sys.state q from rfl, hq] at hu
    cases hu
  refine ⟨?_, ?_, ?_, h.exits_nodup, ?_⟩
  · intro r hr
    have hrq : r ≠ q := by
      rintro rfl
      simp [ExitSys.record, hstate] at hr
    have hs : u.sys.state r = .zombie := by simpa [ExitSys.record, hstate, hrq] using hr
    simpa [ExitSys.record, hpid, hrq] using h.zombie r hs
  · intro y hy
    rw [hreaps]
    rcases h.kept y hy with hr | ⟨r, hr, hrp, hrx⟩
    · exact .inl (mem_append_left _ hr)
    · by_cases hrq : r = q
      · subst hrq
        exact .inl (mem_append_right _ (by simp [hrp, hrx]))
      · exact .inr ⟨r, by simp [ExitSys.record, hstate, hrq, hr],
          by simp [ExitSys.record, hpid, hrq, hrp], by simp [ExitSys.record, hrq, hrx]⟩
  · intro y hy
    rw [hreaps] at hy
    rcases mem_append.mp hy with hy | hy
    · obtain ⟨hmem, hlt, hgone⟩ := h.gone y hy
      exact ⟨hmem, lt_of_lt_of_le hlt he.nextpid_le, he.pid_gone hI hP hlt hgone⟩
    · rw [mem_singleton.mp hy]
      refine ⟨h.zombie q hq, lt_of_lt_of_le (hP.range q).2 he.nextpid_le, ?_⟩
      intro r hr
      have hrq : r ≠ q := by
        rintro rfl
        simp [ExitSys.record, hstate] at hr
      simp only [ExitSys.record, hpid, update_of_ne hrq]
      exact fun heq => hrq (hP.inj q r heq.symm hpos).symm
  · rw [hreaps, map_append]
    refine List.Nodup.append h.reaps_nodup (by simp) ?_
    have hnot : u.sys.pid q ∉ u.reaps.map Prod.fst := by
      intro hmem
      obtain ⟨y, hy, hyq⟩ := mem_map.mp hmem
      exact (h.gone y hy).2.2 q (by simp [hq]) hyq.symm
    simpa using hnot

lemma ReapInv.keep (he : Effect init u.sys a v.sys.table)
    (hz : ∀ q, v.sys.state q = .zombie ↔ u.sys.state q = .zombie)
    (hx : ∀ q, u.sys.state q = .zombie → v.xstate q = u.xstate q) (hexits : v.exits = u.exits)
    (hreaps : v.reaps = u.reaps) : ReapInv v := by
  refine ⟨?_, ?_, ?_, by rw [hexits]; exact h.exits_nodup, by rw [hreaps]; exact h.reaps_nodup⟩
  · intro q hq
    have hs := (hz q).mp hq
    have hp : v.sys.pid q = u.sys.pid q := he.pid_zombie hs hq
    rw [hexits, hp, hx q hs]
    exact h.zombie q hs
  · intro y hy
    rw [hexits] at hy
    rw [hreaps]
    refine (h.kept y hy).imp id ?_
    rintro ⟨q, hq, hqp, hqx⟩
    have hp : v.sys.pid q = u.sys.pid q := he.pid_zombie hq ((hz q).mpr hq)
    exact ⟨q, (hz q).mpr hq, hp.trans hqp, (hx q hq).trans hqx⟩
  · intro y hy
    rw [hreaps] at hy
    obtain ⟨hmem, hlt, hgone⟩ := h.gone y hy
    rw [hexits]
    exact ⟨hmem, lt_of_lt_of_le hlt he.nextpid_le, he.pid_gone hI hP hlt hgone⟩

lemma ReapInv.step [DecidableEq κ] {x : Event ι κ × ℤ} (hv : exitNext procs init u x = some v) :
    ReapInv v := by
  simp only [exitNext, map_eq_some_iff] at hv
  obtain ⟨t, ht, rfl⟩ := hv
  have he := next_effect ht
  have hn := next_noted hI ht
  generalize note u.sys x.1 = n at hn
  cases hn with
  | quiet hn hz =>
    cases n with
    | none => exact h.keep hI hP he hz (fun _ _ => rfl) rfl rfl
    | some m =>
      obtain ⟨p, rfl⟩ := hn m rfl
      exact h.keep hI hP he hz (fun _ _ => rfl) rfl rfl
  | zombie hc hsw hT => exact h.zombie_step hI hP hc hsw hT he
  | reaped hat hq hT => exact h.reaped_step hI hP hq hT he
  | failed hT =>
    refine h.keep (v := u.record t x.2 (some (.failed _))) hI hP he ?_ (fun _ _ => rfl) rfl ?_
    · intro q
      rw [show (u.record t x.2 (some (.failed _))).sys.state = t.table.state from rfl, hT]
      rfl
    · simp [ExitSys.reaps, ExitSys.record]
  | @freed c p np hat hT =>
    have hu : u.sys.state np = .used := by
      rcases hat with hat | hat <;> exact hat.child_used hI rfl
    have hne : ∀ {q}, u.sys.state q = .zombie → q ≠ np := by
      rintro q hq rfl
      rw [hu] at hq
      cases hq
    refine h.keep (v := u.record t x.2 (some (.freed np))) hI hP he ?_ ?_ rfl rfl
    · intro q
      rw [show (u.record t x.2 (some (.freed np))).sys.state = t.table.state from rfl, hT]
      by_cases hq : q = np
      · simp [Sys.table, Sys.freeproc, hq, hu]
      · simp [Sys.table, Sys.freeproc, hq]
    · intro q hq
      simp [ExitSys.record, hne hq]

end

lemma boot_reap (init : ι) : ReapInv (exitBoot init : ExitSys ι κ) := by
  refine ⟨?_, ?_, ?_, by simp [exitBoot], by simp [exitBoot, ExitSys.reaps]⟩
  · intro q hq
    by_cases h : q = init <;> simp [exitBoot, boot, h] at hq
  · intro y hy
    simp [exitBoot] at hy
  · intro y hy
    simp [exitBoot, ExitSys.reaps] at hy

end reap

def HoldsChild (s : Sys ι κ) : Prop :=
  ∀ p q todo, s.thread p = ⟨.waitHold q todo, .none⟩ → s.parent q = some p

lemma HoldsChild.other {todo : List ι} (h : HoldsChild s) (hI : Inv s) (hP : PidInv s.table)
    (hT : TreeInv init s) (hW : WaitInv s) (hH : HandoverInv init s) (he : Effect init s a T)
    (hact : ∀ c, a = some c → s.cpu c ≠ .thread p)
    (hp : s.thread p = ⟨.waitHold q todo, .none⟩) : T.parent q = some p := by
  have hq := h p q todo hp
  have hwaits : (s.thread p).waits = true := by
    rw [hp]
    rfl
  obtain ⟨c, hc⟩ := hI.on_of_waits hwaits
  have hno : ∀ c' p', a = some c' → s.cpu c' = .thread p' → (s.thread p').waits = false := by
    intro c' p' ha hc'
    by_contra hp'
    have hpp := hW.unique hc hwaits hc' (by simpa using hp')
    subst hpp
    exact hact c' ha hc'
  have hat : At s c p (.waitHold q todo) := at_of_thread hc hp rfl
  rcases he.parent_kept (q := q) (by rw [hq]; simp) with hk | hu
  · obtain ⟨r, hr⟩ := ne_none_iff_exists'.mp hk
    have hs := (hH.calm he hno).1 q r hr
    rw [hr, ← hs, hq]
  · -- nobody else frees the slot: `fork` and `wait` hold its lock when they do
    have hs := he.shift q
    rw [hu] at hs
    generalize hy : ProcState.unused = y at hs
    cases hs with
    | same => exact absurd hy.symm (hT.child_ne hP hq)
    | abort ha hat' =>
      rcases hat' with hat' | hat'
      · cases (hI.holder_unique hat hat' rfl rfl).2
      · cases (hI.holder_unique hat hat' rfl rfl).2
    | reap ha hat' _ =>
      have hw := hno _ _ ha hat'.1
      rw [hat'.thread_eq] at hw
      cases hw
    | @off _ w _ _ _ => cases w <;> cases hy
    | _ => cases hy

lemma Moves.holds {d u : Thread ι} {w : Option κ} {todo : List ι}
    (hm : Moves procs init s e c p d u w T) (hu : u = ⟨.waitHold q todo, .none⟩)
    (hback : ∀ w, d.sw = .resumed w → d.task.waits = false) :
    s.parent q = some p ∧ T = s.table := by
  cases hm with
  | waitChild hq =>
    cases hu
    exact ⟨hq, rfl⟩
  | @switchBack x w =>
    cases hu
    have hw := hback w rfl
    cases hw
  | _ => cases hu

lemma HoldsChild.step [DecidableEq κ] (h : HoldsChild s) (hI : Inv s) (hP : PidInv s.table)
    (hT : TreeInv init s) (hW : WaitInv s) (hH : HandoverInv init s)
    (ht : next procs init s e = some t) : HoldsChild t := by
  intro p q todo hp
  have hctl := next_control ht
  rcases hctl.thread_cases p with ⟨hth | ⟨hrun, hth⟩, a, ho, hact⟩ | ⟨_, _, _, _, hth⟩ |
    ⟨c, ha, hc, hm⟩
  · exact h.other hI hP hT hW hH ho hact (hth.symm.trans hp)
  · rw [hth] at hp
    have hsw : switchIn (s.thread p).sw = .none := congrArg Thread.sw hp
    by_cases hon : ∃ c, s.cpu c = .thread p
    · obtain ⟨c, hc⟩ := hon
      have hok := hI.table.thread c p hc
      cases hx : (s.thread p).sw with
      | none =>
        rw [Thread.ok, hx, hrun] at hok
        cases hok
      | _ =>
        rw [hx] at hsw
        cases hsw
    · push Not at hon
      obtain ⟨w, hx⟩ := hI.table.off p hon
      rw [hx] at hsw
      cases hsw
  · rw [hth] at hp
    cases hp
  · obtain ⟨hq, hT'⟩ := hm.holds hp fun w hsw => hW.back hI hc hsw
    rw [show t.parent = t.table.parent from rfl, hT']
    exact hq

structure ExitInv (init : ι) (s : ExitSys ι κ) : Prop where
  inv : Inv s.sys
  pid : PidInv s.sys.table
  tree : TreeInv init s.sys
  wait : WaitInv s.sys
  handover : HandoverInv init s.sys
  holds : HoldsChild s.sys
  reap : ReapInv s

lemma boot_exit (init : ι) : ExitInv init (exitBoot init : ExitSys ι κ) where
  inv := boot_inv init
  pid := boot_pid init
  tree := boot_tree init
  wait := boot_wait init
  handover := boot_handover init
  holds := by
    intro p q todo hp
    cases hp
  reap := boot_reap init

lemma record_sys {u : ExitSys ι κ} (t : Sys ι κ) (status : ℤ) (n : Option (Note ι)) :
    (u.record t status n).sys = t := by
  rcases n with _ | m
  · rfl
  · cases m <;> rfl

section run
variable [DecidableEq κ] {u v : ExitSys ι κ}

lemma ExitInv.step (hall : ∀ q, q ∈ procs) (h : ExitInv init u) {x : Event ι κ × ℤ}
    (hg : NoSlotSleep x.1) (hv : exitNext procs init u x = some v) : ExitInv init v := by
  have hr := h.reap.step h.inv h.pid hv
  simp only [exitNext, map_eq_some_iff] at hv
  obtain ⟨t, ht, rfl⟩ := hv
  refine ⟨?_, ?_, ?_, ?_, ?_, ?_, hr⟩
  all_goals rw [record_sys]
  · exact inv_step h.inv ht
  · exact h.pid.step h.inv (next_effect ht)
  · exact h.tree.step hall h.inv h.pid ht
  · exact h.wait.step h.inv ht
  · exact h.handover.step hall h.inv h.wait h.tree hg ht
  · exact h.holds.step h.inv h.pid h.tree h.wait h.handover ht

lemma exitInv_run (hall : ∀ q, q ∈ procs) {es : List (Event ι κ × ℤ)}
    (h : Run (Guarded (exitNext procs init) fun _ x => NoSlotSleep x.1)
      (exitBoot init) es u) : ExitInv init u :=
  h.invariant (fun _ _ _ hs hv => hs.step hall hv.1 hv.2) (boot_exit init)

/-- No exit notification is lost, every exited process is reaped at most once, by its parent,
which gets its pid and status, and a call that returns -1 reaps nothing. -/
structure HandedOver (procs : List ι) (init : ι) (u : ExitSys ι κ) : Prop where
  noticed : u.sys.waitLock = none → ∀ p q, u.sys.table.Asleep p → u.sys.parent q = some p →
    u.sys.state q ≠ .zombie
  exits_once : (u.exits.map Prod.fst).Nodup
  reaps_once : (u.reaps.map Prod.fst).Nodup
  delivered : ∀ x ∈ u.reaps, x ∈ u.exits
  by_parent : ∀ x v q, exitNext procs init u x = some v → u.sys.state q = .zombie →
    v.sys.state q ≠ .zombie → v.sys.state q = .unused ∧ ∃ p, u.sys.parent q = some p ∧
      (u.sys.pid q, u.xstate q) ∈ u.exits ∧
      v.returns = u.returns ++ [(p, some (u.sys.pid q, u.xstate q))]
  reaped : ∀ x v p y, exitNext procs init u x = some v →
    v.returns = u.returns ++ [(p, some y)] → ∃ q, u.sys.parent q = some p ∧
      u.sys.state q = .zombie ∧ (u.sys.pid q, u.xstate q) = y ∧ v.sys.state q = .unused
  failed : ∀ x v p, exitNext procs init u x = some v → v.returns = u.returns ++ [(p, none)] →
    v.sys.table = u.sys.table ∧ v.xstate = u.xstate
  kept : ∀ x ∈ u.exits, x ∈ u.reaps ∨
    ∃ q, u.sys.state q = .zombie ∧ u.sys.pid q = x.1 ∧ u.xstate q = x.2

lemma ExitInv.by_parent (h : ExitInv init u) {x : Event ι κ × ℤ}
    (hv : exitNext procs init u x = some v) (hq : u.sys.state q = .zombie)
    (hv' : v.sys.state q ≠ .zombie) : v.sys.state q = .unused ∧ ∃ p, u.sys.parent q = some p ∧
      (u.sys.pid q, u.xstate q) ∈ u.exits ∧
      v.returns = u.returns ++ [(p, some (u.sys.pid q, u.xstate q))] := by
  simp only [exitNext, map_eq_some_iff] at hv
  obtain ⟨t, ht, rfl⟩ := hv
  rw [record_sys] at hv' ⊢
  have hn := next_noted h.inv ht
  generalize note u.sys x.1 = n at hn
  cases hn with
  | quiet _ hz => exact absurd ((hz q).mpr hq) hv'
  | @zombie c p hc hsw hT =>
    have hstate : t.state = update u.sys.state p .zombie := congrArg Table.state hT
    refine absurd ?_ hv'
    by_cases hqp : q = p <;> simp [hstate, hqp, hq]
  | @reaped c p r todo hat hr hT =>
    have hstate : t.state = update u.sys.state r .unused := congrArg Table.state hT
    by_cases hqr : q = r
    · subst hqr
      exact ⟨by simp [hstate], p, h.holds p q todo hat.thread_eq, h.reap.zombie q hq, rfl⟩
    · exact absurd (by simp [hstate, hqr, hq]) hv'
  | failed hT =>
    have hstate : t.state = u.sys.state := congrArg Table.state hT
    exact absurd (by rw [hstate]; exact hq) hv'
  | @freed c p np hat hT =>
    have hstate : t.state = update u.sys.state np .unused := congrArg Table.state hT
    have hu : u.sys.state np = .used := by
      rcases hat with hat | hat <;> exact hat.child_used h.inv rfl
    have hqn : q ≠ np := by
      rintro rfl
      rw [hq] at hu
      cases hu
    exact absurd (by simp [hstate, hqn, hq]) hv'

lemma ExitInv.reaped (h : ExitInv init u) {x : Event ι κ × ℤ} {y : ℤ × ℤ}
    (hv : exitNext procs init u x = some v) (hr : v.returns = u.returns ++ [(p, some y)]) :
    ∃ q, u.sys.parent q = some p ∧ u.sys.state q = .zombie ∧ (u.sys.pid q, u.xstate q) = y ∧
      v.sys.state q = .unused := by
  simp only [exitNext, map_eq_some_iff] at hv
  obtain ⟨t, ht, rfl⟩ := hv
  have hn := next_noted h.inv ht
  generalize note u.sys x.1 = n at hn hr
  rw [record_sys]
  cases hn with
  | quiet hn _ =>
    cases n with
    | none => simp [ExitSys.record] at hr
    | some m =>
      obtain ⟨p, rfl⟩ := hn m rfl
      simp [ExitSys.record] at hr
  | @reaped c p' q todo hat hq hT =>
    have hstate : t.state = update u.sys.state q .unused := congrArg Table.state hT
    simp only [ExitSys.record, append_cancel_left_eq, cons.injEq, Prod.mk.injEq,
      some.injEq, and_true] at hr
    obtain ⟨rfl, rfl⟩ := hr
    exact ⟨q, h.holds p' q todo hat.thread_eq, hq, rfl, by simp [hstate]⟩
  | zombie _ _ _ | failed _ | freed _ _ => simp [ExitSys.record] at hr

lemma ExitInv.failed (h : ExitInv init u) {x : Event ι κ × ℤ}
    (hv : exitNext procs init u x = some v) (hr : v.returns = u.returns ++ [(p, none)]) :
    v.sys.table = u.sys.table ∧ v.xstate = u.xstate := by
  simp only [exitNext, map_eq_some_iff] at hv
  obtain ⟨t, ht, rfl⟩ := hv
  have hn := next_noted h.inv ht
  generalize note u.sys x.1 = n at hn hr
  rw [record_sys]
  cases hn with
  | quiet hn _ =>
    cases n with
    | none => simp [ExitSys.record] at hr
    | some m =>
      obtain ⟨p, rfl⟩ := hn m rfl
      simp [ExitSys.record] at hr
  | failed hT => exact ⟨hT, rfl⟩
  | zombie _ _ _ | reaped _ _ _ | freed _ _ => simp [ExitSys.record] at hr

/-- The hand-over from `exit` to `wait` in every run. -/
theorem exit_wait_handover (hall : ∀ q, q ∈ procs) {es : List (Event ι κ × ℤ)}
    (h : Run (Guarded (exitNext procs init) fun _ x => NoSlotSleep x.1)
      (exitBoot init) es u) : HandedOver procs init u := by
  have hu := exitInv_run hall h
  exact
    { noticed := fun hfree _ _ hp hq => hu.handover.no_zombie hu.wait hfree hp hq
      exits_once := hu.reap.exits_nodup
      reaps_once := hu.reap.reaps_nodup
      delivered := fun x hx => (hu.reap.gone x hx).1
      by_parent := fun _ _ _ => hu.by_parent
      reaped := fun _ _ _ _ => hu.reaped
      failed := fun _ _ _ => hu.failed
      kept := hu.reap.kept }

end run

instance (e : Event (Fin 2) Unit) : Decidable (NoSlotSleep e) :=
  inferInstanceAs (Decidable (∀ c q, e ≠ .call c (.sleep (.slot q))))

def forkExitWait : List (Event (Fin 2) Unit × ℤ) :=
  replicate 6 (.step (), 0) ++ (.call () .fork, 0) :: replicate 10 (.step (), 0) ++
    (.call () .wait, 0) :: replicate 17 (.step (), 0) ++
    (.call () .exit, 7) :: replicate 23 (.step (), 0)

theorem exit_wait_handover_fork : ∃ u : ExitSys (Fin 2) Unit,
    Run (Guarded (exitNext (finRange 2) 0) fun _ x => NoSlotSleep x.1)
      (exitBoot 0) forkExitWait u ∧
    (u.exits = [(2, 7)] ∧ u.returns = [(0, some (2, 7))] ∧ u.sys.waitLock = none) ∧
    HandedOver (finRange 2) 0 u := by
  obtain ⟨u, hrun, hu⟩ := exists_run_of_replay
    (f := exitNext (finRange 2) (0 : Fin 2)) (G := fun _ x => NoSlotSleep x.1)
    (P := fun u : ExitSys (Fin 2) Unit => u.exits = [(2, 7)] ∧ u.returns = [(0, some (2, 7))] ∧
      u.sys.waitLock = none) (s := exitBoot 0) (l := forkExitWait) (by decide +kernel)
  exact ⟨u, hrun, by simpa using hu, exit_wait_handover mem_finRange hrun⟩

end Xv6.Scheduler
