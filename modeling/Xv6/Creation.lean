import Xv6.ProcessTree

/-! The making of a process: `allocproc` takes a slot in one step and sets its creation time
in a later one. -/
namespace Xv6.Scheduler

open Sys

variable {ι κ : Type*}

def creates (s : Sys ι κ) : Event ι κ → Option ι
  | .step c =>
      match s.cpu c with
      | .thread p =>
          match (s.thread p).sw, (s.thread p).task with
          | .none, .allocprocFound np => some np
          | _, _ => none
      | _ => none
  | _ => none

structure Created (s : Sys ι κ) (p : ι) : Prop where
  used : s.state p ≠ .unused
  alive : s.state p ≠ .zombie
  done : ∀ r, (s.thread r).task ≠ .allocprocFound p

variable [DecidableEq ι] {procs : List ι} {init : ι} {s t : Sys ι κ} {e : Event ι κ}
  {a : Option κ} {c : κ} {p q np : ι} {T : Table ι}

theorem Effect.creationTime_cases (he : Effect init s a T) (r : ι) :
    T.creationTime r = s.creationTime r ∨ T.state r = .unused ∨
      T.creationTime r = s.ticks ∧ ∃ c p, a = some c ∧ At s c p (.allocprocFound r) := by
  cases he with
  | @kill _ _ q _ _ _ _ =>
    unfold killBody
    split <;> exact .inl rfl
  | @create c p np hat =>
    by_cases hr : r = np
    · subst hr
      exact .inr (.inr ⟨by simp [table, allocprocInit], c, p, rfl, hat⟩)
    · exact .inl (by simp [table, allocprocInit, hr])
  | @abort _ _ np _ | @reap _ _ np _ _ _ =>
    by_cases hr : r = np
    · exact .inr (.inl (by simp [table, freeproc, hr]))
    · exact .inl (by simp [table, freeproc, hr])
  | @off _ _ w _ _ =>
    cases w with
    | sleep ch lk => cases lk <;> exact .inl rfl
    | _ => exact .inl rfl
  | @back _ _ w _ _ => cases w <;> exact .inl rfl
  | _ => exact .inl rfl

theorem Effect.ticks_le (he : Effect init s a T) : s.ticks ≤ T.ticks := by
  cases he with
  | @kill _ _ q _ _ _ _ =>
    unfold killBody
    split <;> exact le_rfl
  | @off _ _ w _ _ =>
    cases w with
    | sleep ch lk => cases lk <;> exact le_rfl
    | _ => exact le_rfl
  | @back _ _ w _ _ => cases w <;> exact le_rfl
  | tick => exact Nat.le_succ _
  | _ => exact le_rfl

lemma Moves.leaves {d u : Thread ι} {w : Option κ} {T : Table ι}
    (hm : Moves procs init s e c p d u w T) (hd : d = ⟨.allocprocFound np, .none⟩) :
    e = .step c ∧ T = (s.allocprocInit np).table ∨ T = (s.freeproc np).table := by
  cases hm with
  | create he =>
    cases hd
    exact .inl ⟨he, rfl⟩
  | abortFound _ =>
    cases hd
    exact .inr rfl
  | callYield hx _ =>
    cases hd
    cases hx
  | _ => cases hd

lemma Moves.takes {d u : Thread ι} {w : Option κ} {T : Table ι}
    {todo : List ι} (hm : Moves procs init s e c p d u w T)
    (hd : d = ⟨.allocprocHold q todo, .none⟩) (hq : s.state q = .unused) :
    u.task = .allocprocFound q := by
  cases hm with
  | alloc _ _ =>
    cases hd
    rfl
  | allocNext hne _ =>
    cases hd
    exact absurd hq hne
  | callYield hx _ =>
    cases hd
    cases hx
  | _ => cases hd

lemma used_of_shift [DecidableEq κ] (hI : Inv s) (ht : next procs init s e = some t)
    (hp : Created t p) : s.state p ≠ .unused ∧ s.state p ≠ .zombie := by
  have hctl := next_control ht
  have hs := hctl.effect.shift p
  have hused : t.table.state p ≠ .unused := hp.used
  have halive : t.table.state p ≠ .zombie := hp.alive
  generalize t.table.state p = x at hs hused halive
  cases hs with
  | same => exact ⟨hused, halive⟩
  | wake h | run _ _ h => simp [h]
  | @take c r todo ha hat hu =>
    rcases hctl.on_cpu hI hat.1 with ⟨hno, _⟩ | ⟨_, hm, _⟩
    · exact absurd ha hno
    · exact absurd (hm.takes hat.thread_eq hu) (hp.done r)
  | abort _ _ | reap _ _ _ => exact absurd rfl hused
  | ready _ hat => simp [hat.child_used hI rfl]
  | off _ hc hsw =>
    have hok := hI.table.thread _ p hc
    rw [Thread.ok, hsw] at hok
    simp [hok]

theorem created_cases [DecidableEq κ] (hI : Inv s) (ht : next procs init s e = some t)
    (hp : Created t p) :
    Created s p ∧ t.pid p = s.pid p ∧ t.creationTime p = s.creationTime p ∨
      creates s e = some p ∧ t.pid p = s.pid p ∧ t.creationTime p = s.ticks := by
  have hctl := next_control ht
  have he := hctl.effect
  by_cases hr : ∃ r, (s.thread r).task = .allocprocFound p
  · obtain ⟨r, hr⟩ := hr
    obtain ⟨c, hat⟩ := hI.at_of_held (p := r) (by rw [hr]; simp [Task.held])
    rw [hr] at hat
    rcases hctl.on_cpu hI hat.1 with ⟨_, _, hth⟩ | ⟨_, hm, _⟩
    · exact absurd (by rw [hth, hr]) (hp.done r)
    · rcases hm.leaves hat.thread_eq with ⟨hstep, hT⟩ | hT
      · obtain ⟨hc, hsw, hx⟩ := hat
        refine .inr ⟨by simp [creates, hstep, hc, hsw, hx], congrFun (congrArg Table.pid hT) p, ?_⟩
        have hct := congrFun (congrArg Table.creationTime hT) p
        simpa [table, allocprocInit] using hct
      · refine absurd ?_ hp.used
        have hst := congrFun (congrArg Table.state hT) p
        simpa [table, freeproc] using hst
  · push Not at hr
    obtain ⟨hu, hz⟩ := used_of_shift hI ht hp
    refine .inl ⟨⟨hu, hz, hr⟩, ?_, ?_⟩
    · rcases he.pid_cases p with h | ⟨h, _⟩ | ⟨_, h, _⟩
      · exact h
      · exact absurd h hu
      · exact absurd h hp.used
    · rcases he.creationTime_cases p with h | h | ⟨_, c, r, _, hat⟩
      · exact h
      · exact absurd h hp.used
      · exact absurd hat.2.2 (hr r)

omit [DecidableEq ι] in
theorem creates_task (h : creates s e = some np) :
    ∃ r, (s.thread r).task = .allocprocFound np := by
  unfold creates at h
  split at h
  · split at h
    next p _ =>
      split at h
      next hx =>
        cases h
        exact ⟨p, hx⟩
      next => cases h
    next => cases h
  · cases h

end Xv6.Scheduler
