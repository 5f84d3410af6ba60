import Xv6.WaitLock

/-! The hand-over from `exit` to `wait`. A process sleeps in `wait` only if it has no ZOMBIE
child; a child becomes a ZOMBIE, or a ZOMBIE is given to init, only by a thread that holds
`wait_lock` and wakes the parent before it lets go. -/
namespace Xv6.Scheduler

open Sys

variable {ι κ : Type*}

def Table.Asleep (T : Table ι) (p : ι) : Prop :=
  T.state p = .sleeping ∧ T.chan p = some (.slot p)

/-- Only `wait` sleeps on a proc pointer: no other code calls `sleep` with one. -/
def NoSlotSleep (e : Event ι κ) : Prop := ∀ c q, e ≠ .call c (.sleep (.slot q))

/-- What holds where the thread of `p` holds `wait_lock`: `wait` has passed no ZOMBIE child,
and a parent that still sleeps will be visited by `wakeup`. -/
def Task.Handover (init : ι) (T : Table ι) (p : ι) : Task ι → Prop
  | .wait todo _ => ∀ q, T.parent q = some p → T.state q = .zombie → q ∈ todo
  | .waitHold r todo => ∀ q, T.parent q = some p → T.state q = .zombie → q ∈ r :: todo
  | .wakeup ch _ (.reparent _) | .wakeupHold _ ch _ (.reparent _) => ch = some (.slot init)
  | .wakeup ch todo .exit => (T.parent p).map .slot = ch ∧
      ∀ x, T.parent p = some x → T.Asleep x → x ∈ todo
  | .wakeupHold r ch todo .exit => (T.parent p).map .slot = ch ∧
      ∀ x, T.parent p = some x → T.Asleep x → x ∈ r :: todo
  | _ => True

def Why.Handover (T : Table ι) (p : ι) : Why ι → Prop
  | .sleep ch true => ch = .slot p ∧ ∀ q, T.parent q = some p → T.state q ≠ .zombie
  | .sleep ch false => ∀ q, ch ≠ .slot q
  | .exit => ∀ x, T.parent p = some x → ¬ T.Asleep x
  | _ => True

def Thread.Handover (init : ι) (T : Table ι) (p : ι) (t : Thread ι) : Prop :=
  match t.sw with
  | .none => t.task.Handover init T p
  | .acquire w | .set w => w.Handover T p
  | _ => True

/-- The thread is in the `wakeup(initproc)` of `reparent`, and has not yet come to init. -/
def Thread.Waking (init : ι) (t : Thread ι) : Prop :=
  t.sw = .none ∧
    match t.task with
    | .wakeup _ todo (.reparent _) => init ∈ todo
    | .wakeupHold q _ todo (.reparent _) => init ∈ q :: todo
    | _ => False

structure HandoverInv (init : ι) (s : Sys ι κ) : Prop where
  code : ∀ p, (s.thread p).Handover init s.table p
  notice : ∀ x q, s.table.Asleep x → s.parent q = some x → s.state q = .zombie →
    x = init ∧ ∃ c r, s.cpu c = .thread r ∧ (s.thread r).Waking init

variable {procs : List ι} {init : ι} {s t : Sys ι κ} {e : Event ι κ} {a : Option κ} {c : κ}
  {p q r x : ι} {T : Table ι}

lemma Task.handover_of_not_waits {y : Task ι} (h : y.waits = false) : y.Handover init T p := by
  cases y with
  | wait _ _ | waitHold _ _ => cases h
  | wakeup ch todo after | wakeupHold _ ch todo after =>
    cases after with
    | run => trivial
    | _ => cases h
  | _ => trivial

variable {d : Thread ι}

lemma Thread.Handover.of_not_waits {U : Table ι} (hd : d.waits = false)
    (h : d.Handover init T p) : d.Handover init U p := by
  obtain ⟨y, w⟩ := d
  cases w with
  | none => exact Task.handover_of_not_waits hd
  | acquire w | set w =>
    cases w with
    | sleep ch lk =>
      cases lk with
      | false => exact h
      | true => cases hd
    | exit => cases hd
    | _ => trivial
  | _ => trivial

lemma Thread.Handover.mono {U : Table ι} (h : d.Handover init T p)
    (hself : U.parent p = T.parent p) (hparent : ∀ q r, U.parent q = some r → T.parent q = some r)
    (hzombie : ∀ q, U.state q = .zombie → T.state q = .zombie)
    (hasleep : ∀ x, U.Asleep x → T.Asleep x) : d.Handover init U p := by
  obtain ⟨y, w⟩ := d
  have hwakes : ∀ {ch : Option (Chan ι)} {l : List ι}, ((T.parent p).map .slot = ch ∧
      ∀ x, T.parent p = some x → T.Asleep x → x ∈ l) →
      (U.parent p).map .slot = ch ∧ ∀ x, U.parent p = some x → U.Asleep x → x ∈ l := by
    rintro ch l ⟨hch, hl⟩
    rw [hself]
    exact ⟨hch, fun x hx ha => hl x hx (hasleep x ha)⟩
  cases w with
  | none =>
    cases y with
    | wait _ _ | waitHold _ _ => exact fun q hq hz => h q (hparent q p hq) (hzombie q hz)
    | wakeup ch todo after | wakeupHold _ ch todo after =>
      cases after with
      | run => trivial
      | reparent _ => exact h
      | exit => exact hwakes h
    | _ => trivial
  | acquire w | set w =>
    cases w with
    | sleep ch lk =>
      cases lk with
      | false => exact h
      | true => exact ⟨h.1, fun q hq hz => h.2 q (hparent q p hq) (hzombie q hz)⟩
    | exit =>
      intro x hx ha
      rw [hself] at hx
      exact h x hx (hasleep x ha)
    | _ => trivial
  | _ => trivial

lemma Thread.Handover.switchIn (h : d.Handover init T p) :
    (Thread.mk d.task (switchIn d.sw)).Handover init T p := by
  obtain ⟨y, w⟩ := d
  cases w with
  | off w => trivial
  | _ => exact h

lemma Thread.Waking.ne_init (h : d.Waking init) (hd : d.task.InTree init T p) :
    p ≠ init := by
  obtain ⟨_, h⟩ := h
  split at h
  next hx =>
    rw [hx] at hd
    exact hd.1
  next hx =>
    rw [hx] at hd
    exact hd.1
  next => exact h.elim

lemma Thread.Waking.waits (h : d.Waking init) : d.waits = true := by
  obtain ⟨hsw, h⟩ := h
  rw [Thread.waits, hsw]
  split at h
  next hx => simp [hx, Task.waits, After.waits]
  next hx => simp [hx, Task.waits, After.waits]
  next => exact h.elim

variable [DecidableEq ι]

lemma Effect.asleep_born (he : Effect init s a T) (hx : T.Asleep x) :
    s.table.Asleep x ∨ ∃ c lk, a = some c ∧ s.cpu c = .thread x ∧
      (s.thread x).sw = .set (.sleep (.slot x) lk) := by
  obtain ⟨hstate, hchan⟩ := hx
  have hset : ∀ {q y}, y ≠ .sleeping → (s.setState q y).state x = .sleeping →
      s.state x = .sleeping := by
    intro q y hy h
    by_cases hq : x = q
    · subst hq
      simp [setState] at h
      exact absurd h hy
    · simpa [setState, hq] using h
  cases he with
  | wake q _ => exact .inl ⟨hset (by simp) hstate, hchan⟩
  | @kill _ _ q _ _ _ _ =>
    have hch : (s.killBody q).table.chan = s.chan := by
      unfold killBody
      split <;> rfl
    rw [hch] at hchan
    unfold killBody at hstate
    split at hstate
    next => exact .inl ⟨hset (by simp) hstate, hchan⟩
    next => exact .inl ⟨hstate, hchan⟩
  | @alloc _ _ q _ _ _ =>
    by_cases hq : x = q
    · simp [table, allocprocFound, hq] at hstate
    · exact .inl ⟨by simpa [table, allocprocFound, hq] using hstate, hchan⟩
  | @abort _ _ q _ | @reap _ _ q _ _ _ =>
    by_cases hq : x = q
    · simp [table, freeproc, hq] at hstate
    · refine .inl ⟨?_, ?_⟩
      · simpa [table, freeproc, hq] using hstate
      · simpa [table, freeproc, hq] using hchan
  | ready _ => exact .inl ⟨hset (by simp) hstate, hchan⟩
  | @off c p w hc hsw =>
    cases w with
    | sleep ch lk =>
      by_cases hp : x = p
      · subst hp
        have hch : ch = .slot x := by
          cases lk <;> simpa [table, goOff, setState, releaseWait] using hchan
        exact .inr ⟨c, lk, rfl, hc, by rw [hsw, hch]⟩
      · refine .inl ⟨?_, ?_⟩
        · cases lk <;> simpa [table, goOff, setState, releaseWait, hp] using hstate
        · cases lk <;> simpa [table, goOff, setState, releaseWait, hp] using hchan
    | yield => exact .inl ⟨hset (by simp [Why.state]) hstate, hchan⟩
    | forkret => exact .inl ⟨hset (by simp [Why.state]) hstate, hchan⟩
    | exit => exact .inl ⟨hset (by simp) hstate, hchan⟩
  | @back _ p w _ _ =>
    cases w with
    | sleep ch lk =>
      by_cases hp : x = p
      · simp [table, comeBack, hp] at hchan
      · exact .inl ⟨hstate, by simpa [table, comeBack, hp] using hchan⟩
    | _ => exact .inl ⟨hstate, hchan⟩
  | run _ _ => exact .inl ⟨hset (by simp) hstate, hchan⟩
  | _ => exact .inl ⟨hstate, hchan⟩

/-- A step of a thread without `wait_lock` makes no ZOMBIE, gives no child away and puts
nobody to sleep in `wait`. -/
theorem HandoverInv.calm (h : HandoverInv init s) (he : Effect init s a T)
    (hno : ∀ c p, a = some c → s.cpu c = .thread p → (s.thread p).waits = false) :
    (∀ q r, T.parent q = some r → s.parent q = some r) ∧
      (∀ q, T.state q = .zombie → s.state q = .zombie) ∧ ∀ x, T.Asleep x → s.table.Asleep x := by
  have hat : ∀ {c p y}, a = some c → At s c p y → y.waits = false := by
    intro c p y ha hat
    have hw := hno c p ha hat.1
    rwa [Thread.waits, hat.2.1, hat.2.2] at hw
  refine ⟨?_, ?_, ?_⟩
  · intro q r hq
    rcases he.parent_cases hq with hs | ⟨c, ha, h'⟩ | ⟨_, c, p, todo, ha, h', _⟩
    · exact hs
    · cases hat ha h'
    · cases hat ha h'
  · intro q hq
    rcases he.zombie_born hq with hs | ⟨c, ha, hc, hsw⟩
    · exact hs
    · have hw := hno c q ha hc
      rw [Thread.waits, hsw] at hw
      cases hw
  · intro x hx
    rcases he.asleep_born hx with hs | ⟨c, lk, ha, hc, hsw⟩
    · exact hs
    · have hw := hno c x ha hc
      have hcode := h.code x
      rw [Thread.waits, hsw] at hw
      rw [Thread.Handover, hsw] at hcode
      cases lk with
      | true => cases hw
      | false => exact absurd rfl (hcode x)

lemma HandoverInv.parent_calm (h : HandoverInv init s) (hI : Inv s) (he : Effect init s a T)
    (hno : ∀ c p, a = some c → s.cpu c = .thread p → (s.thread p).waits = false)
    (hz : s.state p = .running) : T.parent p = s.parent p := by
  have hcalm := (h.calm he hno).1 p
  cases hT : T.parent p with
  | some r => exact (hcalm r hT).symm
  | none =>
    by_contra hne
    rcases he.parent_kept (Ne.symm hne) with hk | hu
    · exact hk hT
    · have hlive : Live (T.state p) := by
        refine he.live hI ?_ (.inr (.inr hz))
        intro c' ha hc' hsw
        have hw := hno c' p ha hc'
        rw [Thread.waits, hsw] at hw
        cases hw
      exact hlive.ne_unused hu

lemma HandoverInv.code_other (h : HandoverInv init s) (hI : Inv s) (hW : WaitInv s)
    (he : Effect init s a T) (hact : ∀ c, a = some c → s.cpu c ≠ .thread p) :
    (s.thread p).Handover init T p := by
  have hcode := h.code p
  by_cases hw : (s.thread p).waits = true
  · obtain ⟨c, hc⟩ := hI.on_of_waits hw
    have hno : ∀ c' p', a = some c' → s.cpu c' = .thread p' → (s.thread p').waits = false := by
      intro c' p' ha hc'
      by_contra hp'
      have hpp := hW.unique hc hw hc' (by simpa using hp')
      subst hpp
      exact hact c' ha hc'
    obtain ⟨hparent, hzombie, hasleep⟩ := h.calm he hno
    have hself := h.parent_calm hI he hno (hI.running_of_waits hc hw)
    exact hcode.mono hself hparent hzombie hasleep
  · exact hcode.of_not_waits (by simpa using hw)

lemma wakeBody_parent (s : Sys ι κ) (q : ι) (ch : Option (Chan ι)) :
    (s.wakeBody q ch).table.parent = s.parent := by
  unfold wakeBody
  split <;> rfl

lemma wakeBody_asleep {ch : Option (Chan ι)} (hx : (s.wakeBody q ch).table.Asleep x) :
    s.table.Asleep x ∧ (x = q → ch ≠ some (.slot x)) := by
  unfold wakeBody at hx
  split at hx
  next hq =>
    have hne : x ≠ q := by
      rintro rfl
      have hstate := hx.1
      simp [table, setState] at hstate
    exact ⟨⟨by simpa [table, setState, hne] using hx.1, hx.2⟩, fun h => absurd h hne⟩
  next hq =>
    refine ⟨hx, ?_⟩
    rintro rfl rfl
    exact hq hx

variable {u : Thread ι} {w : Option κ}

lemma HandoverInv.code_move (hall : ∀ q, q ∈ procs)
    (h : HandoverInv init s) (hT : TreeInv init s) (hg : NoSlotSleep e) (hd : s.thread p = d)
    (hback : ∀ w, d.sw = .resumed w → d.task.waits = false)
    (hm : Moves procs init s e c p d u w T) : u.Handover init T p := by
  have hcode := h.code p
  rw [hd] at hcode
  cases hm with
  | @wakeSkip ch todo after =>
    cases after with
    | exit =>
      refine ⟨hcode.1, ?_⟩
      intro x hx ha
      have hne : x ≠ p := by
        rintro rfl
        exact lt_irrefl _ (hT.up x x hx).1
      exact (List.mem_cons.mp (hcode.2 x hx ha)).resolve_left hne
    | _ => exact hcode
  | @wakeLock q ch todo after hq => cases after <;> exact hcode
  | @wakeBody q ch todo after =>
    cases after with
    | run => trivial
    | reparent l => exact hcode
    | exit =>
      rw [Thread.Handover, Task.Handover, wakeBody_parent]
      refine ⟨hcode.1, ?_⟩
      intro x hx ha
      obtain ⟨hs, hne⟩ := wakeBody_asleep ha
      have hxq : x ≠ q := by
        intro hxq
        refine hne hxq ?_
        have hch := hcode.1
        rw [show s.table.parent p = some x from hx] at hch
        exact hch.symm
      exact (List.mem_cons.mp (hcode.2 x hx hs)).resolve_left hxq
  | wakeExit =>
    intro x hx ha
    have hmem := hcode.2 x hx ha
    cases hmem
  | waitEnter _ => exact fun q _ _ => hall q
  | waitSleep =>
    refine ⟨rfl, ?_⟩
    intro q hq hz
    have hmem := hcode q hq hz
    cases hmem
  | waitChild _ => exact hcode
  | @waitSkip q todo havekids hq =>
    intro r hr hz
    have hne : r ≠ q := by
      rintro rfl
      exact hq hr
    exact (List.mem_cons.mp (hcode r hr hz)).resolve_left hne
  | @waitNext q todo hq =>
    intro r hr hz
    have hne : r ≠ q := by
      rintro rfl
      exact hq hz
    exact (List.mem_cons.mp (hcode r hr hz)).resolve_left hne
  | reparentDone => exact ⟨rfl, fun x _ _ => hall x⟩
  | disown _ => exact rfl
  | switchLock => exact hcode
  | @switchBack x w => exact Task.handover_of_not_waits (hback w rfl)
  | @callSleep ch he =>
    rintro q rfl
    exact hg c q he
  | _ => trivial

lemma Moves.waking (hm : Moves procs init s e c p d u w T)
    (hd : d.Waking init) (hcode : d.Handover init s.table p) (hne : p ≠ init)
    (hw : s.waitLock = some c) : u.Waking init ∨ ¬ T.Asleep init := by
  obtain ⟨hsw, hd⟩ := hd
  cases hm with
  | @wakeSkip ch todo after =>
    cases after with
    | reparent l => exact .inl ⟨rfl, (List.mem_cons.mp hd).resolve_left hne.symm⟩
    | _ => exact hd.elim
  | @wakeLock q ch todo after _ =>
    cases after with
    | reparent l => exact .inl ⟨rfl, hd⟩
    | _ => exact hd.elim
  | @wakeBody q ch todo after =>
    cases after with
    | reparent l =>
      by_cases hq : init = q
      · refine .inr fun ha => ?_
        exact (wakeBody_asleep ha).2 hq hcode
      · exact .inl ⟨rfl, (List.mem_cons.mp hd).resolve_left hq⟩
    | _ => exact hd.elim
  | wakeReparent => cases hd
  | callYield _ hno => exact absurd hw hno
  | _ => first | exact hd.elim | cases hsw

/-- A ZOMBIE child of a sleeping process after a step: the child was given to init just now,
or both were there before. -/
lemma HandoverInv.pair_cases (h : HandoverInv init s) (hI : Inv s) (he : Effect init s a T)
    (hx : T.Asleep x) (hq : T.parent q = some x) (hz : T.state q = .zombie) :
    (x = init ∧ ∃ c p todo, a = some c ∧ At s c p (.reparent (q :: todo)) ∧ s.parent q = some p) ∨
      s.table.Asleep x ∧ s.parent q = some x ∧ s.state q = .zombie := by
  -- a thread on its way to `sched()` sets no parent pointer
  have hold : ∀ {c p w}, a = some c → s.cpu c = .thread p → (s.thread p).sw = .set w →
      s.parent q = some x := by
    intro c p w ha hc hsw
    have hno : ∀ {p' y}, ¬ At s c p' y := by
      intro p' y hat
      have hp := hc.symm.trans hat.1
      cases hp
      rw [hat.2.1] at hsw
      cases hsw
    rcases he.parent_cases hq with hs | ⟨c', ha', hat⟩ | ⟨_, c', p', todo, ha', hat, _⟩
    · exact hs
    · cases ha.symm.trans ha'
      exact (hno hat).elim
    · cases ha.symm.trans ha'
      exact (hno hat).elim
  rcases he.zombie_born hz with hz' | ⟨c, ha, hc, hsw⟩
  · rcases he.asleep_born hx with hx' | ⟨c, lk, ha, hc, hsw⟩
    · rcases he.parent_cases hq with hs | ⟨c, ha, hat⟩ | ⟨hr, c, p, todo, ha, hat, hs⟩
      · exact .inr ⟨hx', hs, hz'⟩
      · rw [hat.child_used hI rfl] at hz'
        cases hz'
      · exact .inl ⟨hr, c, p, todo, ha, hat, hs⟩
    · have hcode := h.code x
      rw [Thread.Handover, hsw] at hcode
      cases lk with
      | false => exact absurd rfl (hcode x)
      | true => exact absurd hz' (hcode.2 q (hold ha hc hsw))
  · have hcode := h.code q
    rw [Thread.Handover, hsw] at hcode
    rcases he.asleep_born hx with hx' | ⟨c', lk, ha', hc', hsw'⟩
    · exact absurd hx' (hcode x (hold ha hc hsw))
    · cases ha.symm.trans ha'
      cases hc.symm.trans hc'
      rw [hsw] at hsw'
      cases hsw'

lemma Moves.disowns {todo : List ι}
    (hm : Moves procs init s e c p d u w T) (hall : ∀ q, q ∈ procs)
    (hd : d = ⟨.reparent (q :: todo), .none⟩) (hq : s.parent q = some p)
    (hw : s.waitLock = some c) : u.Waking init := by
  cases hm with
  | disown _ => exact ⟨rfl, hall init⟩
  | reparentSkip hne =>
    cases hd
    exact absurd hq hne
  | callYield _ hno => exact absurd hw hno
  | _ => cases hd

section
variable (hall : ∀ q, q ∈ procs) (h : HandoverInv init s) (hI : Inv s) (hW : WaitInv s)
  (hT : TreeInv init s)
include hall h hI hW hT

lemma HandoverInv.notice_step [DecidableEq κ] (hctl : Control procs init s e t)
    (hx : t.table.Asleep x) (hq : t.parent q = some x) (hz : t.state q = .zombie) :
    x = init ∧ ∃ c r, t.cpu c = .thread r ∧ (t.thread r).Waking init := by
  have hon : ∀ {u : Thread ι}, u.Waking init → ∀ w, u.sw ≠ .off w := by
    intro u hu w hsw
    rw [hu.1] at hsw
    cases hsw
  rcases h.pair_cases hI hctl.effect hx hq hz with ⟨rfl, c, p, todo, ha, hat, hp⟩ | ⟨hx', hq', hz'⟩
  · refine ⟨rfl, c, p, ?_⟩
    have hw : s.waitLock = some c := (hW.owner c).mpr ⟨p, hat.1, by rw [hat.thread_eq]; rfl⟩
    rcases hctl.on_cpu hI hat.1 with ⟨hno, _⟩ | ⟨_, hm, hcpu⟩
    · exact absurd ha hno
    · have hwake := hm.disowns hall hat.thread_eq hp hw
      exact ⟨hcpu (hon hwake), hwake⟩
  · obtain ⟨rfl, c, r, hc, hr⟩ := h.notice x q hx' hq' hz'
    refine ⟨rfl, c, r, ?_⟩
    rcases hctl.on_cpu hI hc with ⟨_, hcpu, hth⟩ | ⟨_, hm, hcpu⟩
    · exact ⟨hcpu, by rw [hth]; exact hr⟩
    · have hne : r ≠ x := hr.ne_init (hT.code r)
      have hw : s.waitLock = some c := (hW.owner c).mpr ⟨r, hc, hr.waits⟩
      rcases hm.waking hr (h.code r) hne hw with hwake | hno
      · exact ⟨hcpu (hon hwake), hwake⟩
      · exact absurd hx hno

theorem HandoverInv.step [DecidableEq κ] (hg : NoSlotSleep e) (ht : next procs init s e = some t) :
    HandoverInv init t := by
  have hctl := next_control ht
  refine ⟨?_, fun x q => h.notice_step hall hI hW hT hctl⟩
  intro p
  rcases hctl.thread_cases p with ⟨hth, a, ho, hact⟩ | ⟨_, _, _, _, hth⟩ | ⟨c, ha, hc, hm⟩
  · have hcode := h.code_other hI hW ho hact
    rcases hth with hth | ⟨_, hth⟩
    · rw [hth]
      exact hcode
    · rw [hth]
      exact hcode.switchIn
  · rw [hth]
    trivial
  · exact h.code_move hall hT hg rfl (fun w hsw => hW.back hI hc hsw) hm

end

theorem boot_handover (init : ι) : HandoverInv init (boot init : Sys ι κ) := by
  refine ⟨fun p => trivial, ?_⟩
  intro x q hx hq
  cases hq

omit [DecidableEq ι] in
theorem HandoverInv.no_zombie (h : HandoverInv init s) (hW : WaitInv s) (hfree : s.waitLock = none)
    (hx : s.table.Asleep x) (hq : s.parent q = some x) : s.state q ≠ .zombie := by
  intro hz
  obtain ⟨_, c, r, hc, hr⟩ := h.notice x q hx hq hz
  have hw := (hW.owner c).mpr ⟨r, hc, hr.waits⟩
  rw [hfree] at hw
  cases hw

end Xv6.Scheduler
