import Xv6.ThreadMoves

/-! The process tree. Parents are older than their children and stay alive until `reparent`
has given the children to init, so parent pointers never go in a circle or to a free slot. -/
namespace Xv6.Scheduler

open Transition Sys

variable {ι κ : Type*}

def Live (x : ProcState) : Prop := x = .sleeping ∨ x = .runnable ∨ x = .running

/-- What holds of the table where the thread of `p` stands: in `fork`, the child is younger
and later has `p` as its parent; in `exit`, the children still to be given away. -/
def Task.InTree (init : ι) (T : Table ι) (p : ι) : Task ι → Prop
  | .allocprocFound np | .forkCopy np | .forkWaitLock np | .forkParent np =>
      Live (T.state p) ∧ T.pid p < T.pid np
  | .forkReady np | .forkSet np => Live (T.state p) ∧ T.parent np = some p
  | .exitLock => p ≠ init
  | .reparent todo | .wakeup _ _ (.reparent todo) | .wakeupHold _ _ _ (.reparent todo) =>
      p ≠ init ∧ ∀ q, T.parent q = some p → q ∈ todo
  | .wakeup _ _ .exit | .wakeupHold _ _ _ .exit => p ≠ init ∧ ∀ q, T.parent q ≠ some p
  | _ => True

def Task.Exiting (x : Task ι) : Prop := ∃ ch todo, x = .wakeup ch todo .exit

structure TreeInv (init : ι) (s : Sys ι κ) : Prop where
  root : s.pid init = 1 ∧ s.parent init = none ∧ Live (s.state init)
  up : ∀ q r, s.parent q = some r → s.pid r < s.pid q ∧ Live (s.state r)
  has : ∀ q, q ≠ init → Live (s.state q) ∨ s.state q = .zombie → s.parent q ≠ none
  code : ∀ p, (s.thread p).task.InTree init s.table p
  exiting : ∀ p, (s.thread p).sw = .acquire .exit ∨ (s.thread p).sw = .set .exit →
    (s.thread p).task.Exiting

variable {procs : List ι} {init : ι} {s t : Sys ι κ} {e : Event ι κ} {a : Option κ} {c : κ}
  {p q r : ι} {T : Table ι}

theorem Live.ne_unused {x : ProcState} (h : Live x) : x ≠ .unused := by
  rcases h with rfl | rfl | rfl <;> simp

lemma Live.ne_used {x : ProcState} (h : Live x) : x ≠ .used := by
  rcases h with rfl | rfl | rfl <;> simp

theorem Live.ne_zombie {x : ProcState} (h : Live x) : x ≠ .zombie := by
  rcases h with rfl | rfl | rfl <;> simp

lemma TreeInv.no_children (h : TreeInv init s) (hsw : (s.thread p).sw = .set .exit) :
    p ≠ init ∧ ∀ q, s.parent q ≠ some p := by
  obtain ⟨ch, todo, hx⟩ := h.exiting p (.inr hsw)
  have hcode := h.code p
  rw [hx] at hcode
  exact hcode

theorem TreeInv.child_ne (h : TreeInv init s) (hP : PidInv s.table)
    (hq : s.parent q = some r) : s.state q ≠ .unused := by
  intro hu
  have h0 : s.pid q = 0 := (hP.unused q).mp hu
  have hlt := (h.up q r hq).1
  have hge : 0 ≤ s.pid r := (hP.range r).1
  omega

variable [DecidableEq ι]

section
variable (he : Effect init s a T)
include he

theorem Effect.live (hI : Inv s)
    (hexit : ∀ c, a = some c → s.cpu c = .thread r → (s.thread r).sw ≠ .set .exit)
    (h : Live (s.state r)) : Live (T.state r) := by
  have hr := he.shift r
  generalize T.state r = x at hr
  cases hr with
  | same => exact h
  | wake _ => exact .inr (.inl rfl)
  | take _ _ hu => exact absurd hu h.ne_unused
  | abort _ hat =>
    have hu : s.state r = .used := by
      rcases hat with hat | hat <;> exact hat.child_used hI rfl
    exact absurd hu h.ne_used
  | ready _ _ => exact .inr (.inl rfl)
  | reap _ _ hz => exact absurd hz h.ne_zombie
  | @off c w ha hc hsw =>
    cases w with
    | exit => exact absurd hsw (hexit c ha hc)
    | sleep ch lk => exact .inl rfl
    | yield | forkret => exact .inr (.inl rfl)
  | run _ _ _ => exact .inr (.inr rfl)

theorem Effect.pid_cases (r : ι) :
    T.pid r = s.pid r ∨ s.state r = .unused ∧ T.pid r = s.nextpid ∨
      T.parent r = none ∧ T.state r = .unused ∧ (s.state r = .zombie ∨
        ∃ c p, a = some c ∧ s.cpu c = .thread p ∧ (s.thread p).task.child = some r) := by
  cases he with
  | @kill _ _ q _ _ _ _ =>
    unfold killBody
    split <;> exact .inl rfl
  | @alloc _ _ q _ _ hq =>
    by_cases hr : r = q
    · subst hr
      exact .inr (.inl ⟨hq, by simp [table, allocprocFound]⟩)
    · exact .inl (by simp [table, allocprocFound, hr])
  | @abort c p np hat =>
    by_cases hr : r = np
    · subst hr
      refine .inr (.inr ⟨by simp [table, freeproc], by simp [table, freeproc],
        .inr ⟨c, p, rfl, ?_⟩⟩)
      rcases hat with hat | hat <;> exact ⟨hat.1, by rw [hat.2.2]; rfl⟩
    · exact .inl (by simp [table, freeproc, hr])
  | @reap _ _ q _ _ hq =>
    by_cases hr : r = q
    · subst hr
      exact .inr (.inr ⟨by simp [table, freeproc], by simp [table, freeproc],
        .inl hq⟩)
    · exact .inl (by simp [table, freeproc, hr])
  | @off _ _ w _ _ =>
    cases w with
    | sleep ch lk => cases lk <;> exact .inl rfl
    | _ => exact .inl rfl
  | @back _ _ w _ _ => cases w <;> exact .inl rfl
  | _ => exact .inl rfl

lemma Effect.pid_live (hI : Inv s) (h : Live (s.state r)) : T.pid r = s.pid r := by
  rcases he.pid_cases r with hr | ⟨hr, _⟩ | ⟨_, _, hr | ⟨c, p, _, _, hr⟩⟩
  · exact hr
  · exact absurd hr h.ne_unused
  · exact absurd hr h.ne_zombie
  · exact absurd (hI.table.child p r hr) h.ne_used

theorem Effect.parent_cases (hq : T.parent q = some r) :
    s.parent q = some r ∨ (∃ c, a = some c ∧ At s c r (.forkParent q)) ∨
      r = init ∧ ∃ c p todo, a = some c ∧ At s c p (.reparent (q :: todo)) ∧
        s.parent q = some p := by
  cases he with
  | @kill _ _ x _ _ _ _ =>
    unfold killBody at hq
    split at hq <;> exact .inl hq
  | @abort _ _ np _ =>
    by_cases hr : q = np
    · simp [table, freeproc, hr] at hq
    · exact .inl (by simpa [table, freeproc, hr] using hq)
  | @reap _ _ x _ _ _ =>
    by_cases hr : q = x
    · simp [table, freeproc, hr] at hq
    · exact .inl (by simpa [table, freeproc, hr] using hq)
  | @adopt c p np hat =>
    by_cases hr : q = np
    · subst hr
      simp only [table, setParent, Function.update_self, Option.some.injEq] at hq
      exact .inr (.inl ⟨c, rfl, hq ▸ hat⟩)
    · exact .inl (by simpa [table, setParent, hr] using hq)
  | @disown c p x todo hat hx =>
    by_cases hr : q = x
    · subst hr
      simp only [table, setParent, Function.update_self, Option.some.injEq] at hq
      exact .inr (.inr ⟨hq.symm, c, p, todo, rfl, hat, hx⟩)
    · exact .inl (by simpa [table, setParent, hr] using hq)
  | @off _ _ w _ _ =>
    cases w with
    | sleep ch lk => cases lk <;> exact .inl hq
    | _ => exact .inl hq
  | @back _ _ w _ _ => cases w <;> exact .inl hq
  | _ => exact .inl hq

theorem Effect.parent_kept (hq : s.parent q ≠ none) : T.parent q ≠ none ∨ T.state q = .unused := by
  cases he with
  | @kill _ _ x _ _ _ _ =>
    unfold killBody
    split <;> exact .inl hq
  | @abort _ _ np _ =>
    by_cases hr : q = np
    · exact .inr (by simp [table, freeproc, hr])
    · exact .inl (by simpa [table, freeproc, hr] using hq)
  | @reap _ _ x _ _ _ =>
    by_cases hr : q = x
    · exact .inr (by simp [table, freeproc, hr])
    · exact .inl (by simpa [table, freeproc, hr] using hq)
  | @adopt c p np hat =>
    by_cases hr : q = np
    · exact .inl (by simp [table, setParent, hr])
    · exact .inl (by simpa [table, setParent, hr] using hq)
  | @disown c p x todo hat hx =>
    by_cases hr : q = x
    · exact .inl (by simp [table, setParent, hr])
    · exact .inl (by simpa [table, setParent, hr] using hq)
  | @off _ _ w _ _ =>
    cases w with
    | sleep ch lk => cases lk <;> exact .inl hq
    | _ => exact .inl hq
  | @back _ _ w _ _ => cases w <;> exact .inl hq
  | _ => exact .inl hq

/-- A process that can run could run before, or `fork` has just made it RUNNABLE. -/
theorem Effect.live_born (hI : Inv s) (hq : Live (T.state q)) :
    Live (s.state q) ∨ ∃ c p, a = some c ∧ At s c p (.forkSet q) := by
  have hs := he.shift q
  generalize T.state q = x at hs hq
  cases hs with
  | same => exact .inl hq
  | wake hs => exact .inl (.inl hs)
  | ready ha hat => exact .inr ⟨_, _, ha, hat⟩
  | @off c w ha hc hsw =>
    have hok := hI.table.thread c q hc
    rw [Thread.ok, hsw] at hok
    exact .inl (.inr (.inr hok))
  | run _ _ hs => exact .inl (.inr (.inl hs))
  | take _ _ _ | abort _ _ | reap _ _ _ => simp [Live] at hq

theorem Effect.zombie_born (hq : T.state q = .zombie) :
    s.state q = .zombie ∨ ∃ c, a = some c ∧ s.cpu c = .thread q ∧ (s.thread q).sw = .set .exit := by
  have hs := he.shift q
  generalize T.state q = x at hs hq
  cases hs with
  | same => exact .inl hq
  | @off c w ha hc hsw =>
    cases w with
    | exit => exact .inr ⟨c, ha, hc, hsw⟩
    | _ => cases hq
  | _ => cases hq

end

section
variable (h : TreeInv init s) (hI : Inv s)
include h hI

lemma TreeInv.root_step (he : Effect init s a T) :
    T.pid init = 1 ∧ T.parent init = none ∧ Live (T.state init) := by
  obtain ⟨hpid, hparent, hlive⟩ := h.root
  refine ⟨by rw [he.pid_live hI hlive, hpid], ?_, ?_⟩
  · by_contra hne
    obtain ⟨r, hr⟩ := Option.ne_none_iff_exists'.mp hne
    rcases he.parent_cases hr with hs | ⟨c, _, hat⟩ | ⟨_, c, p, todo, _, _, hs⟩
    · rw [hparent] at hs
      cases hs
    · exact hlive.ne_used (hat.child_used hI rfl)
    · rw [hparent] at hs
      cases hs
  · refine he.live hI ?_ hlive
    intro c _ _ hsw
    exact (h.no_children hsw).1 rfl

lemma TreeInv.up_step (hP : PidInv s.table) (he : Effect init s a T) (hq : T.parent q = some r) :
    T.pid r < T.pid q ∧ Live (T.state r) := by
  have hpos : ∀ x, Live (s.state x) → 1 ≤ s.pid x := by
    intro x hx
    have hge : 0 ≤ s.pid x := (hP.range x).1
    have hne : s.pid x ≠ 0 := fun h0 => hx.ne_unused ((hP.unused x).mpr h0)
    omega
  have hold : s.parent q ≠ none → T.pid q = s.pid q := by
    intro hne
    obtain ⟨x, hx⟩ := Option.ne_none_iff_exists'.mp hne
    rcases he.pid_cases q with hp | ⟨hp, _⟩ | ⟨hp, _⟩
    · exact hp
    · exact absurd hp (h.child_ne hP hx)
    · rw [hp] at hq
      cases hq
  rcases he.parent_cases hq with hs | ⟨c, ha, hat⟩ | ⟨hr, c, p, todo, ha, hat, hs⟩
  · obtain ⟨hlt, hlive⟩ := h.up q r hs
    refine ⟨?_, he.live hI ?_ hlive⟩
    · rw [he.pid_live hI hlive, hold (by rw [hs]; simp)]
      exact hlt
    · intro c _ _ hsw
      exact (h.no_children hsw).2 q hs
  · have hcode := h.code r
    rw [hat.2.2] at hcode
    obtain ⟨hlive, hlt⟩ := hcode
    refine ⟨?_, he.live hI ?_ hlive⟩
    · have hchild : T.pid q = s.pid q := by
        rcases he.pid_cases q with hp | ⟨hp, _⟩ | ⟨hp, _⟩
        · exact hp
        · rw [hat.child_used hI rfl] at hp
          cases hp
        · rw [hp] at hq
          cases hq
      rw [he.pid_live hI hlive, hchild]
      exact hlt
    · intro c' _ _ hsw
      rw [hat.2.1] at hsw
      cases hsw
  · obtain ⟨hpid, _, hlive⟩ := h.root_step hI he
    obtain ⟨hlt, hp⟩ := h.up q p hs
    refine ⟨?_, hr ▸ hlive⟩
    rw [hr, hpid, hold (by rw [hs]; simp)]
    have hp1 := hpos p hp
    omega

lemma TreeInv.has_step (he : Effect init s a T) (hne : q ≠ init)
    (hq : Live (T.state q) ∨ T.state q = .zombie) : T.parent q ≠ none := by
  have hkeep : s.parent q ≠ none → T.parent q ≠ none := by
    intro hs
    rcases he.parent_kept hs with hp | hu
    · exact hp
    · rcases hq with hq | hq
      · exact absurd hu hq.ne_unused
      · rw [hu] at hq
        cases hq
  have hlive : Live (s.state q) → T.parent q ≠ none := fun hs => hkeep (h.has q hne (.inl hs))
  rcases hq with hq | hq
  · rcases he.live_born hI hq with hs | ⟨c, p, _, hat⟩
    · exact hlive hs
    · have hcode := h.code p
      rw [hat.2.2] at hcode
      have hparent : s.parent q = some p := hcode.2
      exact hkeep (by rw [hparent]; simp)
  · rcases he.zombie_born hq with hs | ⟨c, _, hc, hsw⟩
    · exact hkeep (h.has q hne (.inr hs))
    · have hok := hI.table.thread c q hc
      rw [Thread.ok, hsw] at hok
      exact hlive (.inr (.inr hok))

end

lemma Effect.parent_other (he : Effect init s a T) (hinit : p ≠ init)
    (hact : ∀ c, a = some c → s.cpu c ≠ .thread p) (hq : T.parent q = some p) :
    s.parent q = some p := by
  rcases he.parent_cases hq with hs | ⟨c, ha, hat⟩ | ⟨hr, _⟩
  · exact hs
  · exact absurd hat.1 (hact c ha)
  · exact absurd hr hinit

lemma Effect.child_other (he : Effect init s a T) (hI : Inv s)
    (hact : ∀ c, a = some c → s.cpu c ≠ .thread p) (hq : (s.thread p).task.child = some q) :
    T.pid q = s.pid q ∧ (s.parent q = some p → T.parent q = some p) := by
  have hu := hI.table.child p q hq
  have hmine : ∀ {c p' x}, a = some c → At s c p' x → x.child ≠ some q := by
    intro c p' x ha hat hch
    have hp := hI.table.parent p p' q hq (by rw [hat.2.2]; exact hch)
    subst hp
    exact hact c ha hat.1
  refine ⟨?_, ?_⟩
  · rcases he.pid_cases q with hp | ⟨hp, _⟩ | ⟨_, _, hz | ⟨c, p', ha, hc, hch⟩⟩
    · exact hp
    · rw [hu] at hp
      cases hp
    · rw [hu] at hz
      cases hz
    · have hp := hI.table.parent p p' q hq hch
      subst hp
      exact absurd hc (hact c ha)
  · intro hparent
    cases he with
    | @kill _ _ x _ _ _ _ =>
      unfold killBody
      split <;> exact hparent
    | @abort c p' np hat =>
      have hne : q ≠ np := by
        rintro rfl
        rcases hat with hat | hat <;> exact hmine rfl hat rfl
      simpa [table, freeproc, hne] using hparent
    | @reap _ _ x _ _ hx =>
      have hne : q ≠ x := by
        rintro rfl
        rw [hu] at hx
        cases hx
      simpa [table, freeproc, hne] using hparent
    | @adopt c p' np hat =>
      have hne : q ≠ np := by
        rintro rfl
        exact hmine rfl hat rfl
      simpa [table, setParent, hne] using hparent
    | @disown c p' x todo hat hx =>
      have hne : q ≠ x := by
        rintro rfl
        rw [hparent] at hx
        cases hx
        exact hact c rfl hat.1
      simpa [table, setParent, hne] using hparent
    | @off _ _ w _ _ =>
      cases w with
      | sleep ch lk => cases lk <;> exact hparent
      | _ => exact hparent
    | @back _ _ w _ _ => cases w <;> exact hparent
    | _ => exact hparent

lemma TreeInv.code_other (h : TreeInv init s) (hI : Inv s) (he : Effect init s a T)
    (hact : ∀ c, a = some c → s.cpu c ≠ .thread p) : (s.thread p).task.InTree init T p := by
  have hcode := h.code p
  have hlive : Live (s.state p) → Live (T.state p) := by
    refine he.live hI ?_
    intro c ha hc
    exact absurd hc (hact c ha)
  have hfork : ∀ {np}, (s.thread p).task.child = some np →
      Live (s.state p) ∧ s.pid p < s.pid np → Live (T.state p) ∧ T.pid p < T.pid np := by
    rintro np hch ⟨hl, hlt⟩
    refine ⟨hlive hl, ?_⟩
    rw [he.pid_live hI hl, (he.child_other hI hact hch).1]
    exact hlt
  have hadopt : ∀ {np}, (s.thread p).task.child = some np →
      Live (s.state p) ∧ s.parent np = some p → Live (T.state p) ∧ T.parent np = some p := by
    rintro np hch ⟨hl, hp⟩
    exact ⟨hlive hl, (he.child_other hI hact hch).2 hp⟩
  have hexit : ∀ {todo : List ι}, (p ≠ init ∧ ∀ q, s.parent q = some p → q ∈ todo) →
      p ≠ init ∧ ∀ q, T.parent q = some p → q ∈ todo := by
    rintro todo ⟨hne, hall⟩
    exact ⟨hne, fun q hq => hall q (he.parent_other hne hact hq)⟩
  have hgone : (p ≠ init ∧ ∀ q, s.parent q ≠ some p) →
      p ≠ init ∧ ∀ q, T.parent q ≠ some p := by
    rintro ⟨hne, hall⟩
    exact ⟨hne, fun q hq => hall q (he.parent_other hne hact hq)⟩
  cases hx : (s.thread p).task with
  | allocprocFound np | forkCopy np | forkWaitLock np | forkParent np =>
    rw [hx] at hcode
    exact hfork (by rw [hx]; rfl) hcode
  | forkReady np | forkSet np =>
    rw [hx] at hcode
    exact hadopt (by rw [hx]; rfl) hcode
  | exitLock =>
    rw [hx] at hcode
    exact hcode
  | reparent todo =>
    rw [hx] at hcode
    exact hexit hcode
  | wakeup ch todo after | wakeupHold _ ch todo after =>
    rw [hx] at hcode
    cases after with
    | run => trivial
    | reparent todo => exact hexit hcode
    | exit => exact hgone hcode
  | _ => trivial

omit [DecidableEq ι] in
lemma Task.InTree.congr {x : Task ι} {U : Table ι} (h : x.InTree init T p) (hpid : U.pid = T.pid)
    (hparent : U.parent = T.parent) (hlive : Live (T.state p) → Live (U.state p)) :
    x.InTree init U p := by
  cases x with
  | allocprocFound np | forkCopy np | forkWaitLock np | forkParent np =>
    exact ⟨hlive h.1, by rw [hpid]; exact h.2⟩
  | forkReady np | forkSet np => exact ⟨hlive h.1, by rw [hparent]; exact h.2⟩
  | exitLock => exact h
  | reparent todo => exact ⟨h.1, by rw [hparent]; exact h.2⟩
  | wakeup ch todo after | wakeupHold _ ch todo after =>
    cases after with
    | run => trivial
    | reparent todo => exact ⟨h.1, by rw [hparent]; exact h.2⟩
    | exit => exact ⟨h.1, by rw [hparent]; exact h.2⟩
  | _ => trivial

lemma TreeInv.code_move {d u : Thread ι} {w : Option κ} (hall : ∀ q, q ∈ procs)
    (h : TreeInv init s) (hI : Inv s) (hP : PidInv s.table) (hc : s.cpu c = .thread p)
    (hd : s.thread p = d) (hm : Moves procs init s e c p d u w T) : u.task.InTree init T p := by
  have hcode := h.code p
  have he := hm.effect hc hd
  have hexit := h.exiting p
  rw [hd] at hcode hexit
  cases hm with
  | wakeSkip => cases ‹After ι› <;> exact hcode
  | wakeLock _ => cases ‹After ι› <;> exact hcode
  | wakeBody =>
    have hp : ∀ {q ch}, (s.wakeBody q ch).table.parent = s.parent := by
      intro q ch
      unfold wakeBody
      split <;> rfl
    cases ‹After ι› with
    | run => trivial
    | reparent todo => exact ⟨hcode.1, by rw [hp]; exact hcode.2⟩
    | exit => exact ⟨hcode.1, by rw [hp]; exact hcode.2⟩
  | @alloc q todo hq =>
    have hrun : s.state p = .running := (at_of_thread hc hd rfl).running hI
    have hpq : p ≠ q := by
      rintro rfl
      rw [hq] at hrun
      cases hrun
    have hlt : s.pid p < s.nextpid := (hP.range p).2
    refine ⟨?_, ?_⟩
    · simp [table, allocprocFound, hpq, hrun, Live]
    · simpa [table, allocprocFound, hpq] using hlt
  | create => exact hcode
  | @adopt np => exact ⟨hcode.1, by simp [table, setParent]⟩
  | exitEnter _ => exact ⟨hcode, fun q _ => hall q⟩
  | reparentDone => exact ⟨hcode.1, fun q hq => by simpa using hcode.2 q hq⟩
  | @disown q todo hq =>
    refine ⟨hcode.1, ?_⟩
    intro x hx
    by_cases hxq : x = q
    · simp only [table, setParent, hxq, Function.update_self, Option.some.injEq] at hx
      exact absurd hx.symm hcode.1
    · have hmem := hcode.2 x (by simpa [table, setParent, hxq] using hx)
      exact (List.mem_cons.mp hmem).resolve_left hxq
  | @reparentSkip q todo hq =>
    refine ⟨hcode.1, ?_⟩
    intro x hx
    have hmem := hcode.2 x hx
    refine (List.mem_cons.mp hmem).resolve_left ?_
    rintro rfl
    exact hq hx
  | @switchSet x w =>
    have hset : ∀ y, Live y → Live ((s.setState p y).state p) := by
      intro y hy
      simpa [setState] using hy
    cases w with
    | sleep ch lk => cases lk <;> exact hcode.congr rfl rfl fun _ => hset _ (.inl rfl)
    | yield => exact hcode.congr rfl rfl fun _ => hset _ (.inr (.inl rfl))
    | forkret => exact hcode.congr rfl rfl fun _ => hset _ (.inr (.inl rfl))
    | exit =>
      obtain ⟨ch, todo, rfl⟩ := hexit (.inr rfl)
      exact hcode
  | @switchBack x w => cases w <;> exact hcode.congr rfl rfl id
  | callExit hp => exact hp
  | _ => first | exact hcode | trivial

lemma Moves.exiting {d u : Thread ι} {w : Option κ} (hm : Moves procs init s e c p d u w T)
    (hd : d.sw = .acquire .exit ∨ d.sw = .set .exit → d.task.Exiting)
    (hu : u.sw = .acquire .exit ∨ u.sw = .set .exit) : u.task.Exiting := by
  cases hm with
  | wakeExit => exact ⟨_, _, rfl⟩
  | @switchLock x w =>
    refine hd (.inl ?_)
    simpa using hu
  | _ => simp at hu

omit [DecidableEq ι] in
lemma switchIn_exit {x : Switch ι}
    (h : switchIn x = .acquire .exit ∨ switchIn x = .set .exit) :
    x = .acquire .exit ∨ x = .set .exit := by
  cases x <;> simp_all [switchIn]

theorem TreeInv.step [DecidableEq κ] (hall : ∀ q, q ∈ procs) (h : TreeInv init s) (hI : Inv s)
    (hP : PidInv s.table) (ht : next procs init s e = some t) : TreeInv init t := by
  have hctl := next_control ht
  have he := next_effect ht
  refine ⟨h.root_step hI he, fun q r => h.up_step hI hP he, fun q => h.has_step hI he, ?_, ?_⟩
  · intro p
    rcases hctl.thread_cases p with ⟨hth, a, ho, hact⟩ | ⟨_, _, _, _, hth⟩ | ⟨c, ha, hc, hm⟩
    · have htask : (t.thread p).task = (s.thread p).task := by
        rcases hth with hth | ⟨_, hth⟩ <;> rw [hth]
      rw [htask]
      exact h.code_other hI ho hact
    · rw [hth]
      trivial
    · exact h.code_move hall hI hP hc rfl hm
  · intro p hp
    rcases hctl.thread_cases p with ⟨hth | ⟨_, hth⟩, _⟩ | ⟨_, _, _, _, hth⟩ | ⟨c, ha, hc, hm⟩
    · rw [hth] at hp ⊢
      exact h.exiting p hp
    · rw [hth] at hp ⊢
      exact h.exiting p (switchIn_exit hp)
    · rw [hth] at hp
      simp at hp
    · exact hm.exiting (h.exiting p) hp

theorem boot_tree (init : ι) : TreeInv init (boot init : Sys ι κ) := by
  refine ⟨?_, ?_, ?_, ?_, ?_⟩
  · simp [boot, Live]
  · intro q r hq
    cases hq
  · intro q hne hq
    simp [boot, hne, Live] at hq
  · intro p
    trivial
  · intro p hp
    simp [boot] at hp

lemma treeInv_run [DecidableEq κ] {es : List (Event ι κ)} (hall : ∀ q, q ∈ procs)
    (h : Run (Step procs init) (boot init) es s) :
    Inv s ∧ PidInv s.table ∧ TreeInv init s := by
  refine h.invariant (I := fun s => Inv s ∧ PidInv s.table ∧ TreeInv init s) ?_
    ⟨boot_inv init, boot_pid init, boot_tree init⟩
  rintro s e t ⟨hI, hP, hT⟩ ht
  exact ⟨inv_step hI ht, hP.step hI (next_effect ht), hT.step hall hI hP ht⟩

omit [DecidableEq ι] in
lemma TreeInv.reaches (h : TreeInv init s) (hP : PidInv s.table)
    (hq : Live (s.state q) ∨ s.state q = .zombie) :
    Relation.ReflTransGen (fun x y => s.parent x = some y) q init := by
  obtain ⟨n, hn⟩ : ∃ n : ℕ, s.pid q = n := Int.eq_ofNat_of_zero_le (hP.range q).1
  induction n using Nat.strong_induction_on generalizing q with
  | _ n ih =>
    by_cases hne : q = init
    · rw [hne]
    · obtain ⟨r, hr⟩ := Option.ne_none_iff_exists'.mp (h.has q hne hq)
      obtain ⟨hlt, hlive⟩ := h.up q r hr
      obtain ⟨m, hm⟩ : ∃ m : ℕ, s.pid r = m := Int.eq_ofNat_of_zero_le (hP.range r).1
      exact .head hr (ih m (by omega) (.inl hlive) hm)

omit [DecidableEq ι] in
lemma TreeInv.acyclic (h : TreeInv init s) :
    ¬ Relation.TransGen (fun x y => s.parent x = some y) q q := by
  intro hcycle
  have hlt : ∀ {x y}, Relation.TransGen (fun x y => s.parent x = some y) x y →
      s.pid y < s.pid x := by
    intro x y hxy
    induction hxy with
    | single hp => exact (h.up _ _ hp).1
    | tail _ hp ih => exact lt_trans (h.up _ _ hp).1 ih
  exact lt_irrefl _ (hlt hcycle)

structure WellFormedTree (init : ι) (s : Sys ι κ) : Prop where
  unused : ∀ q, s.lock q = none → (s.state q = .unused ↔ s.pid q = 0)
  pid_pos : ∀ q, s.state q ≠ .unused → 0 < s.pid q
  pid_inj : ∀ p q, s.state p ≠ .unused → s.state q ≠ .unused → s.pid p = s.pid q → p = q
  parent : ∀ q, q ≠ init → Live (s.state q) ∨ s.state q = .zombie → ∃ r, s.parent q = some r ∧
    (r = init ∨ r ≠ q ∧ s.state r ≠ .unused ∧ s.state r ≠ .zombie)
  root : ∀ q, Live (s.state q) ∨ s.state q = .zombie →
    Relation.ReflTransGen (fun x y => s.parent x = some y) q init
  acyclic : ∀ q, ¬ Relation.TransGen (fun x y => s.parent x = some y) q q

/-- In every run the table is a tree rooted at init. -/
theorem process_tree [DecidableEq κ] {es : List (Event ι κ)} (hall : ∀ q, q ∈ procs)
    (h : Run (Step procs init) (boot init) es s) : WellFormedTree init s := by
  obtain ⟨-, hP, hT⟩ := treeInv_run hall h
  have hpos : ∀ q, s.state q ≠ .unused → 0 < s.pid q := by
    intro q hq
    have hge : 0 ≤ s.pid q := (hP.range q).1
    have hne : s.pid q ≠ 0 := fun h0 => hq ((hP.unused q).mpr h0)
    omega
  refine ⟨fun q _ => hP.unused q, hpos, ?_, ?_, fun q => hT.reaches hP, fun q => hT.acyclic⟩
  · intro p q hp _ heq
    exact hP.inj p q heq (hpos p hp).ne'
  · intro q hne hq
    obtain ⟨r, hr⟩ := Option.ne_none_iff_exists'.mp (hT.has q hne hq)
    obtain ⟨hlt, hlive⟩ := hT.up q r hr
    refine ⟨r, hr, .inr ⟨?_, hlive.ne_unused, hlive.ne_zombie⟩⟩
    rintro rfl
    exact lt_irrefl _ hlt

def initForks : List (Event (Fin 2) Unit) :=
  List.replicate 6 (.step ()) ++ .call () .fork :: List.replicate 10 (.step ())

theorem process_tree_fork : ∃ s : Sys (Fin 2) Unit,
    Run (Step (List.finRange 2) 0) (boot 0) initForks s ∧
    (s.waitLock = none ∧ s.parent 1 = some 0 ∧ s.pid 1 = 2 ∧ s.state 1 = .runnable) ∧
    WellFormedTree 0 s := by
  obtain ⟨s, hrun, hs⟩ := exists_run_of_replay
    (f := next (List.finRange 2) (0 : Fin 2)) (G := fun _ _ => True)
    (P := fun s : Sys (Fin 2) Unit => s.waitLock = none ∧ s.parent 1 = some 0 ∧ s.pid 1 = 2 ∧
      s.state 1 = .runnable) (s := boot 0) (l := initForks) (by decide +kernel)
  have hstep := hrun.mono fun _ _ _ h => h.2
  exact ⟨s, hstep, by simpa using hs, process_tree List.mem_finRange hstep⟩

end Xv6.Scheduler
