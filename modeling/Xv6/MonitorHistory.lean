import Xv6.Monitor

/-! Notes on the runs of a monitor. Each change of the data adds to the notes of the thread that
makes it and to common ones, and an account relates the notes to the data: it holds whenever the
lock is free, and to what a thread has noted about itself at the end of its call. -/
namespace Xv6.Monitor

open Function Transition Option

variable {ι V K N X Y A L S : Type}

structure Notes (ι L S : Type) where
  own : ι → L
  all : S

/-- `start` begins the notes of a call, and `note` adds the change from one value of the data to
another, made in that call. -/
structure History (V A L S : Type) where
  start : A → L
  note : A → V → V → L × S → L × S
  note_self : ∀ a v x, note a v v x = x

def History.log [DecidableEq ι] (c : History V A L S) (g : Notes ι L S) :
    Sys ι V K N X Y A × Event ι X A × Sys ι V K N X Y A → Notes ι L S
  | (_, .call p a, _) => { g with own := Function.update g.own p (c.start a) }
  | (s, .run p, t) =>
      match s.call p with
      | some a =>
          let x := c.note a s.data t.data (g.own p, g.all)
          ⟨Function.update g.own p x.1, x.2⟩
      | none => g
  | _ => g

/-- `inv` holds whenever the lock is free, `entry` at the start of a block and `done` at the end of
a call; `step` is what a single change may be, and `answer` what may come from outside. -/
structure Account (V N X A L S : Type) extends History V A L S where
  inv : V → S → Prop
  entry : N → A → V → L × S → Prop
  done : A → L → Prop
  step : V → V → Prop
  answer : X → Prop

namespace Account
variable (c : Account V N X A L S)

/-- What has to hold for code of the call `a` that runs with the lock held. -/
def In (a : A) : Prog V K N X Y → V → L × S → Prop
  | .ret, _, _ | .acquire _, _, _ => False
  | .release .ret, v, x => c.inv v x.2 ∧ c.done a x.1
  | .release (.acquire k), v, x => c.inv v x.2 ∧ ∀ v s, c.inv v s → In a k v (x.1, s)
  | .release _, _, _ => False
  | .act f k, v, x => c.step v (f v) ∧ In a k (f v) (c.note a v (f v) x)
  | .look k, v, x => In a (k v) v x
  | .ask _ k, v, x => ∀ y, c.answer y → In a (k y) v x
  | .wakeup _ k, v, x => In a k v x
  | .sleep _ k, v, x => c.inv v x.2 ∧ ∀ v s, c.inv v s → In a k v (x.1, s)
  | .killed k₁ k₂, v, x => In a k₁ v x ∧ In a k₂ v x
  | .goto n, v, x => c.entry n a v x

def Later (a : A) (l : L) (k : Prog V K N X Y) : Prop := ∀ v s, c.inv v s → c.In a k v (l, s)

def Out (a : A) (l : L) : Prog V K N X Y → Prop
  | .ret => c.done a l
  | .acquire k => c.Later a l k
  | _ => False

def Inside (a : A) (v : V) (x : L × S) : Pc ι V K N X Y → Prop
  | .exec k | .waking _ _ k => c.In a k v x
  | .sleepRelease _ k => c.inv v x.2 ∧ c.Later a x.1 k
  | _ => False

def Outside (a : A) (l : L) : Pc ι V K N X Y → Prop
  | .exec k => c.Out a l k
  | .sleepSet _ k | .sleepSched _ k | .asleep _ k | .sleepTidy k | .reacquire k => c.Later a l k
  | _ => False

structure Verified (code : Code V K N X Y A) : Prop where
  block : ∀ n a v x, c.entry n a v x → c.In a (code.block n) v x
  start : ∀ a, c.Out a (c.start a) (code.start a)

def Idle (s : Sys ι V K N X Y A) (p : ι) : Prop := s.call p = none ∧ s.pc p = .exec .ret

structure Kept (g : Notes ι L S) (s : Sys ι V K N X Y A) : Prop where
  inside : ∀ p, s.lock = some p →
    ∃ a, s.call p = some a ∧ c.Inside a s.data (g.own p, g.all) (s.pc p)
  outside : ∀ p, s.lock ≠ some p →
    Idle s p ∨ ∃ a, s.call p = some a ∧ c.Outside a (g.own p) (s.pc p)
  free : s.lock = none → c.inv s.data g.all

def Change (v v' : V) : Prop := v' = v ∨ c.step v v'

end Account

variable {c : Account V N X A L S} {code : Code V K N X Y A} {s t : Sys ι V K N X Y A} {p : ι}
  {k : Prog V K N X Y} {v : V} {a : A} {x : L × S} {g : Notes ι L S}

lemma Account.In.release (h : c.In a (.release k) v x) : c.inv v x.2 ∧ c.Out a x.1 k := by
  cases k with
  | ret | acquire k => exact h
  | _ => exact h.elim

namespace Account.Kept

lemma update {g' : Notes ι L S} (h : c.Kept g s) (hpc : ∀ q ≠ p, t.pc q = s.pc q)
    (hcall : ∀ q ≠ p, t.call q = s.call q) (hown : ∀ q ≠ p, g'.own q = g.own q)
    (hlock : ∀ q ≠ p, t.lock = some q ↔ s.lock = some q)
    (hdata : ∀ q ≠ p, s.lock = some q → t.data = s.data ∧ g'.all = g.all)
    (hin : t.lock = some p →
      ∃ a, t.call p = some a ∧ c.Inside a t.data (g'.own p, g'.all) (t.pc p))
    (hout : t.lock ≠ some p →
      Idle t p ∨ ∃ a, t.call p = some a ∧ c.Outside a (g'.own p) (t.pc p))
    (hfree : t.lock = none → c.inv t.data g'.all) : c.Kept g' t := by
  refine ⟨?_, ?_, hfree⟩
  · intro q hq
    by_cases hqp : q = p
    · subst hqp
      exact hin hq
    · have hs := (hlock q hqp).mp hq
      obtain ⟨hd, ha⟩ := hdata q hqp hs
      rw [hpc q hqp, hcall q hqp, hown q hqp, hd, ha]
      exact h.inside q hs
  · intro q hq
    by_cases hqp : q = p
    · subst hqp
      exact hout hq
    · rw [Idle, hpc q hqp, hcall q hqp, hown q hqp]
      exact h.outside q fun hs => hq ((hlock q hqp).mpr hs)

variable {y : Pc ι V K N X Y}

section
variable (h : c.Kept g s) (hp : s.pc p = y)
include h hp

theorem holder (hy : y ≠ .exec .ret) (hno : ∀ a l, ¬ c.Outside a l y) :
    s.lock = some p ∧ ∃ a, s.call p = some a ∧ c.Inside a s.data (g.own p, g.all) y := by
  subst hp
  have hl : s.lock = some p := by
    by_contra hl
    rcases h.outside p hl with hidle | ⟨a, _, ha⟩
    · exact hy hidle.2
    · exact hno a _ ha
  exact ⟨hl, h.inside p hl⟩

theorem stranger (hno : ∀ a v x, ¬ c.Inside a v x y) :
    s.lock ≠ some p ∧ (Idle s p ∨ ∃ a, s.call p = some a ∧ c.Outside a (g.own p) y) := by
  subst hp
  have hl : s.lock ≠ some p := by
    intro hl
    obtain ⟨a, _, ha⟩ := h.inside p hl
    exact hno a _ _ ha
  exact ⟨hl, h.outside p hl⟩

lemma waiter (hy : y ≠ .exec .ret) (hno : ∀ a v x, ¬ c.Inside a v x y) :
    s.lock ≠ some p ∧ ∃ a, s.call p = some a ∧ c.Outside a (g.own p) y := by
  obtain ⟨hl, hidle | hcall⟩ := h.stranger hp hno
  · exact absurd (hp.symm.trans hidle.2) hy
  · exact ⟨hl, hcall⟩

end

section
variable [DecidableEq ι]

variable {u : Sys ι V K N X Y A}

section
variable (h : c.Kept g s)
include h

lemma goto (hu : u.pc = s.pc ∧ u.lock = s.lock ∧ u.data = s.data ∧ u.call = s.call)
    (ha : s.call p = some a) (hin : s.lock = some p → c.Inside a s.data (g.own p, g.all) y)
    (hout : s.lock ≠ some p → c.Outside a (g.own p) y) : c.Kept g (u.goto p y) := by
  obtain ⟨hpc, hlock, hd, hc⟩ := hu
  have hy : (u.goto p y).pc p = y := update_self ..
  refine h.update (p := p) ?_ (fun q _ => congrFun hc q) (fun _ _ => rfl) (fun q _ => ?_)
    (fun q _ _ => ⟨hd, rfl⟩) ?_ ?_ ?_
  · intro q hq
    exact (update_of_ne hq _ _).trans (congrFun hpc q)
  · exact iff_of_eq (congrArg (· = some q) hlock)
  · intro hl
    rw [hy]
    exact ⟨a, (congrFun hc p).trans ha, hd ▸ hin (hlock.symm.trans hl)⟩
  · intro hl
    rw [hy]
    exact .inr ⟨a, (congrFun hc p).trans ha, hout fun hs => hl (hlock.trans hs)⟩
  · intro hn
    exact hd ▸ h.free (hlock ▸ hn)

lemma inner (hl : s.lock = some p) (ha : s.call p = some a)
    (hin : c.Inside a s.data (g.own p, g.all) y)
    (hu : u.pc = s.pc ∧ u.lock = s.lock ∧ u.data = s.data ∧ u.call = s.call := by exact ⟨rfl, rfl, rfl, rfl⟩)
    :
    c.Kept g (u.goto p y) :=
  h.goto hu ha (fun _ => hin) (absurd hl)

lemma outer (hl : s.lock ≠ some p) (ha : s.call p = some a) (hout : c.Outside a (g.own p) y)
    (hu : u.pc = s.pc ∧ u.lock = s.lock ∧ u.data = s.data ∧ u.call = s.call := by exact ⟨rfl, rfl, rfl, rfl⟩)
    :
    c.Kept g (u.goto p y) :=
  h.goto hu ha (fun hs => absurd hs hl) (fun _ => hout)

lemma acquire (hl : s.lock = none) (ha : s.call p = some a) (hk : c.Later a (g.own p) k) :
    c.Kept g ({ s with lock := some p }.goto p (.exec k)) := by
  refine h.update (p := p) (fun q hq => update_of_ne hq _ _) (fun _ _ => rfl)
    (fun _ _ => rfl) ?_ (fun _ _ _ => ⟨rfl, rfl⟩) ?_ ?_ ?_
  · intro q hq
    rw [hl]
    constructor
    · intro e
      exact absurd (some.inj e).symm hq
    · intro e
      cases e
  · intro _
    have hy : ({ s with lock := some p }.goto p (.exec k)).pc p = .exec k := update_self ..
    rw [hy]
    exact ⟨a, ha, hk _ _ (h.free hl)⟩
  · intro hne
    exact absurd rfl hne
  · intro hn
    cases hn

lemma release (hl : s.lock = some p) (ha : s.call p = some a) (hinv : c.inv s.data g.all)
    (hy : c.Outside a (g.own p) y) : c.Kept g ({ s with lock := none }.goto p y) := by
  refine h.update (p := p) (fun q hq => update_of_ne hq _ _) (fun _ _ => rfl)
    (fun _ _ => rfl) ?_ (fun _ _ _ => ⟨rfl, rfl⟩) ?_ ?_ ?_
  · intro q hq
    rw [hl]
    constructor
    · intro e
      cases e
    · intro e
      exact absurd (some.inj e).symm hq
  · intro e
    cases e
  · intro _
    have hpc : ({ s with lock := none }.goto p y).pc p = y := update_self ..
    rw [hpc]
    exact .inr ⟨a, ha, hy⟩
  · intro _
    exact hinv

lemma act (hl : s.lock = some p) (ha : s.call p = some a) (hk : c.In a k v x) :
    c.Kept ⟨Function.update g.own p x.1, x.2⟩ ({ s with data := v }.goto p (.exec k)) := by
  refine h.update (p := p) (fun q hq => update_of_ne hq _ _) (fun _ _ => rfl)
    (fun q hq => update_of_ne hq _ _) (fun _ _ => Iff.rfl) ?_ ?_ ?_ ?_
  · intro q hq hs
    exact absurd (some.inj (hs.symm.trans hl)) hq
  · intro _
    have hy : ({ s with data := v }.goto p (.exec k)).pc p = .exec k := update_self ..
    rw [hy]
    refine ⟨a, ha, ?_⟩
    change c.In a k v (Function.update g.own p x.1 p, x.2)
    rw [update_self]
    exact hk
  · intro hne
    exact absurd hl hne
  · intro hn
    have hs : s.lock = none := hn
    rw [hl] at hs
    cases hs

lemma call (hl : s.lock ≠ some p) {l : L} (hk : c.Out a l k) :
    c.Kept { g with own := Function.update g.own p l }
      ({ s with call := Function.update s.call p (some a) }.goto p (.exec k)) := by
  refine h.update (p := p) (fun q hq => update_of_ne hq _ _)
    (fun q hq => update_of_ne hq _ _) (fun q hq => update_of_ne hq _ _)
    (fun _ _ => Iff.rfl) (fun _ _ _ => ⟨rfl, rfl⟩) (fun hp => absurd hp hl) ?_ h.free
  intro _
  have hy : ({ s with call := Function.update s.call p (some a) }.goto p (.exec k)).pc p =
      .exec k := update_self ..
  have ha : ({ s with call := Function.update s.call p (some a) }.goto p (.exec k)).call p =
      some a := update_self ..
  rw [hy]
  refine .inr ⟨a, ha, ?_⟩
  change c.Out a (Function.update g.own p l p) k
  rw [update_self]
  exact hk

end

end

end Account.Kept

section step
variable [DecidableEq ι]

lemma History.log_run_same (c : History V A L S) (h : t.data = s.data) :
    c.log g (s, .run p, t) = g := by
  simp only [History.log]
  cases s.call p with
  | none => rfl
  | some a =>
    dsimp only
    rw [h, c.note_self, update_eq_self]

lemma History.log_run (c : History V A L S) (ha : s.call p = some a) :
    c.log g (s, .run p, t) = ⟨Function.update g.own p (c.note a s.data t.data (g.own p, g.all)).1,
      (c.note a s.data t.data (g.own p, g.all)).2⟩ := by
  simp only [History.log, ha]

variable {procs : List ι}

lemma Account.Kept.quiet (h : c.Kept g t) (hd : t.data = s.data) :
    c.Kept (c.log g (s, .run p, t)) t ∧ c.Change s.data t.data := by
  rw [c.log_run_same hd]
  exact ⟨h, .inl hd⟩

lemma Account.Verified.runProg (hc : c.Verified code) (h : c.Kept g s) (hp : s.pc p = .exec k)
    (ht : runProg code procs s p k = some t) :
    c.Kept (c.log g (s, .run p, t)) t ∧ c.Change s.data t.data := by
  cases k with
  | ret | ask y k => cases ht
  | acquire k =>
    simp only [Monitor.runProg, ite_none_right_eq_some, some.injEq] at ht
    obtain ⟨hl, rfl⟩ := ht
    obtain ⟨_, a, ha, hk⟩ := h.waiter hp (by simp) fun _ _ _ => id
    exact (h.acquire hl ha hk).quiet rfl
  | sleep ch k =>
    simp only [Monitor.runProg, ite_none_left_eq_some, some.injEq] at ht
    obtain ⟨_, rfl⟩ := ht
    obtain ⟨hl, a, ha, hk⟩ := h.holder hp (by simp) fun _ _ => id
    exact (h.inner (y := .sleepRelease ch k) hl ha hk).quiet rfl
  | killed k₁ k₂ =>
    simp only [Monitor.runProg, ite_none_left_eq_some, some.injEq] at ht
    obtain ⟨_, rfl⟩ := ht
    obtain ⟨hl, a, ha, hk⟩ := h.holder hp (by simp) fun _ _ => id
    refine (h.inner (y := .exec (if s.killed p then k₁ else k₂)) hl ha ?_).quiet rfl
    split_ifs
    · exact hk.1
    · exact hk.2
  | release k =>
    cases ht
    obtain ⟨hl, a, ha, hk⟩ := h.holder hp (by simp) fun _ _ => id
    exact (h.release (y := .exec k) hl ha hk.release.1 hk.release.2).quiet rfl
  | act f k =>
    cases ht
    obtain ⟨hl, a, ha, hstep, hk⟩ := h.holder hp (by simp) fun _ _ => id
    rw [c.log_run ha]
    exact ⟨h.act hl ha hk, .inr hstep⟩
  | look k =>
    cases ht
    obtain ⟨hl, a, ha, hk⟩ := h.holder hp (by simp) fun _ _ => id
    exact (h.inner (y := .exec (k s.data)) hl ha hk).quiet rfl
  | wakeup ch k =>
    cases ht
    obtain ⟨hl, a, ha, hk⟩ := h.holder hp (by simp) fun _ _ => id
    exact (h.inner (y := .waking ch procs k) hl ha hk).quiet rfl
  | goto n =>
    cases ht
    obtain ⟨hl, a, ha, hk⟩ := h.holder hp (by simp) fun _ _ => id
    exact (h.inner (y := .exec (code.block n)) hl ha (hc.block n a _ _ hk)).quiet rfl

variable [DecidableEq K] {e : Event ι X A}

lemma Account.Verified.runPc (hc : c.Verified code) (h : c.Kept g s) {y : Pc ι V K N X Y}
    (hp : s.pc p = y) (ht : runPc code procs s p y = some t) :
    c.Kept (c.log g (s, .run p, t)) t ∧ c.Change s.data t.data := by
  cases y with
  | exec k => exact hc.runProg h hp ht
  | asleep ch k => cases ht
  | waking ch todo k =>
    obtain ⟨hl, a, ha, hk⟩ := h.holder hp (by simp) fun _ _ => id
    cases todo with
    | nil =>
      cases ht
      exact (h.inner (y := .exec k) hl ha hk).quiet rfl
    | cons q todo =>
      obtain ⟨u, hu, rfl⟩ := map_eq_some_iff.mp ht
      have hsame : u.pc = s.pc ∧ u.lock = s.lock ∧ u.data = s.data ∧ u.call = s.call := by
        unfold Sys.wakeOne at hu
        split_ifs at hu <;> cases hu <;> exact ⟨rfl, rfl, rfl, rfl⟩
      exact (h.inner (y := .waking ch todo k) hl ha hk hsame).quiet hsame.2.2.1
  | sleepRelease ch k =>
    cases ht
    obtain ⟨hl, a, ha, hk⟩ := h.holder hp (by simp) fun _ _ => id
    exact (h.release (y := .sleepSet ch k) hl ha hk.1 hk.2).quiet rfl
  | sleepSet ch k =>
    cases ht
    obtain ⟨hl, a, ha, hk⟩ := h.waiter hp (by simp) fun _ _ _ => id
    exact (h.outer (y := .sleepSched ch k) hl ha hk).quiet rfl
  | sleepSched ch k =>
    cases ht
    obtain ⟨hl, a, ha, hk⟩ := h.waiter hp (by simp) fun _ _ _ => id
    exact (h.outer (y := .asleep ch k) hl ha hk).quiet rfl
  | sleepTidy k =>
    cases ht
    obtain ⟨hl, a, ha, hk⟩ := h.waiter hp (by simp) fun _ _ _ => id
    exact (h.outer (y := .reacquire k) hl ha hk).quiet rfl
  | reacquire k =>
    simp only [Monitor.runPc, ite_none_right_eq_some, some.injEq] at ht
    obtain ⟨hl, rfl⟩ := ht
    obtain ⟨_, a, ha, hk⟩ := h.waiter hp (by simp) fun _ _ _ => id
    exact (h.acquire hl ha hk).quiet rfl

def Account.Answers (c : Account V N X A L S) (_ : Sys ι V K N X Y A) : Event ι X A → Prop
  | .answer _ y => c.answer y
  | _ => True

lemma Account.Verified.next (hc : c.Verified code) (h : c.Kept g s) (he : c.Answers s e)
    (ht : next code procs s e = some t) :
    c.Kept (c.log g (s, e, t)) t ∧ c.Change s.data t.data := by
  cases e with
  | run p => exact hc.runPc h rfl ht
  | call p a =>
    simp only [Monitor.next] at ht
    split at ht
    next hp =>
      cases ht
      obtain ⟨hl, _⟩ := h.stranger hp fun _ _ _ => id
      exact ⟨h.call hl (hc.start a), .inl rfl⟩
    next => cases ht
  | answer p x =>
    simp only [Monitor.next] at ht
    split at ht
    next y k hp =>
      cases ht
      obtain ⟨hl, a, ha, hk⟩ := h.holder hp (by simp) fun _ _ => id
      exact ⟨h.inner (y := .exec (k x)) hl ha (hk x he), .inl rfl⟩
    next => cases ht
  | dispatch p =>
    simp only [Monitor.next] at ht
    split at ht
    next ch k hp =>
      split_ifs at ht with hd
      cases ht
      obtain ⟨hl, a, ha, hk⟩ := h.waiter hp (by simp) fun _ _ _ => id
      exact ⟨h.outer (y := .sleepTidy k) hl ha hk, .inl rfl⟩
    next => cases ht
  | kill p =>
    simp only [Monitor.next] at ht
    split_ifs at ht <;> cases ht <;> exact ⟨⟨h.inside, h.outside, h.free⟩, .inl rfl⟩
  | fresh p =>
    simp only [Monitor.next] at ht
    split at ht
    · cases ht
      exact ⟨⟨h.inside, h.outside, h.free⟩, .inl rfl⟩
    · cases ht

theorem Account.Verified.step (hc : c.Verified code) (hall : ∀ y, c.answer y)
    (h : ∃ g, c.Kept g s) (ht : Monitor.next code procs s e = some t) :
    (∃ g, c.Kept g t) ∧ c.Change s.data t.data := by
  obtain ⟨g, h⟩ := h
  have he : c.Answers s e := by
    cases e with
    | answer p y => exact hall y
    | _ => trivial
  exact (hc.next h he ht).imp_left fun hk => ⟨_, hk⟩

omit [DecidableEq ι] [DecidableEq K] in
theorem Account.kept_boot (hv : c.inv v g.all) : c.Kept g (boot v : Sys ι V K N X Y A) :=
  ⟨fun _ h => (by cases h), fun _ _ => .inl ⟨rfl, rfl⟩, fun _ => hv⟩

theorem Account.Verified.run (hc : c.Verified code) (hv : c.inv v g.all)
    {xs : List (Sys ι V K N X Y A × Event ι X A × Sys ι V K N X Y A)}
    (h : Run (Record
      (Guarded (Monitor.next code procs) c.Answers)) (boot v) xs s) :
    c.Kept (xs.foldl c.log g) s ∧ ∀ x ∈ xs, c.Change x.1.data x.2.2.data := by
  induction h with
  | nil => exact ⟨kept_boot hv, fun _ hx => (by cases hx)⟩
  | snoc _ hs ih =>
    obtain ⟨hfrom, hto, hanswers, hnext⟩ := hs
    obtain ⟨hkept, hchange⟩ := hc.next ih.1 hanswers hnext
    subst hfrom hto
    refine ⟨by simpa using hkept, ?_⟩
    intro y hy
    rcases List.mem_append.mp hy with hy | hy
    · exact ih.2 y hy
    · rw [List.mem_singleton.mp hy]
      exact hchange

end step

end Xv6.Monitor
