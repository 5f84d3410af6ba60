import Xv6.Transition

/-! Programs that take and release locks. An agent runs its own program or that of a thread it
has switched to; the locks are the agent's and pass with it from one to the other. What a branch
decides is not part of the model. A discipline says which locks are held where; programs that
keep it request a lock only above those they hold, and then no agents wait for each other in a
cycle. -/
namespace Xv6.LockProgram

open Function

/-- What is left to do. `suspend` gives the agent back to its own program, `resume` lends it to
a thread, and `goto` continues with a named program. -/
inductive Prog (L ι N : Type*)
  | ret
  | acquire (l : L) (k : Prog L ι N)
  | release (l : L) (k : Prog L ι N)
  | branch (k₁ k₂ : Prog L ι N)
  | suspend (k : Prog L ι N)
  | resume (p : ι) (k : Prog L ι N)
  | goto (n : N)

/-- An agent in its own program, or in that of a thread, with its own kept for later. -/
inductive Agent (L ι N : Type*)
  | own (k : Prog L ι N)
  | runs (p : ι) (k saved : Prog L ι N)

/-- `depth` counts the locks an agent holds; a thread that is on an agent has no program. -/
structure Machine (κ L ι N : Type*) where
  lock : L → Option κ
  depth : κ → ℕ
  agent : κ → Agent L ι N
  thread : ι → Option (Prog L ι N)

/-- The next action of an agent, one side of a branch, or a call from outside. -/
inductive Event (κ A : Type*)
  | step (c : κ)
  | branch (c : κ) (first : Bool)
  | enter (c : κ) (a : A)

variable {κ L ι N A : Type*}

def Agent.who : Agent L ι N → Option ι
  | .own _ => none
  | .runs p _ _ => some p

def Agent.cur : Agent L ι N → Prog L ι N
  | .own k => k
  | .runs _ k _ => k

def Agent.become : Agent L ι N → Prog L ι N → Agent L ι N
  | .own _, k => .own k
  | .runs p _ saved, k => .runs p k saved

section
variable [DecidableEq κ] [DecidableEq L] [DecidableEq ι]

def Machine.become (m : Machine κ L ι N) (c : κ) (k : Prog L ι N) : Machine κ L ι N :=
  { m with agent := Function.update m.agent c ((m.agent c).become k) }

def step (code : N → Prog L ι N) (m : Machine κ L ι N) (c : κ) :
    Prog L ι N → Option (Machine κ L ι N)
  | .ret | .branch _ _ => none
  | .acquire l k =>
      if m.lock l = none then
        some { m.become c k with
          lock := Function.update m.lock l (some c)
          depth := Function.update m.depth c (m.depth c + 1) }
      else none
  | .release l k =>
      some { m.become c k with
        lock := Function.update m.lock l none
        depth := Function.update m.depth c (m.depth c - 1) }
  | .suspend k =>
      match m.agent c with
      | .own _ => none
      | .runs p _ saved =>
          some { m with
            agent := Function.update m.agent c (.own saved)
            thread := Function.update m.thread p (some k) }
  | .resume p k =>
      match m.agent c, m.thread p with
      | .own _, some k' =>
          some { m with
            agent := Function.update m.agent c (.runs p k' k)
            thread := Function.update m.thread p none }
      | _, _ => none
  | .goto n => some (m.become c (code n))

/-- `enter` says what a call makes of the program; an agent that holds a lock takes none. -/
def next (code : N → Prog L ι N) (enter : A → κ → Option ι → Prog L ι N → Option (Prog L ι N))
    (m : Machine κ L ι N) : Event κ A → Option (Machine κ L ι N)
  | .step c => step code m c (m.agent c).cur
  | .branch c first =>
      match (m.agent c).cur with
      | .branch k₁ k₂ => some (m.become c (if first then k₁ else k₂))
      | _ => none
  | .enter c a =>
      if m.depth c = 0 then
        (enter a c (m.agent c).who (m.agent c).cur).map fun k => m.become c k
      else none

end

def Prog.request : Prog L ι N → Option L
  | .acquire l _ => some l
  | _ => none

def Machine.WaitsFor (m : Machine κ L ι N) (c c' : κ) : Prop :=
  ∃ l, (m.agent c).cur.request = some l ∧ m.lock l = some c'

/-- An order of the locks, the lock that is held whenever an agent passes to or from a thread,
and for each named program who runs it and which locks are held at its start. -/
structure Discipline (L ι N : Type*) where
  before : L → L → Prop
  irrefl : ∀ l, ¬before l l
  trans : ∀ {l m n}, before l m → before m n → before l n
  baton : ι → L
  runner : N → Option ι
  entry : N → Finset L

namespace Discipline
variable [DecidableEq L] (d : Discipline L ι N)

/-- `k`, run by `who` with the locks `H` held, requests locks in order, releases only locks it
holds, and switches with the baton alone. -/
def Ok (who : Option ι) : Prog L ι N → Finset L → Prop
  | .ret, H => H = ∅
  | .acquire l k, H => (∀ h ∈ H, d.before h l) ∧ Ok who k (insert l H)
  | .release l k, H => l ∈ H ∧ Ok who k (H.erase l)
  | .branch k₁ k₂, H => Ok who k₁ H ∧ Ok who k₂ H
  | .suspend k, H => ∃ p, who = some p ∧ H = {d.baton p} ∧ Ok who k {d.baton p}
  | .resume p k, H => who = none ∧ H = {d.baton p} ∧ Ok who k {d.baton p}
  | .goto n, H => d.runner n = who ∧ H = d.entry n

def Runs : Agent L ι N → Finset L → Prop
  | .own k, H => d.Ok none k H
  | .runs p k saved, H => d.Ok (some p) k H ∧ d.Ok none saved {d.baton p}

def Holds (m : Machine κ L ι N) (c : κ) (H : Finset L) : Prop :=
  (∀ l, m.lock l = some c ↔ l ∈ H) ∧ m.depth c = H.card ∧ d.Runs (m.agent c) H

structure Inv (m : Machine κ L ι N) : Prop where
  agent : ∀ c, ∃ H, d.Holds m c H
  thread : ∀ p k, m.thread p = some k → d.Ok (some p) k {d.baton p}

variable {d} {m m' : Machine κ L ι N} {c c' : κ} {l : L} {k : Prog L ι N} {p : ι} {H : Finset L}

lemma Runs.cur {x : Agent L ι N} (h : d.Runs x H) : d.Ok x.who x.cur H := by
  cases x with
  | own k => exact h
  | runs p k saved => exact h.1

lemma Runs.become {x : Agent L ι N} {H' : Finset L} (h : d.Runs x H)
    (hk : d.Ok x.who k H') : d.Runs (x.become k) H' := by
  cases x with
  | own _ => exact hk
  | runs p _ saved => exact ⟨hk, h.2⟩

lemma Inv.update (h : d.Inv m) (hc : ∃ H, d.Holds m' c H)
    (hlock : ∀ c' ≠ c, ∀ l, m'.lock l = some c' ↔ m.lock l = some c')
    (hdepth : ∀ c' ≠ c, m'.depth c' = m.depth c') (hagent : ∀ c' ≠ c, m'.agent c' = m.agent c')
    (hthread : ∀ p k, m'.thread p = some k → d.Ok (some p) k {d.baton p}) : d.Inv m' := by
  refine ⟨fun c' => ?_, hthread⟩
  by_cases hcc : c' = c
  · rw [hcc]
    exact hc
  · obtain ⟨H, hl, hd, hr⟩ := h.agent c'
    refine ⟨H, fun l => (hlock c' hcc l).trans (hl l), ?_, ?_⟩
    · rw [hdepth c' hcc, hd]
    · rw [hagent c' hcc]
      exact hr

section
variable [DecidableEq κ]

section
variable (h : d.Inv m) (hH : d.Holds m c H)
include h hH

lemma Inv.become (hk : d.Ok (m.agent c).who k H) : d.Inv (m.become c k) := by
  refine h.update (c := c) ⟨H, hH.1, hH.2.1, ?_⟩ (fun _ _ _ => Iff.rfl) (fun _ _ => rfl) ?_
    h.thread
  · simpa [Machine.become] using hH.2.2.become hk
  · intro c' hc'
    exact update_of_ne hc' _ _

lemma Inv.acquire (hk : d.Ok (m.agent c).who (.acquire l k) H) (hfree : m.lock l = none) :
    d.Inv { m.become c k with
      lock := Function.update m.lock l (some c)
      depth := Function.update m.depth c (m.depth c + 1) } := by
  have hnot : l ∉ H := by
    intro hl
    exact d.irrefl l (hk.1 l hl)
  refine h.update (c := c) ⟨insert l H, ?_, ?_, ?_⟩ ?_ ?_ ?_ h.thread
  · intro l'
    by_cases hl : l' = l
    · simp [hl]
    · simpa [hl] using hH.1 l'
  · simp [hH.2.1, hnot]
  · simpa [Machine.become] using hH.2.2.become hk.2
  · intro c' hc' l'
    by_cases hl : l' = l
    · simp [hl, hfree, Ne.symm hc']
    · simp [update_of_ne hl]
  · intro c' hc'
    exact update_of_ne hc' _ _
  · intro c' hc'
    exact update_of_ne hc' _ _

lemma Inv.release (hk : d.Ok (m.agent c).who (.release l k) H) :
    d.Inv { m.become c k with
      lock := Function.update m.lock l none
      depth := Function.update m.depth c (m.depth c - 1) } := by
  have howner : m.lock l = some c := (hH.1 l).mpr hk.1
  refine h.update (c := c) ⟨H.erase l, ?_, ?_, ?_⟩ ?_ ?_ ?_ h.thread
  · intro l'
    by_cases hl : l' = l
    · simp [hl]
    · simpa [hl] using hH.1 l'
  · simp [hH.2.1, Finset.card_erase_of_mem hk.1]
  · simpa [Machine.become] using hH.2.2.become hk.2
  · intro c' hc' l'
    by_cases hl : l' = l
    · simp [hl, howner, Ne.symm hc']
    · simp [update_of_ne hl]
  · intro c' hc'
    exact update_of_ne hc' _ _
  · intro c' hc'
    exact update_of_ne hc' _ _

end

variable [DecidableEq ι]

lemma Inv.suspend (h : d.Inv m) (hH : d.Holds m c H) {k' saved : Prog L ι N}
    (hc : m.agent c = .runs p k' saved) (hk : d.Ok (some p) (.suspend k) H) :
    d.Inv { m with
      agent := Function.update m.agent c (.own saved)
      thread := Function.update m.thread p (some k) } := by
  obtain ⟨hlock, hdepth, hruns⟩ := hH
  obtain ⟨q, hq, rfl, hok⟩ := hk
  cases hq
  rw [hc] at hruns
  refine h.update (c := c) ⟨_, hlock, hdepth, ?_⟩ (fun _ _ _ => Iff.rfl) (fun _ _ => rfl) ?_ ?_
  · simpa [Runs] using hruns.2
  · intro c' hc'
    exact update_of_ne hc' _ _
  · intro q k'' hq
    by_cases hqp : q = p
    · subst hqp
      simp only [update_self, Option.some.injEq] at hq
      subst hq
      exact hok
    · simp only [update_of_ne hqp] at hq
      exact h.thread q k'' hq

lemma Inv.resume (h : d.Inv m) (hH : d.Holds m c H) {k' : Prog L ι N}
    (hk : d.Ok none (.resume p k) H) (hp : m.thread p = some k') :
    d.Inv { m with
      agent := Function.update m.agent c (.runs p k' k)
      thread := Function.update m.thread p none } := by
  obtain ⟨hlock, hdepth, hruns⟩ := hH
  obtain ⟨-, rfl, hok⟩ := hk
  refine h.update (c := c) ⟨_, hlock, hdepth, ?_⟩ (fun _ _ _ => Iff.rfl) (fun _ _ => rfl) ?_ ?_
  · simpa using ⟨h.thread p k' hp, hok⟩
  · intro c' hc'
    exact update_of_ne hc' _ _
  · intro q k'' hq
    by_cases hqp : q = p
    · simp [hqp] at hq
    · simp only [update_of_ne hqp] at hq
      exact h.thread q k'' hq

variable {code : N → Prog L ι N} {enter : A → κ → Option ι → Prog L ι N → Option (Prog L ι N)}

lemma Inv.step (hcode : ∀ n, d.Ok (d.runner n) (code n) (d.entry n)) (h : d.Inv m)
    (hs : LockProgram.step code m c (m.agent c).cur = some m') : d.Inv m' := by
  obtain ⟨H, hH⟩ := h.agent c
  have hk := hH.2.2.cur
  generalize hcur : (m.agent c).cur = k at hs hk
  cases k with
  | ret => cases hs
  | branch _ _ => cases hs
  | acquire l k =>
    simp only [LockProgram.step] at hs
    split at hs
    next hfree =>
      cases hs
      exact h.acquire hH hk hfree
    next => cases hs
  | release l k =>
    cases hs
    exact h.release hH hk
  | suspend k =>
    simp only [LockProgram.step] at hs
    split at hs
    next => cases hs
    next p k' saved hc =>
      cases hs
      rw [hc] at hk
      exact h.suspend hH hc hk
  | resume p k =>
    simp only [LockProgram.step] at hs
    split at hs
    next hc hp =>
      cases hs
      rw [hc] at hk
      exact h.resume hH hk hp
    next => cases hs
  | goto n =>
    cases hs
    obtain ⟨hrun, rfl⟩ := hk
    have hn := hcode n
    rw [hrun] at hn
    exact h.become hH hn

theorem Inv.next (hcode : ∀ n, d.Ok (d.runner n) (code n) (d.entry n))
    (henter : ∀ a c who k k', enter a c who k = some k' → d.Ok who k ∅ → d.Ok who k' ∅)
    {e : Event κ A} (h : d.Inv m) (hn : LockProgram.next code enter m e = some m') :
    d.Inv m' := by
  cases e with
  | step c => exact h.step hcode hn
  | branch c first =>
    simp only [LockProgram.next] at hn
    split at hn
    next k₁ k₂ hcur =>
      cases hn
      obtain ⟨H, hH⟩ := h.agent c
      have hk := hH.2.2.cur
      rw [hcur] at hk
      refine h.become hH ?_
      cases first
      · exact hk.2
      · exact hk.1
    next => cases hn
  | enter c a =>
    simp only [LockProgram.next] at hn
    split at hn
    next hdepth =>
      obtain ⟨k, hk, rfl⟩ := Option.map_eq_some_iff.mp hn
      obtain ⟨H, hH⟩ := h.agent c
      have hempty : H = ∅ := Finset.card_eq_zero.mp (hH.2.1.symm.trans hdepth)
      subst hempty
      exact h.become hH (henter a c _ _ k hk hH.2.2.cur)
    next => cases hn

end

theorem Inv.before (h : d.Inv m) (hreq : (m.agent c).cur.request = some l) {l' : L}
    (hl : m.lock l' = some c) : d.before l' l := by
  obtain ⟨H, hlock, _, hruns⟩ := h.agent c
  have hk := hruns.cur
  generalize (m.agent c).cur = k at hreq hk
  cases k with
  | acquire l k =>
    cases hreq
    exact hk.1 l' ((hlock l').mp hl)
  | _ => cases hreq

theorem Inv.entry {n : N} (h : d.Inv m) (hcur : (m.agent c).cur = .goto n) :
    m.lock l = some c ↔ l ∈ d.entry n := by
  obtain ⟨H, hlock, _, hruns⟩ := h.agent c
  have hk := hruns.cur
  rw [hcur] at hk
  rw [hlock, hk.2]

lemma Inv.chain (h : d.Inv m) (hw : Relation.TransGen m.WaitsFor c c') :
    ∃ l l', (m.agent c).cur.request = some l ∧ m.lock l' = some c' ∧
      (l = l' ∨ d.before l l') := by
  induction hw with
  | single hcc =>
    obtain ⟨l, hreq, hl⟩ := hcc
    exact ⟨l, l, hreq, hl, .inl rfl⟩
  | tail _ hcc ih =>
    obtain ⟨l, l', hreq, hl', hle⟩ := ih
    obtain ⟨l2, hreq2, hl2⟩ := hcc
    have hlt := h.before hreq2 hl'
    refine ⟨l, l2, hreq, hl2, .inr ?_⟩
    rcases hle with rfl | hle
    · exact hlt
    · exact d.trans hle hlt

theorem Inv.no_cycle (h : d.Inv m) (c : κ) : ¬Relation.TransGen m.WaitsFor c c := by
  intro hw
  obtain ⟨l, l', hreq, hl', hle⟩ := h.chain hw
  have hlt := h.before hreq hl'
  rcases hle with rfl | hle
  · exact d.irrefl _ hlt
  · exact d.irrefl _ (d.trans hle hlt)

end Discipline

end Xv6.LockProgram
