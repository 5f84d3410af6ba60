import Xv6.Basic
import Xv6.Pipe

/-! No reader of a pipe sleeps while there is data, and no writer while there is room, unless a
writer is killed between two bytes. -/
namespace Xv6.Pipes

open Transition Monitor

variable {ι : Type}

def May (v : Traffic) : Chan → Prop
  | .nread => v.pipe.nread = v.pipe.nwrite ∧ v.pipe.writeopen = true
  | .nwrite => v.pipe.nwrite = v.pipe.nread + BitVec.ofNat 32 pipeSize ∧ v.pipe.readopen = true

def Call.writes : Call → Bool
  | .pipewrite _ => true
  | _ => false

def NoKillInWrite (s : Sys ι) : Event ι → Prop
  | .kill p => s.lock = some p → (s.call p).any Call.writes = false
  | _ => True

/-- The bytes a writer puts are owed a wakeup of `nread`; with some put, the writer is not killed
and the read end is open, so it leaves its loop through a wakeup. -/
def wakeups : Monitor.Spec Traffic Chan Block (Option UInt8) Copy Call where
  inv := fun _ => True
  cond := May
  entry
    | .writeLoop _ _, st, v, O, b => st = true ∧ b.isSome = true ∧ O ⊆ {.nread} ∧
        (O.Nonempty → b = some false ∧ v.pipe.readopen = true)
    | .readWait _, _, _, O, _ => O = ∅
    | .readLoop _ _, _, _, O, _ => O ⊆ {.nwrite}
  allowed := fun _ _ => True
  steady := Call.writes

variable {st : Bool} {v : Traffic} {O : Set Chan} {b : Option Bool} {n : ℤ} {i : ℕ}
  {out : List UInt8}

lemma sdiff_eq_empty {ch : Chan} (h : O ⊆ {ch}) : O \ {ch} = ∅ := Set.sdiff_eq_empty.mpr h

lemma broken_put {ch : UInt8} (hfull : v.pipe.full = false) :
    wakeups.broken v (put ch v) ⊆ {.nread} := by
  rintro (_ | _) ⟨hc, _⟩
  · rfl
  · simp [Pipe.full] at hc hfull
    exact absurd hc.1 hfull

lemma broken_advance (hempty : v.pipe.empty = false) :
    wakeups.broken v (advance v) ⊆ {.nwrite} := by
  rintro (_ | _) ⟨hc, _⟩
  · simp [Pipe.empty] at hc hempty
    exact absurd hc.1 hempty
  · rfl

lemma wakeups_writeEnd (hO : O ⊆ {.nread}) : wakeups.In st writeEnd v O b :=
  ⟨trivial, sdiff_eq_empty hO⟩

lemma wakeups_writeLoop (hst : st = true) (hb : b.isSome = true) (hO : O ⊆ {.nread})
    (howed : O.Nonempty → b = some false ∧ v.pipe.readopen = true) :
    wakeups.In st (writeLoop n i) v O b := by
  unfold writeLoop
  split_ifs with hi
  · -- an exit through `return -1` owes nothing
    have hexit : ¬O.Nonempty → wakeups.In st (.release .ret) v O b := by
      intro hne
      exact ⟨trivial, Set.not_nonempty_iff_eq_empty.mp hne⟩
    simp only [Monitor.Spec.In]
    split_ifs with hopen
    · refine hexit fun hne => ?_
      rw [(howed hne).2] at hopen
      cases hopen
    · refine ⟨fun hk => hexit fun hne => hk (howed hne).1, fun hk => ?_⟩
      have hb' : b = some false := by
        rcases b with _ | _ | _
        · cases hb
        · rfl
        · exact absurd rfl hk
      simp only [Monitor.Spec.In]
      split_ifs with hfull
      · refine ⟨trivial, sdiff_eq_empty hO, ?_, ?_⟩
        · exact ⟨by simpa [Pipe.full] using hfull, by simpa using hopen⟩
        · rintro v' b' hb' -
          exact ⟨hst, by rw [hb', hst], Set.empty_subset _, fun hne => absurd hne (by simp)⟩
      · rintro (_ | ch) -
        · exact wakeups_writeEnd hO
        · refine ⟨hst, hb, Set.union_subset hO (broken_put (by simpa using hfull)), fun _ => ?_⟩
          exact ⟨hb', by simpa [put] using hopen⟩
  · exact wakeups_writeEnd hO

lemma wakeups_readEnd (hO : O ⊆ {.nwrite}) : wakeups.In st (readEnd out) v O b := by
  refine ⟨trivial, ?_⟩
  rw [sdiff_eq_empty hO, Set.empty_union]
  refine Set.eq_empty_iff_forall_notMem.mpr ?_
  rintro (_ | _) ⟨hc, hn⟩ <;> exact hn hc

lemma wakeups_readWait : wakeups.In st (readWait n) v ∅ b := by
  unfold readWait
  simp only [Monitor.Spec.In]
  split_ifs with hw
  · refine ⟨fun _ => ⟨trivial, rfl⟩, fun _ => ⟨trivial, rfl, ?_, fun _ _ _ _ => rfl⟩⟩
    simpa [wakeups, May, Pipe.empty] using hw
  · exact Set.empty_subset _

lemma wakeups_readLoop (hO : O ⊆ {.nwrite}) : wakeups.In st (readLoop n out) v O b := by
  unfold readLoop
  split_ifs with hn
  · simp only [Monitor.Spec.In]
    split_ifs with hempty
    · exact wakeups_readEnd hO
    · have hO' : O ∪ wakeups.broken v (advance v) ⊆ {.nwrite} :=
        Set.union_subset hO (broken_advance (by simpa using hempty))
      rintro (_ | ch) -
      · exact wakeups_readEnd hO'
      · exact hO'
  · exact wakeups_readEnd hO

lemma broken_close (writable : Bool) : wakeups.broken v (closeEnd writable v) ⊆
    {if writable then .nread else .nwrite} := by
  rintro (_ | _) ⟨hc, hn⟩ <;> cases writable
  · exact absurd hc hn
  · rfl
  · rfl
  · exact absurd hc hn

lemma wakeups_verified : wakeups.Verified code where
  block n st v O b h := by
    cases n with
    | writeLoop n i => exact wakeups_writeLoop h.1 h.2.1 h.2.2.1 h.2.2.2
    | readWait n =>
      rw [show O = ∅ from h]
      exact wakeups_readWait
    | readLoop n out => exact wakeups_readLoop h
  start a := by
    cases a with
    | pipewrite n =>
      rintro v b hb -
      exact ⟨rfl, hb, Set.empty_subset _, fun hne => absurd hne (by simp)⟩
    | piperead n => exact fun _ _ _ _ => rfl
    | pipeclose writable =>
      rintro v b - -
      refine ⟨trivial, sdiff_eq_empty ?_⟩
      rw [Set.empty_union]
      exact broken_close writable

lemma guard_of_noKill {s : Sys ι} {e : Event ι} (hg : NoKillInWrite s e) :
    wakeups.Guard s e := by
  cases e with
  | kill p => exact hg
  | answer p x => exact fun _ _ _ => trivial
  | _ => trivial

variable [DecidableEq ι] {procs : List ι} {es : List (Event ι)} {s : Sys ι}
  {data : Fin pipeSize → UInt8}

/-- While `pi->lock` is free, readers sleep only when the pipe is empty and open for writing, and
writers only when it is full and open for reading. -/
theorem sleepers_have_reason (hall : ∀ q, q ∈ procs)
    (h : Run (Guarded (next code procs) NoKillInWrite)
      (Monitor.boot (pipealloc data)) es s) (hfree : s.lock = none) {p : ι} {ch : Chan}
    (hs : s.status p = .sleeping) (hch : s.chan p = some ch) : May s.data ch := by
  have hguard : Run (Guarded (next code procs) wakeups.Guard)
      (Monitor.boot (pipealloc data)) es s :=
    h.mono fun _ _ _ hst => ⟨guard_of_noKill hst.1, hst.2⟩
  obtain ⟨O, hgood⟩ := wakeups_verified.run hall (v := pipealloc data) trivial hguard
  exact hgood.cond_of_sleeping hfree hs hch

instance (s : Sys (Fin 2)) (e : Event (Fin 2)) : Decidable (NoKillInWrite s e) :=
  match e with
  | .kill p => inferInstanceAs (Decidable (s.lock = some p → (s.call p).any Call.writes = false))
  | .call _ _ | .run _ | .answer _ _ | .dispatch _ | .fresh _ => isTrue trivial

attribute [local instance] neZero_two in
def readerSleeps : List (Event (Fin 2)) := .call 0 (.piperead 1) :: steps 0 8

theorem sleepers_have_reason_reader : ∃ s : Sys (Fin 2),
    Run (Guarded (next code (List.finRange 2)) NoKillInWrite)
      (Monitor.boot (pipealloc fun _ => 0)) readerSleeps s ∧
    (s.lock = none ∧ s.status 0 = .sleeping ∧ s.chan 0 = some .nread) ∧ May s.data .nread := by
  obtain ⟨s, hrun, hs⟩ := exists_run_of_replay
    (f := next code (List.finRange 2)) (G := NoKillInWrite)
    (P := fun s : Sys (Fin 2) => s.lock = none ∧ s.status 0 = .sleeping ∧
      s.chan 0 = some .nread)
    (s := Monitor.boot (pipealloc fun _ => 0)) (l := readerSleeps) (by decide +kernel)
  obtain ⟨hfree, hsleep, hch⟩ := of_decide_eq_true hs
  exact ⟨s, hrun, ⟨hfree, hsleep, hch⟩,
    sleepers_have_reason List.mem_finRange hrun hfree hsleep hch⟩

attribute [local instance] neZero_two in
def writerKilled : List (Event (Fin 2)) :=
  readerSleeps ++ .call 1 (.pipewrite 2) :: steps 1 5 ++ [.answer 1 (some 7), .run 1, .kill 1] ++
    steps 1 4

theorem reader_sleeps_beside_data : ∃ s : Sys (Fin 2),
    Run (fun s e t => next code (List.finRange 2) s e = some t)
      (Monitor.boot (pipealloc fun _ => 0)) writerKilled s ∧
    s.lock = none ∧ s.status 0 = .sleeping ∧ s.chan 0 = some .nread ∧
    s.data.pipe.nread = 0 ∧ s.data.pipe.nwrite = 1 := by
  obtain ⟨s, hrun, hs⟩ := exists_run_of_replay
    (f := next code (List.finRange 2)) (G := fun _ _ => True)
    (P := fun s : Sys (Fin 2) => s.lock = none ∧ s.status 0 = .sleeping ∧
      s.chan 0 = some .nread ∧ s.data.pipe.nread = 0 ∧ s.data.pipe.nwrite = 1)
    (s := Monitor.boot (pipealloc fun _ => 0)) (l := writerKilled) (by decide +kernel)
  exact ⟨s, hrun.mono fun _ _ _ h => h.2, of_decide_eq_true hs⟩

end Xv6.Pipes
