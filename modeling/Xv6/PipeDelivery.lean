import Xv6.Basic
import Xv6.Pipe

/-! What a pipe takes from its writers it gives to its readers, in order, unless `copyout` fails:
the byte has then left the pipe already. -/
namespace Xv6.Pipes

open Transition Monitor

def Pipe.bytes (pi : Pipe) : List UInt8 := Ring.contents pi.data pi.nread pi.nwrite

/-- The bytes that have left the pipe, the buffer, and what the writers put in. -/
structure Law (v : Traffic) (out : List UInt8) : Prop where
  room : Ring.count v.pipe.nread v.pipe.nwrite ≤ pipeSize
  order : v.reads.flatten ++ out ++ v.pipe.bytes = v.accepted

variable {v : Traffic} {out : List UInt8}

lemma Law.put (h : Law v []) (hfull : v.pipe.full = false) (ch : UInt8) :
    Law (put ch v) [] := by
  have hne : Ring.count v.pipe.nread v.pipe.nwrite ≠ pipeSize := by
    rw [ne_eq, Ring.count_eq (by decide)]
    simpa [Pipe.full] using hfull
  have hlt : Ring.count v.pipe.nread v.pipe.nwrite < pipeSize := lt_of_le_of_ne h.room hne
  have hsize : pipeSize < 2 ^ 32 := by decide
  refine ⟨?_, ?_⟩
  · change Ring.count v.pipe.nread (v.pipe.nwrite + 1) ≤ pipeSize
    rw [Ring.count_succ (by omega)]
    exact hlt
  · have hbytes : (Pipes.put ch v).pipe.bytes = v.pipe.bytes ++ [ch] :=
      Ring.contents_put (by decide) hsize hlt ch
    change v.reads.flatten ++ [] ++ (Pipes.put ch v).pipe.bytes = v.accepted ++ [ch]
    rw [hbytes, ← h.order]
    simp

lemma Law.advance (h : Law v out) (hempty : v.pipe.empty = false) :
    Law (advance v) (out ++ [v.pipe.front]) := by
  have hne : v.pipe.nread ≠ v.pipe.nwrite := by simpa [Pipe.empty] using hempty
  refine ⟨?_, ?_⟩
  · change Ring.count (v.pipe.nread + 1) v.pipe.nwrite ≤ pipeSize
    have hpred := Ring.count_pred hne
    have hroom := h.room
    omega
  · have hbytes : v.pipe.bytes = v.pipe.front :: (Pipes.advance v).pipe.bytes :=
      Ring.contents_take hne
    change v.reads.flatten ++ (out ++ [v.pipe.front]) ++ (Pipes.advance v).pipe.bytes = v.accepted
    rw [← h.order, hbytes]
    simp

lemma Law.report (h : Law v out) : Law (report out v) [] := by
  refine ⟨h.room, ?_⟩
  change (v.reads ++ [out]).flatten ++ [] ++ v.pipe.bytes = v.accepted
  rw [← h.order]
  simp

lemma Law.closeEnd (h : Law v []) (writable : Bool) : Law (closeEnd writable v) [] := by
  cases writable <;> exact ⟨h.room, h.order⟩

/-- The data law at every point of the code; nobody waits for a wakeup here. -/
def delivery : Monitor.Spec Traffic Chan Block (Option UInt8) Copy Call where
  inv := fun v => Law v []
  cond := fun _ _ => True
  entry
    | .writeLoop _ _, _, v, O, _ | .readWait _, _, v, O, _ => Law v [] ∧ O = ∅
    | .readLoop _ out, _, v, O, _ => Law v out ∧ O = ∅
  allowed
    | .copyin, _ => True
    | .copyout, x => x ≠ none
  steady := fun _ => false

variable {st : Bool} {b : Option Bool} {n : ℤ} {i : ℕ}

@[simp] lemma delivery_broken (v v' : Traffic) : delivery.broken v v' = ∅ := by
  simp [Monitor.Spec.broken, delivery]

lemma delivery_writeEnd (h : Law v []) : delivery.In st writeEnd v ∅ b :=
  ⟨h, Set.empty_sdiff _⟩

lemma delivery_readEnd (h : Law v out) : delivery.In st (readEnd out) v ∅ b := by
  refine ⟨h.report, ?_⟩
  simp

lemma delivery_writeLoop (h : Law v []) : delivery.In st (writeLoop n i) v ∅ b := by
  unfold writeLoop
  split_ifs with hi
  · simp only [Monitor.Spec.In]
    split_ifs with hopen
    · exact ⟨h, rfl⟩
    · refine ⟨fun _ => ⟨h, rfl⟩, fun _ => ?_⟩
      simp only [Monitor.Spec.In]
      split_ifs with hfull
      · exact ⟨h, Set.empty_sdiff _, trivial, fun _ _ _ hv => ⟨hv, rfl⟩⟩
      · rintro (_ | ch) -
        · exact delivery_writeEnd h
        · exact ⟨h.put (by simpa using hfull) ch, by simp⟩
  · exact delivery_writeEnd h

lemma delivery_readWait (h : Law v []) : delivery.In st (readWait n) v ∅ b := by
  unfold readWait
  simp only [Monitor.Spec.In]
  split_ifs with hw
  · exact ⟨fun _ => ⟨h, rfl⟩, fun _ => ⟨h, rfl, trivial, fun _ _ _ hv => ⟨hv, rfl⟩⟩⟩
  · exact ⟨h, rfl⟩

lemma delivery_readLoop (h : Law v out) : delivery.In st (readLoop n out) v ∅ b := by
  unfold readLoop
  split_ifs with hn
  · simp only [Monitor.Spec.In]
    split_ifs with hempty
    · exact delivery_readEnd h
    · rintro (_ | ch) hx
      · exact absurd rfl hx
      · exact ⟨h.advance (by simpa using hempty), by simp⟩
  · exact delivery_readEnd h

lemma delivery_verified : delivery.Verified code where
  block n st v O b h := by
    cases n with
    | writeLoop n i =>
      obtain ⟨h, rfl⟩ := h
      exact delivery_writeLoop h
    | readWait n =>
      obtain ⟨h, rfl⟩ := h
      exact delivery_readWait h
    | readLoop n out =>
      obtain ⟨h, rfl⟩ := h
      exact delivery_readLoop h
  start a := by
    cases a with
    | pipewrite n => exact fun _ _ _ hv => ⟨hv, rfl⟩
    | piperead n => exact fun _ _ _ hv => ⟨hv, rfl⟩
    | pipeclose writable =>
      rintro v b - hv
      exact ⟨hv.closeEnd writable, by simp⟩

variable {ι : Type}

def CopyoutWorks (s : Sys ι) : Event ι → Prop
  | .answer p x => (s.pc p).asks = some .copyout → x ≠ none
  | _ => True

lemma guard_of_copyout {s : Sys ι} {e : Event ι} (hg : CopyoutWorks s e) :
    delivery.Guard s e := by
  cases e with
  | answer p x =>
    intro y k hp
    cases y with
    | copyin => trivial
    | copyout => exact hg (by rw [hp]; rfl)
  | kill p =>
    intro _
    simp [Monitor.Spec.steadyAt, delivery]
  | _ => trivial

lemma law_pipealloc (data : Fin pipeSize → UInt8) : Law (pipealloc data) [] := by
  refine ⟨?_, ?_⟩
  · simp [pipealloc, Ring.count]
  · simp [pipealloc, Pipe.bytes, Ring.contents_empty]

/-- Whenever `pi->lock` is free, what the reads have returned and what is in the buffer is what
the writes have put in. -/
theorem pipe_delivers [DecidableEq ι] {procs : List ι} {es : List (Event ι)} {s : Sys ι}
    {data : Fin pipeSize → UInt8} (hall : ∀ q, q ∈ procs)
    (h : Run (Guarded (next code procs) CopyoutWorks)
      (Monitor.boot (pipealloc data)) es s) (hfree : s.lock = none) :
    s.data.reads.flatten ++ s.data.pipe.bytes = s.data.accepted := by
  have hguard : Run (Guarded (next code procs) delivery.Guard)
      (Monitor.boot (pipealloc data)) es s :=
    h.mono fun _ _ _ hst => ⟨guard_of_copyout hst.1, hst.2⟩
  obtain ⟨O, hgood⟩ := delivery_verified.run hall (law_pipealloc data) hguard
  have hlaw := (hgood.free hfree).1.order
  simpa using hlaw

instance (s : Sys (Fin 2)) (e : Event (Fin 2)) : Decidable (CopyoutWorks s e) :=
  match e with
  | .answer p x => inferInstanceAs (Decidable ((s.pc p).asks = some .copyout → x ≠ none))
  | .call _ _ | .run _ | .dispatch _ | .kill _ | .fresh _ => isTrue trivial

attribute [local instance] neZero_two in
/-- Process 0 writes the bytes 7 and 8, process 1 wants to read one byte and is at `copyout`. -/
def writeThenRead : List (Event (Fin 2)) :=
  .call 0 (.pipewrite 2) :: steps 0 5 ++ .answer 0 (some 7) :: steps 0 5 ++
    .answer 0 (some 8) :: steps 0 7 ++ .call 1 (.piperead 1) :: steps 1 6

attribute [local instance] neZero_two in
def readWorks : List (Event (Fin 2)) := writeThenRead ++ .answer 1 (some 7) :: steps 1 7

theorem pipe_delivers_two : ∃ s : Sys (Fin 2),
    Run (Guarded (next code (List.finRange 2)) CopyoutWorks)
      (Monitor.boot (pipealloc fun _ => 0)) readWorks s ∧
    (s.lock = none ∧ s.data.reads = [[7]] ∧ s.data.accepted = [7, 8]) ∧
    s.data.reads.flatten ++ s.data.pipe.bytes = s.data.accepted := by
  obtain ⟨s, hrun, hs⟩ := exists_run_of_replay
    (f := next code (List.finRange 2)) (G := CopyoutWorks)
    (P := fun s : Sys (Fin 2) => s.lock = none ∧ s.data.reads = [[7]] ∧
      s.data.accepted = [7, 8])
    (s := Monitor.boot (pipealloc fun _ => 0)) (l := readWorks) (by decide +kernel)
  obtain ⟨hfree, hreads, hacc⟩ := of_decide_eq_true hs
  exact ⟨s, hrun, ⟨hfree, hreads, hacc⟩, pipe_delivers List.mem_finRange hrun hfree⟩

attribute [local instance] neZero_two in
def readFails : List (Event (Fin 2)) := writeThenRead ++ .answer 1 none :: steps 1 6

theorem failed_copyout_loses_byte : ∃ s : Sys (Fin 2),
    Run (fun s e t => next code (List.finRange 2) s e = some t)
      (Monitor.boot (pipealloc fun _ => 0)) readFails s ∧
    s.lock = none ∧ s.data.reads = [[]] ∧ s.data.pipe.bytes = [8] ∧
    s.data.accepted = [7, 8] := by
  obtain ⟨s, hrun, hs⟩ := exists_run_of_replay
    (f := next code (List.finRange 2)) (G := fun _ _ => True)
    (P := fun s : Sys (Fin 2) => s.lock = none ∧ s.data.reads = [[]] ∧
      s.data.pipe.bytes = [8] ∧ s.data.accepted = [7, 8])
    (s := Monitor.boot (pipealloc fun _ => 0)) (l := readFails) (by decide +kernel)
  exact ⟨s, hrun.mono fun _ _ _ h => h.2, of_decide_eq_true hs⟩

end Xv6.Pipes
