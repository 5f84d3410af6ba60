import Xv6.Basic
import Xv6.MonitorHistory
import Xv6.PipeDelivery

/-! The ring buffer of a pipe is a bounded queue, however often its counters wrap around. -/
namespace Xv6.Pipes

open Transition Monitor

def byteStep (pi pi' : Pipe) : Option (Ring.Op UInt8) :=
  if pi'.nwrite ≠ pi.nwrite then some (.put (pi'.data (Ring.slot pipeSize pi.nwrite)))
  else if pi'.nread ≠ pi.nread then some (.take pi.front)
  else none

def byteSteps {ι : Type} (xs : List (Sys ι × Event ι × Sys ι)) : List (Ring.Op UInt8) :=
  xs.filterMap fun x => byteStep x.1.data.pipe x.2.2.data.pipe

def Room (v : Traffic) : Prop := Ring.count v.pipe.nread v.pipe.nwrite ≤ pipeSize

/-- A byte goes in only when the pipe is not full and out only when it is not empty. -/
def ring : Monitor.Account Traffic Block (Option UInt8) Call Unit Unit where
  start := fun _ => ()
  note := fun _ _ _ x => x
  note_self := fun _ _ _ => rfl
  inv := fun v _ => Room v
  entry := fun _ _ v _ => Room v
  done := fun _ _ => True
  answer := fun _ => True
  step := fun v v' =>
    (v.pipe.full = false ∧ ∃ ch, v' = put ch v) ∨ (v.pipe.empty = false ∧ v' = advance v) ∨
      byteStep v.pipe v'.pipe = none ∧ v'.pipe.bytes = v.pipe.bytes

section
variable {v v' : Traffic} {n : ℤ} {i : ℕ} {out : List UInt8} {a : Call} {x : Unit × Unit}

lemma count_lt_of_not_full (hroom : Ring.count v.pipe.nread v.pipe.nwrite ≤ pipeSize)
    (hfull : v.pipe.full = false) : Ring.count v.pipe.nread v.pipe.nwrite < pipeSize := by
  refine lt_of_le_of_ne hroom ?_
  rw [ne_eq, Ring.count_eq (by decide)]
  simpa [Pipe.full] using hfull

theorem room_pipealloc (data : Fin pipeSize → UInt8) : Room (pipealloc data) := by
  simp [Room, pipealloc, Ring.count]

lemma room_put (hroom : Room v) (hfull : v.pipe.full = false) (ch : UInt8) :
    Room (put ch v) := by
  have hlt := count_lt_of_not_full hroom hfull
  have hsize : pipeSize < 2 ^ 32 := by decide
  change Ring.count v.pipe.nread (v.pipe.nwrite + 1) ≤ pipeSize
  rw [Ring.count_succ (by omega)]
  exact hlt

lemma room_advance (hroom : Room v) (hempty : v.pipe.empty = false) :
    Room (advance v) := by
  have hne : v.pipe.nread ≠ v.pipe.nwrite := by simpa [Pipe.empty] using hempty
  have hpred := Ring.count_pred hne
  change Ring.count v.pipe.nread v.pipe.nwrite ≤ pipeSize at hroom
  change Ring.count (v.pipe.nread + 1) v.pipe.nwrite ≤ pipeSize
  omega

lemma ring_report (v : Traffic) (out : List UInt8) : ring.step v (report out v) :=
  .inr (.inr ⟨by simp [byteStep, report], rfl⟩)

lemma ring_closeEnd (v : Traffic) (writable : Bool) : ring.step v (closeEnd writable v) := by
  refine .inr (.inr ?_)
  cases writable <;> exact ⟨by simp [byteStep, closeEnd], rfl⟩

lemma ring_readEnd (h : Room v) : ring.In a (readEnd out) v x :=
  ⟨ring_report v out, h, trivial⟩

lemma ring_writeLoop (h : Room v) : ring.In a (writeLoop n i) v x := by
  unfold writeLoop
  split_ifs with hi
  · simp only [Monitor.Account.In]
    split_ifs with hopen
    · exact ⟨h, trivial⟩
    · refine ⟨⟨h, trivial⟩, ?_⟩
      simp only [Monitor.Account.In]
      split_ifs with hfull
      · exact ⟨h, fun _ _ hv => hv⟩
      · have hroom : v.pipe.full = false := by simpa using hfull
        rintro (_ | ch) _
        · exact ⟨h, trivial⟩
        · exact ⟨.inl ⟨hroom, ch, rfl⟩, room_put h hroom ch⟩
  · exact ⟨h, trivial⟩

lemma ring_readWait (h : Room v) : ring.In a (readWait n) v x := by
  unfold readWait
  simp only [Monitor.Account.In]
  split_ifs with hw
  · exact ⟨⟨h, trivial⟩, h, fun _ _ hv => hv⟩
  · exact h

lemma ring_readLoop (h : Room v) : ring.In a (readLoop n out) v x := by
  unfold readLoop
  split_ifs with hn
  · simp only [Monitor.Account.In]
    split_ifs with hempty
    · exact ring_readEnd h
    · have hsome : v.pipe.empty = false := by simpa using hempty
      refine ⟨.inr (.inl ⟨hsome, rfl⟩), ?_⟩
      rintro (_ | ch) _
      · exact ring_readEnd (room_advance h hsome)
      · exact room_advance h hsome
  · exact ring_readEnd h

theorem ring_verified : ring.Verified code where
  block n a v x h := by
    cases n with
    | writeLoop n i => exact ring_writeLoop h
    | readWait n => exact ring_readWait h
    | readLoop n out => exact ring_readLoop h
  start a := by
    cases a with
    | pipewrite n => exact fun _ _ hv => hv
    | piperead n => exact fun _ _ hv => hv
    | pipeclose writable =>
      intro v _ hv
      refine ⟨ring_closeEnd v writable, ?_, trivial⟩
      cases writable <;> exact hv

lemma counters_of_byteStep {pi pi' : Pipe} (h : byteStep pi pi' = none) :
    pi'.nwrite = pi.nwrite ∧ pi'.nread = pi.nread := by
  unfold byteStep at h
  split_ifs at h with hw hr
  exact ⟨not_not.mp hw, not_not.mp hr⟩

lemma room_change (hroom : Room v) (h : ring.Change v v') : Room v' := by
  rcases h with rfl | ⟨hfull, ch, rfl⟩ | ⟨hempty, rfl⟩ | ⟨hnone, _⟩
  · exact hroom
  · exact room_put hroom hfull ch
  · exact room_advance hroom hempty
  · obtain ⟨hw, hr⟩ := counters_of_byteStep hnone
    change Ring.count v'.pipe.nread v'.pipe.nwrite ≤ pipeSize
    rw [hw, hr]
    exact hroom

lemma serve_byteStep (hroom : Room v) (h : ring.Change v v') :
    Run (fun q o q' => Ring.serve pipeSize q o = some q') v.pipe.bytes
      (byteStep v.pipe v'.pipe).toList v'.pipe.bytes := by
  rcases h with rfl | ⟨hfull, ch, rfl⟩ | ⟨hempty, rfl⟩ | ⟨hnone, hbytes⟩
  · have hnone : byteStep v'.pipe v'.pipe = none := by simp [byteStep]
    rw [hnone]
    exact .nil _
  · have hlt := count_lt_of_not_full hroom hfull
    have hbytes : (put ch v).pipe.bytes = v.pipe.bytes ++ [ch] :=
      Ring.contents_put (by decide) (by decide) hlt ch
    have hlen : v.pipe.bytes.length < pipeSize := by
      rw [Pipe.bytes, Ring.length_contents]
      exact hlt
    have hput : byteStep v.pipe (put ch v).pipe = some (.put ch) := by
      simp [byteStep, put]
    rw [hput, hbytes]
    exact .single (by simp [Ring.serve, hlen])
  · have hne : v.pipe.nread ≠ v.pipe.nwrite := by simpa [Pipe.empty] using hempty
    have hbytes : v.pipe.bytes = v.pipe.front :: (advance v).pipe.bytes := Ring.contents_take hne
    have htake : byteStep v.pipe (advance v).pipe = some (.take v.pipe.front) := by
      simp [byteStep, advance]
    rw [htake]
    refine .single ?_
    rw [hbytes]
    simp [Ring.serve]
  · rw [hnone, hbytes]
    exact .nil _

end

section
variable {ι : Type} [DecidableEq ι] {procs : List ι} {s : Sys ι}
  {xs : List (Sys ι × Event ι × Sys ι)} {data : Fin pipeSize → UInt8}

lemma ring_run (h : Run (Record fun s e t =>
      next code procs s e = some t) (Monitor.boot (pipealloc data)) xs s) :
    (∃ g, ring.Kept g s) ∧ Room s.data ∧
      Run (fun q o q' => Ring.serve pipeSize q o = some q') [] (byteSteps xs)
        s.data.pipe.bytes := by
  induction h with
  | nil =>
    have hroom := room_pipealloc data
    have hbytes : (pipealloc data).pipe.bytes = [] := Ring.contents_empty ..
    refine ⟨⟨⟨fun _ => (), ()⟩, Monitor.Account.kept_boot hroom⟩, hroom, ?_⟩
    change Run _ [] [] (pipealloc data).pipe.bytes
    rw [hbytes]
    exact .nil _
  | @snoc t u xs x _ hs ih =>
    obtain ⟨hkept, hroom, hserve⟩ := ih
    obtain ⟨hfrom, hto, hnext⟩ := hs
    obtain ⟨hkept', hchange⟩ := ring_verified.step (fun _ => trivial) hkept hnext
    have hsteps : byteSteps (xs ++ [x]) =
        byteSteps xs ++ (byteStep t.data.pipe u.data.pipe).toList := by
      subst hfrom hto
      cases hb : byteStep x.1.data.pipe x.2.2.data.pipe <;> simp [byteSteps, hb]
    refine ⟨hkept', room_change hroom hchange, ?_⟩
    rw [hsteps]
    exact hserve.trans (serve_byteStep hroom hchange)

/-- In every state of every run, the bytes between the counters are what a queue of size `PIPESIZE`
holds after the same bytes have gone in and out, and the tests of the code are those of the
queue. -/
theorem pipe_refines_queue (h : Run (Record fun s e t =>
      next code procs s e = some t) (Monitor.boot (pipealloc data)) xs s) :
    ∃ q, Run (fun q o q' => Ring.serve pipeSize q o = some q') [] (byteSteps xs) q ∧
      s.data.pipe.bytes = q ∧
      (s.data.pipe.nwrite - s.data.pipe.nread).toNat = q.length ∧ q.length ≤ pipeSize ∧
      (s.data.pipe.full = true ↔ q.length = pipeSize) ∧ (s.data.pipe.empty = true ↔ q = []) := by
  obtain ⟨_, hroom, hserve⟩ := ring_run h
  have hlen : s.data.pipe.bytes.length = Ring.count s.data.pipe.nread s.data.pipe.nwrite :=
    Ring.length_contents ..
  refine ⟨_, hserve, rfl, hlen.symm, hlen ▸ hroom, ?_, ?_⟩
  · rw [hlen, Ring.count_eq (by decide)]
    simp [Pipe.full]
  · rw [← List.length_eq_zero_iff, hlen, Ring.count_eq_zero]
    simp [Pipe.empty]

end

attribute [local instance] neZero_two in
def passByte : List (Event (Fin 2)) :=
  .call 0 (.pipewrite 1) :: steps 0 5 ++ .answer 0 (some 7) :: steps 0 7 ++
    .call 1 (.piperead 1) :: steps 1 6

theorem pipe_refines_queue_byte : ∃ (xs : List (Sys (Fin 2) × Event (Fin 2) × Sys (Fin 2)))
    (s : Sys (Fin 2)), Run (Record fun s e t =>
      next code (List.finRange 2) s e = some t)
      (Monitor.boot (pipealloc fun _ => 0)) xs s ∧
    byteSteps xs = [.put 7, .take 7] ∧
    ∃ q, Run (fun q o q' => Ring.serve pipeSize q o = some q') [] (byteSteps xs) q ∧
      s.data.pipe.bytes = q ∧
      (s.data.pipe.nwrite - s.data.pipe.nread).toNat = q.length ∧ q.length ≤ pipeSize ∧
      (s.data.pipe.full = true ↔ q.length = pipeSize) ∧ (s.data.pipe.empty = true ↔ q = []) := by
  have hsome : (transitions (next code (List.finRange 2))
      (Monitor.boot (pipealloc fun _ => 0)) passByte).any
        (fun xs => byteSteps xs = [.put 7, .take 7]) = true := by
    decide +kernel
  obtain ⟨xs, hxs, hbytes⟩ := (Option.any_eq_true _ _).mp hsome
  obtain ⟨s, hrun⟩ := transitions_run hxs
  exact ⟨xs, s, hrun, of_decide_eq_true hbytes, pipe_refines_queue hrun⟩

end Xv6.Pipes
