import Xv6.CopyUser
import Xv6.ExecProgram
import Xv6.ProcLocks

/-! `getptable`: the live processes, one record each, in the memory of the caller. -/
namespace Xv6.Process

open Program Vm List

def stateCode : ProcState → ℕ
  | .unused => 0
  | .used => 1
  | .sleeping => 2
  | .runnable => 3
  | .running => 4
  | .zombie => 5

def bytes32 (x : ℤ) : List Byte := (range 4).map fun k => BitVec.ofInt 8 (x / 256 ^ k)

def infoName (name : List Byte) : List Byte :=
  ((name.takeWhile (· ≠ 0)).take 16 ++ replicate 16 0).take 15 ++ [0]

def procInfoSize : ℕ := 40

/-- The `struct proc_info` of a slot as it lies in memory; between `name` and `sz` are four bytes of
padding, which keep what was on the stack. -/
def procInfo (pad : BitVec 32) (k : Kern) (p : Fin nproc) : List Byte :=
  bytes32 (k.proc p).pid ++ (bytes32 ((k.proc p).parent.elim 0 fun pp => (k.proc pp).pid) ++
    (bytes32 (stateCode (k.proc p).state) ++ (infoName (k.proc p).name ++
      (bytes32 pad.toInt ++ bytes64 (k.proc p).sz))))

/-- The loop of `getptable` over the slots that are left, with `count` records written. -/
def getptableFrom (nproc : ℤ) (buffer pagetable : ℕ) (pad : BitVec 32) :
    List (Fin Process.nproc) → ℕ → L Bool
  | [], _ => return true
  | p :: ps, count => do
      acquire p
      let s ← get
      if (s.kern.proc p).state ≠ .unused then
        if nproc ≤ count then
          release p
          return true
        else if ← kernel (mem (copyout pagetable ((buffer + count * procInfoSize) % 2 ^ 64)
            (procInfo pad s.kern p))) then
          release p
          getptableFrom nproc buffer pagetable pad ps (count + 1)
        else
          release p
          return false
      else
        release p
        getptableFrom nproc buffer pagetable pad ps count

def getptable (curproc : Fin nproc) (nproc : ℤ) (buffer : ℕ) (pad : BitVec 32) : L Bool := do
  if nproc < 1 ∨ buffer = 0 then return false
  else
    let s ← get
    let pagetable ← kernel (deref (s.kern.proc curproc).pagetable)
    getptableFrom nproc buffer pagetable pad (finRange Process.nproc) 0

def Kern.live (k : Kern) (ps : List (Fin nproc)) : List (Fin nproc) :=
  ps.filter fun p => (k.proc p).state ≠ .unused

def records (pad : BitVec 32) (k : Kern) (ps : List (Fin nproc)) (n : ℕ) : List Byte :=
  ((k.live ps).take n).flatMap (procInfo pad k)

structure Describes (r : List Byte) (k : Kern) (p : Fin nproc) : Prop where
  length : r.length = procInfoSize
  pid : (le r 0 4 : ℤ) = (k.proc p).pid % 2 ^ 32
  ppid : (le r 4 4 : ℤ) = ((k.proc p).parent.elim 0 fun pp => (k.proc pp).pid) % 2 ^ 32
  state : le r 8 4 = stateCode (k.proc p).state
  nul : (0 : Byte) ∈ (r.drop 12).take 16
  name : ((r.drop 12).take 16).takeWhile (· ≠ 0) = ((k.proc p).name.takeWhile (· ≠ 0)).take 15
  sz : le r 32 8 = (k.proc p).sz % 2 ^ 64

section record
variable {a b : List Byte} {off n : ℕ}

lemma le_append_left (h : off + n ≤ a.length) : le (a ++ b) off n = le a off n := by
  unfold le
  rw [drop_append_of_le_length (by omega), take_append_of_le_length (by
    rw [length_drop]
    omega)]

lemma le_append_right (off : ℕ) (h : a.length = off) (i : ℕ) :
    le (a ++ b) (off + i) n = le b i n := by
  unfold le
  rw [← h, ← drop_drop, drop_left]

lemma le_bytes32 (x : ℤ) : (le (bytes32 x) 0 4 : ℤ) = x % 2 ^ 32 := by
  have hbyte : ∀ y : ℤ, ((BitVec.ofInt 8 y).toNat : ℤ) = y % 256 := fun y => by
    rw [BitVec.toNat_ofInt]
    omega
  simp only [le, bytes32, drop_zero, range_succ, range_zero, nil_append,
    cons_append, map_cons, map_nil, take_succ_cons, take_zero,
    foldr_cons, foldr_nil]
  push_cast
  rw [hbyte, hbyte, hbyte, hbyte]
  omega

@[simp] lemma length_bytes32 (x : ℤ) : (bytes32 x).length = 4 := by simp [bytes32]

@[simp] lemma length_bytes64 (x : ℕ) : (bytes64 x).length = 8 := by simp [bytes64]

@[simp] lemma length_infoName (name : List Byte) : (infoName name).length = 16 := by
  simp [infoName]

lemma length_procInfo (pad : BitVec 32) (k : Kern) (p : Fin nproc) :
    (procInfo pad k p).length = procInfoSize := by
  simp [procInfo, procInfoSize]

lemma takeWhile_infoName (name : List Byte) :
    (infoName name).takeWhile (· ≠ 0) = (name.takeWhile (· ≠ 0)).take 15 := by
  have hne : ∀ x ∈ name.takeWhile (· ≠ 0), x ≠ 0 := fun x hx => by
    simpa using mem_takeWhile_imp hx
  unfold infoName
  generalize name.takeWhile (· ≠ 0) = w at hne ⊢
  obtain ⟨z, hz⟩ : ∃ z, (w.take 16 ++ replicate 16 0).take 15 ++ [0] =
      w.take 15 ++ replicate (z + 1) (0 : Byte) := by
    refine ⟨15 - w.length, ?_⟩
    rcases le_total 15 w.length with h | h
    · rw [take_append_of_le_length (by simp; omega), take_take, Nat.sub_eq_zero_of_le h]
      rfl
    · rw [take_of_length_le (i := 16) (by omega), take_append, take_of_length_le h,
        take_replicate, append_assoc, ← replicate_succ', Nat.min_eq_left (by omega)]
  rw [hz, takeWhile_append_of_pos fun x hx => decide_eq_true (hne x (mem_of_mem_take hx)),
    replicate_succ, takeWhile_cons_of_neg (by simp), append_nil]

lemma describes_procInfo (pad : BitVec 32) (k : Kern) (p : Fin nproc) :
    Describes (procInfo pad k p) k p := by
  have hname : ((procInfo pad k p).drop 12).take 16 = infoName (k.proc p).name := by
    unfold procInfo
    rw [← append_assoc, ← append_assoc, drop_left' (by simp),
      take_left' (by simp)]
  refine ⟨length_procInfo pad k p, ?_, ?_, ?_, ?_, ?_, ?_⟩
  · rw [procInfo, le_append_left (by simp), le_bytes32]
  · rw [procInfo, le_append_right 4 (length_bytes32 _) 0, le_append_left (by simp), le_bytes32]
  · have h := le_bytes32 (stateCode (k.proc p).state)
    rw [procInfo, le_append_right 4 (length_bytes32 _) 4,
      le_append_right 4 (length_bytes32 _) 0, le_append_left (by simp)]
    have hlt : stateCode (k.proc p).state < 6 := by
      cases (k.proc p).state <;> decide
    omega
  · rw [hname]
    simp [infoName]
  · rw [hname, takeWhile_infoName]
  · rw [procInfo, le_append_right 4 (length_bytes32 _) 28,
      le_append_right 4 (length_bytes32 _) 24,
      le_append_right 4 (length_bytes32 _) 20,
      le_append_right 16 (length_infoName _) 4,
      le_append_right 4 (length_bytes32 _) 0, le_bytes64]

end record

section loop
variable {k : Kern} {p : Fin nproc} {ps : List (Fin nproc)} {n : ℕ} {pad : BitVec 32}

lemma records_skip (h : (k.proc p).state = .unused) :
    records pad k (p :: ps) n = records pad k ps n := by
  unfold records Kern.live
  rw [filter_cons_of_neg (by simpa using h)]

lemma records_nil : records pad k [] n = [] := by
  unfold records Kern.live
  rw [filter_nil, take_nil, flatMap_nil]

lemma records_zero : records pad k ps 0 = [] := rfl

lemma records_take (h : (k.proc p).state ≠ .unused) :
    records pad k (p :: ps) (n + 1) = procInfo pad k p ++ records pad k ps n := by
  unfold records Kern.live
  rw [filter_cons_of_pos (by simpa using h), take_succ_cons, flatMap_cons]

lemma length_records : (records pad k ps n).length = min n (k.live ps).length * procInfoSize := by
  unfold records
  rw [length_flatMap, map_congr_left fun p _ => length_procInfo pad k p, map_const',
    sum_replicate, length_take]
  rfl

end loop

/-- All of `src` has been stored from `va` on, or a part of it that ends before a byte that the user
may not write. -/
def WrittenOut (m : Mach) (f : ℕ → Word) (va : ℕ) (src : List Byte) (ok : Bool) (m' : Mach) : Prop :=
  ∃ k ≤ src.length, Stored m f va k src m' ∧ (ok = true → k = src.length) ∧
    (ok = false → k < src.length ∧ ¬ Writable f (va + k))

section spec
variable [Image] {m m' m'' : Mach} {root n tf va : ℕ} {f : ℕ → Word} {X : Multiset ℕ}
  {src src' : List Byte} {ok : Bool}

omit [Image] in
lemma Stored.congr {k : ℕ} (h : Stored m f va k src m')
    (hsrc : ∀ i < k, src.getD i 0 = src'.getD i 0) : Stored m f va k src' m' :=
  ⟨h.writable, fun i hi => (h.stored i hi).trans (hsrc i hi), h.frame, h.freelist⟩

omit [Image] in
lemma WrittenOut.nil : WrittenOut m f va [] true m :=
  ⟨0, le_rfl, Stored.nil m f va [], fun _ => rfl, fun h => absurd h.symm Bool.false_ne_true⟩

lemma WrittenOut.cons (hs : Space m root n tf f X) (hd : X + frames f 0 n ≤ ram)
    (h : Stored m f va src.length src m') (h' : WrittenOut m' f (va + src.length) src' ok m'') :
    WrittenOut m f va (src ++ src') ok m'' := by
  obtain ⟨k, hk, hst, htrue, hfalse⟩ := h'
  have hfirst : Stored m f va src.length (src ++ src') m' :=
    Stored.congr h fun i hi => (getD_append _ _ _ _ hi).symm
  have hrest : Stored m' f (va + src.length) k ((src ++ src').drop src.length) m'' := by
    rwa [drop_left]
  refine ⟨src.length + k, by simpa using hk, hfirst.trans hrest hs hd, fun hok => ?_, fun hok => ?_⟩
  · rw [htrue hok, length_append]
  · obtain ⟨hlt, hno⟩ := hfalse hok
    rw [← add_assoc]
    exact ⟨by simpa using hlt, hno⟩

omit [Image] in
lemma CopiedOut.writtenOut (h : CopiedOut m f va src false m') :
    WrittenOut m f va (src ++ src') false m' := by
  obtain ⟨k, hk, hst, _, hfalse⟩ := h
  obtain ⟨hlt, _, hno⟩ := hfalse rfl
  refine ⟨k, by simpa using Nat.le_add_right_of_le hk, Stored.congr hst fun i hi =>
    (getD_append _ _ _ _ (by omega)).symm, fun h => absurd h Bool.false_ne_true, fun _ => ?_⟩
  exact ⟨by simpa using Nat.lt_add_right _ hlt, hno⟩

variable {s : Locked} {ps : List (Fin nproc)} {count buffer : ℕ} {pad : BitVec 32}

/-- What the loop leaves: all its locks released, the table as it was, and the records of the slots
that it has seen in the memory of the caller. -/
structure Reported (s : Locked) (f : ℕ → Word) (va : ℕ) (src : List Byte) (ok : Bool) (s' : Locked) :
    Prop where
  held : s'.held = s.held
  waitLock : s'.waitLock = s.waitLock
  kern : s'.kern = { s.kern with mach := s'.kern.mach }
  written : WrittenOut s.kern.mach f va src ok s'.kern.mach

lemma getptableFrom_spec (maxRecords : ℤ) (hs : Space s.kern.mach root n tf f X)
    (hd : X + frames f 0 n ≤ ram) (hfree : s.Free) (hbuffer : buffer < 2 ^ 64)
    (hcount : count = 0 ∨ buffer < maxva) (hlen : count + ps.length ≤ nproc) :
    wp (getptableFrom maxRecords buffer root pad ps count)
      (Reported s f (buffer + count * procInfoSize)
        (records pad s.kern ps (maxRecords - count).toNat)) (fun _ _ => False) s := by
  induction ps generalizing s count with
  | nil =>
    rw [records_nil]
    exact wp_pure ⟨rfl, rfl, rfl, WrittenOut.nil⟩
  | cons p ps ih =>
    rw [length_cons] at hlen
    refine wp_bind (wp_acquire (hfree p) (wp_bind (wp_get ?_)))
    rw [Locked.lock_kern]
    by_cases hused : (s.kern.proc p).state ≠ .unused
    swap
    · -- the slot is not in use
      rw [if_neg hused, records_skip (not_not.mp hused)]
      refine wp_bind (wp_release (k := s.kern) (hfree p) ?_)
      exact ih hs hfree hcount (by omega)
    rw [if_pos hused]
    by_cases hfull : maxRecords ≤ count
    · -- the caller's buffer is full
      rw [if_pos hfull, Int.toNat_of_nonpos (by omega)]
      exact wp_bind (wp_release (k := s.kern) (hfree p) (wp_pure ⟨rfl, rfl, rfl, WrittenOut.nil⟩))
    have hleft : (maxRecords - count).toNat = (maxRecords - (count + 1 : ℕ)).toNat + 1 := by omega
    have haddr : (buffer + count * procInfoSize) % 2 ^ 64 = buffer + count * procInfoSize := by
      refine Nat.mod_eq_of_lt ?_
      unfold nproc at hlen
      unfold procInfoSize
      obtain rfl | hlt := hcount
      · omega
      · unfold maxva at hlt
        omega
    rw [if_neg hfull, hleft, records_take hused, haddr]
    refine wp_bind (wp_kernel (wp_post (mem_frame (copyout_stores hs hd)) ?_))
    rintro (_ | _) k1 ⟨hcopied, hkern⟩
    · -- the record does not fit in the memory of the caller
      exact wp_bind (wp_release (hfree p) (wp_pure ⟨rfl, rfl, hkern, CopiedOut.writtenOut hcopied⟩))
    have hstored : Stored s.kern.mach f (buffer + count * procInfoSize)
        (procInfo pad s.kern p).length (procInfo pad s.kern p) k1.mach := by
      obtain ⟨j, _, hst, htrue, _⟩ := hcopied
      rwa [htrue rfl] at hst
    have hnext : buffer + count * procInfoSize + (procInfo pad s.kern p).length =
        buffer + (count + 1) * procInfoSize := by
      rw [length_procInfo]
      ring
    have hlow : buffer < maxva := by
      have hw := (hstored.writable 0 (by rw [length_procInfo]; decide)).1.1
      omega
    have hproc : k1.proc = s.kern.proc := by
      rw [hkern]
      rfl
    have hrecords : ∀ j, records pad k1 ps j = records pad s.kern ps j := by
      intro j
      unfold records Kern.live procInfo
      rw [hproc]
    refine wp_bind (wp_release (hfree p) ?_)
    have hrest := ih (s := { s with kern := k1 }) (hstored.space hs hd) hfree (.inr hlow)
      (by omega : count + 1 + ps.length ≤ nproc)
    refine wp_post hrest ?_
    rintro ok s' ⟨hheld, hwait, hkern', hwritten⟩
    refine ⟨hheld, hwait, ?_, ?_⟩
    · rw [hkern', hkern]
      rfl
    · rw [hrecords, ← hnext] at hwritten
      exact WrittenOut.cons hs hd hstored hwritten

/-- `getptable` reports the live processes. If it returns 1, the records of the first `nproc` slots
in use, in the order of the table, are in the caller's memory from `buffer` on and nothing else has
been written; if it returns 0, a parameter is invalid or the user may not write a byte of the place
for these records. It never stops, it changes no slot, and every lock it takes is released; and
every record says what the slot holds. -/
theorem getptable_reports {curproc : Fin nproc} (hp : (s.kern.proc curproc).pagetable = some root)
    (hs : Space s.kern.mach root n tf f X) (hd : X + frames f 0 n ≤ ram) (hfree : s.Free)
    (hbuffer : buffer < 2 ^ 64) (maxRecords : ℤ) (pad : BitVec 32) :
    let k := min maxRecords.toNat (s.kern.live (finRange nproc)).length
    let slots := (s.kern.live (finRange nproc)).take k
    wp (getptable curproc maxRecords buffer pad) (fun ok s' =>
      s'.held = s.held ∧ s'.waitLock = s.waitLock ∧ s'.kern.proc = s.kern.proc ∧
      (ok = true → Stored s.kern.mach f buffer (k * procInfoSize)
        (slots.flatMap (procInfo pad s.kern)) s'.kern.mach) ∧
      (ok = false → maxRecords < 1 ∨ buffer = 0 ∨
        ∃ i < k * procInfoSize, ¬ Writable f (buffer + i))) (fun _ _ => False) s ∧
    ∀ p, Describes (procInfo pad s.kern p) s.kern p := by
  intro k slots
  refine ⟨?_, describes_procInfo pad s.kern⟩
  have hlen : (records pad s.kern (finRange nproc) maxRecords.toNat).length =
      k * procInfoSize := length_records
  have hrecords : records pad s.kern (finRange nproc) maxRecords.toNat =
      slots.flatMap (procInfo pad s.kern) := by
    change ((s.kern.live (finRange nproc)).take maxRecords.toNat).flatMap _ = _
    rw [take_eq_take_min]
  unfold getptable
  split_ifs with hbad
  · exact wp_pure ⟨rfl, rfl, rfl, fun h => absurd h Bool.false_ne_true,
      fun _ => hbad.imp_right .inl⟩
  refine wp_bind (wp_get (wp_bind (wp_kernel (wp_deref hp ?_))))
  have hslots : 0 + (finRange nproc).length ≤ nproc := by simp
  refine wp_post (getptableFrom_spec maxRecords hs hd hfree hbuffer (.inl rfl) hslots) ?_
  rintro ok s' ⟨hheld, hwait, hkern, j, hj, hst, htrue, hfalse⟩
  simp only [Nat.cast_zero, sub_zero, zero_mul, add_zero, hrecords] at hj hst htrue hfalse
  rw [hrecords] at hlen
  refine ⟨hheld, hwait, by rw [hkern], fun hok => ?_, fun hok => ?_⟩
  · rwa [htrue hok, hlen] at hst
  · obtain ⟨hlt, hno⟩ := hfalse hok
    exact .inr (.inr ⟨j, hlen ▸ hlt, hno⟩)

end spec

def idleProc : Proc where
  state := .unused
  killed := false
  xstate := 0
  pid := 0
  priority := 0
  parent := none
  sz := 0
  pagetable := none
  trapframe := none
  ofile := fun _ => none
  cwd := none
  name := []
  creationTime := 0
  runTime := 0
  finishTime := 0
  turnaroundTime := 0
  waitingTime := 0

def soloKern (m : Mach) (root : ℕ) : Kern where
  mach := m
  proc := Function.update (fun _ => idleProc) 0
    { idleProc with state := .running, pid := 1, pagetable := some root, sz := pgsize, name := [115, 104] }
  fref := fun _ => 0
  iref := fun _ => 0
  nextpid := 2
  ticks := 0

theorem getptable_reports_solo : ∃ (_ : Image) (m : Mach) (root : ℕ) (f : ℕ → Word),
    wp (getptable 0 64 16 0) (fun ok s' => s'.held = (fun _ => false) ∧
      (ok = true → Stored m f 16 procInfoSize (procInfo 0 (soloKern m root) 0) s'.kern.mach))
      (fun _ _ => False) ⟨soloKern m root, fun _ => false, false⟩ := by
  obtain ⟨m, root, f, X, hs, hd⟩ := exists_onePage
  refine ⟨smallImage, m, root, f, ?_⟩
  have hlive : (soloKern m root).live (finRange nproc) = [0] := by
    rfl
  have hreport := (@getptable_reports smallImage root 1 0 f X
    ⟨soloKern m root, fun _ => false, false⟩ 16 0 rfl hs hd (fun _ => rfl) (by decide) 64 0).1
  refine wp_post hreport ?_
  rintro ok s' ⟨hheld, _, _, htrue, _⟩
  refine ⟨hheld, fun hok => ?_⟩
  have hst := htrue hok
  simp only [hlive] at hst
  change Stored (soloKern m root).mach f 16 _ _ _
  simpa using hst

end Xv6.Process
