import Xv6.LogCommitSpec

/-! Crash atomicity of the log: a crash keeps a prefix of the writes made so far and loses
the cache; recovery may itself be cut short any number of times. -/
namespace Xv6

open Program Function List

variable {dev start size : ℕ} {k k0 : Kernel} {E : Stop → Kernel → Prop}

/-- The machine after a reboot, when `initlog` is about to call `recover_from_log`. -/
def reboot (dev start size : ℕ) (d : ℕ → Block) : Kernel where
  disk := d
  writes := []
  bufs := replicate nbuf Buf.init
  log := ⟨start, size, 0, false, dev, []⟩

section
variable (hdev : dev ≠ 0) (d : ℕ → Block)
include hdev d

lemma reboot_buf (b : ℕ) : (reboot dev start size d).buf dev b = none := by
  unfold Kernel.buf reboot
  rw [find?_eq_none]
  intro x hx hk
  rw [eq_of_mem_replicate hx, Buf.is_iff] at hk
  exact hdev hk.1.symm

theorem reboot_content (b : ℕ) : (reboot dev start size d).content dev b = d b := by
  unfold Kernel.content
  rw [reboot_buf hdev]
  rfl

theorem reboot_quiet : Quiet dev [] (reboot dev start size d) := by
  have hinit : ∀ x ∈ (reboot dev start size d).bufs, x = Buf.init := fun x hx =>
    eq_of_mem_replicate hx
  refine ⟨⟨?_, length_replicate, ?_⟩, ?_, ?_, ?_, ?_⟩
  · refine pairwise_of_forall_mem_list ?_
    intro x hx y _ h0
    rw [hinit x hx] at h0
    exact absurd rfl h0
  · intro x hx
    rw [hinit x hx]
    exact .inr ⟨rfl, rfl⟩
  · intro b x hx
    rw [reboot_buf hdev] at hx
    cases hx
  · intro b _
    exact ⟨by simp [pins], rfl⟩
  · intro b x hx
    rw [reboot_buf hdev] at hx
    cases hx
  · intro b hl
    cases hl

end

def readBack (d : Block) : List ℕ := (range (headerN d).toNat).map (headerBlock d)

theorem readHead_spec (h : Quiet k.log.dev [] k) (hdev : k.log.dev ≠ 0)
    (hc : ∀ b, k.content k.log.dev b = k.disk b) :
    wp readHead (fun _ k' => Quiet k.log.dev [] k' ∧
      k'.log = { k.log with lh := readBack (k.disk k.log.start) } ∧ Wrote k [] k' ∧
      ∀ b, k'.content k.log.dev b = k'.disk b) E k := by
  unfold readHead
  refine wp_bind (wp_get ?_)
  refine wp_seq (bread_spec (L := []) h hdev rfl (fun _ hb => pins_pos hb) (.inr (by decide))) ?_
  rintro _ k1 ⟨v1, s1, c1, e1⟩
  refine wp_bind (bdata_spec v1 (by simp) ?_)
  refine wp_bind (wp_modify ?_)
  let k2 : Kernel := { k1 with log := { k1.log with
    lh := readBack (k1.content k.log.dev k.log.start) } }
  have v2 : View k.log.dev k2 _ _ := ⟨v1.cache, v1.found, v1.absent, v1.valid, v1.held⟩
  refine wp_post (brelse_spec v2 (b := k.log.start) (by simp)) ?_
  rintro _ k3 ⟨v3, s3, o3⟩
  refine ⟨?_, ?_, ⟨?_, ?_⟩, ?_⟩
  · unfold Quiet
    convert v3 using 1
    · funext b
      by_cases hb : b = k.log.start
      · simp [hb, pins]
      · simp [hb]
    · funext b
      by_cases hb : b = k.log.start
      · simp [hb, unlocked]
      · simp [hb, unlocked]
  · rw [s3.log]
    change { k1.log with lh := readBack (k1.content k.log.dev k.log.start) } = _
    rw [s1.log, e1, hc]
  · rw [s3.writes]
    change k1.writes = _
    rw [s1.writes, append_nil]
  · rw [s3.disk]
    exact s1.disk
  · intro b
    rw [o3, s3.disk]
    change k1.content k.log.dev b = k1.disk b
    rw [s1.disk]
    rcases c1 b with he | ⟨_, he⟩
    · rw [he, hc]
    · exact he

/-- The writes of a recovery of disk `d` that finds the blocks `log.lh` in the header. -/
def recoveryWrites (log : Log) (d : ℕ → Block) (h : Block) : List (ℕ × Block) :=
  installs log (fun i => d (log.start + i + 1)) log.n ++ [(log.start, putHeader h [])]

/-- Recovery of a disk whose header lists blocks that a commit may have logged. -/
lemma recover_spec {d : ℕ → Block}
    (hL : Loggable ⟨start, size, 0, false, dev, readBack (d start)⟩) :
    wp recoverFromLog (fun _ k' =>
      ∃ h, Wrote (reboot dev start size d)
        (recoveryWrites ⟨start, size, 0, false, dev, readBack (d start)⟩ d h) k') E
      (reboot dev start size d) := by
  have hdev : dev ≠ 0 := hL.dev
  unfold recoverFromLog
  refine wp_seq (readHead_spec (reboot_quiet hdev d) hdev (reboot_content hdev d)) ?_
  rintro _ k1 ⟨q1, l1, w1, c1⟩
  have hd1 : k1.disk = d := w1.disk
  have l1' : k1.log = ⟨start, size, 0, false, dev, readBack (d start)⟩ := l1
  have hpin : Quiet k1.log.dev (pinned true k1.log.lh 0) k1 := by
    rw [l1']
    exact q1
  have hcop : Copied k1.log (fun i => d (start + i + 1)) k1.log.n k1 := by
    intro i _
    rw [l1', ← hd1]
    exact ⟨c1 _, rfl⟩
  refine wp_seq (installTrans_spec (by rw [l1']; exact hL) hpin hcop) ?_
  rintro _ k2 ⟨q2, l2, w2, _⟩
  refine wp_bind (wp_modify ?_)
  let k3 : Kernel := { k2 with log := { k2.log with lh := [] } }
  have l3 : k3.log = ⟨start, size, 0, false, dev, []⟩ := by
    change { k2.log with lh := [] } = _
    rw [l2, l1']
  have q3 : Quiet k3.log.dev [] k3 := by
    rw [l3]
    rw [l1'] at q2
    exact quiet_setLh q2
  refine wp_post (writeHead_spec q3 (by rw [l3]; exact hdev) (by decide) (by simp)) ?_
  rintro _ k4 ⟨_, _, d4, w4, _⟩
  rw [l3] at d4 w4
  rw [l1'] at w2
  have hw := w1.trans w2
  have hw3 : Wrote (reboot dev start size d) _ k3 := ⟨hw.writes, hw.disk⟩
  exact ⟨k3.content dev start, hw3.snoc d4 w4⟩

/-- The typical use of `log_write`: read a block, change it, log it, release it. -/
def updateBlock (dev b : ℕ) (f : Block → Block) : K PUnit := do
  bread dev b
  let d ← bdata dev b
  setData dev b (f d)
  logWrite b
  brelse dev b

def readBlock (dev b : ℕ) : K PUnit := do
  bread dev b
  brelse dev b

def Home (log : Log) (b : ℕ) : Prop := b < log.start ∨ log.start + log.size ≤ b

/-- The states a transaction may reach: any blocks outside the log read and updated, each
update accepted by `log_write`. -/
inductive Transaction (k0 : Kernel) : Kernel → Prop
  | start : Transaction k0 k0
  | read {k k' : Kernel} (b : ℕ) (h : Transaction k0 k)
      (hr : (readBlock k.log.dev b).run k = (.ok ⟨⟩, k')) : Transaction k0 k'
  | update {k k' : Kernel} (b : ℕ) (f : Block → Block) (h : Transaction k0 k)
      (hb : Home k.log b) (hu : b < 2 ^ 32)
      (hr : (updateBlock k.log.dev b f).run k = (.ok ⟨⟩, k')) : Transaction k0 k'

structure LogOk (log : Log) : Prop where
  dev : log.dev ≠ 0
  nodup : log.lh.Nodup
  length : log.lh.length ≤ logSize
  room : log.lh ≠ [] → log.lh.length < log.size
  home : ∀ b ∈ log.lh, Home log b
  uint : ∀ b ∈ log.lh, b < 2 ^ 32

variable {b : ℕ}

theorem LogOk.logWrite {log log' : Log} (h : LogOk log) (hb : Home log b)
    (hu : b < 2 ^ 32) (hw : log.logWrite b = .ok log') : LogOk log' := by
  obtain ⟨hn1, hn2, _, rfl⟩ := Log.logWrite_ok hw
  have hn : log.n = log.lh.length := rfl
  have hlen := Log.absorb_length log.lh b
  have hle : (Log.absorb log.lh b).length ≤ log.lh.length + 1 := by
    rw [hlen]
    split <;> omega
  refine ⟨h.dev, Log.absorb_nodup h.nodup, by simp only; omega, fun _ => by simp only; omega, ?_, ?_⟩
  · intro c hc
    rcases Log.mem_absorb.mp hc with hc | rfl
    · exact h.home c hc
    · exact hb
  · intro c hc
    rcases Log.mem_absorb.mp hc with hc | rfl
    · exact h.uint c hc
    · exact hu

structure Pending (k0 k : Kernel) : Prop extends LogOk k.log where
  quiet : Quiet k.log.dev k.log.lh k
  disk : k.disk = k0.disk
  writes : k.writes = k0.writes
  area : k.log.start = k0.log.start ∧ k.log.size = k0.log.size ∧ k.log.dev = k0.log.dev

variable {k' : Kernel}

lemma wp_ok {α : Type} {x : K α} {Q : α → Kernel → Prop} {a : α}
    (h : wp x Q E k) (hr : x.run k = (.ok a, k')) : Q a k' := by
  unfold wp at h
  rw [hr] at h
  exact h

variable {r : ℕ → ℕ} {lk : ℕ → Bool}

theorem bread_any (h : View dev k r lk) (hdev : dev ≠ 0)
    (hl : lk b = false) :
    wp (bread dev b) (fun _ k' =>
      View dev k' (Function.update r b (r b + 1)) (Function.update lk b true) ∧
      SameDisk k k' ∧ Keeps dev r k k' ∧ k'.content dev b = k.content dev b)
      (fun e k' => e = .panic .bgetNoBuffers ∧ k' = k ∧ ∀ x ∈ k.bufs, x.refcnt ≠ 0) k := by
  cases hx : k.buf dev b with
  | some x => exact bread_cached h hx hl
  | none =>
    by_cases hfree : ∃ x ∈ k.bufs, x.refcnt = 0
    · exact bread_uncached h hdev hx hfree
    · have hnone : recycle dev b k.bufs = none := by
        cases hr : recycle dev b k.bufs with
        | none => rfl
        | some l =>
          obtain ⟨p, x, q, hl', h0, _⟩ := recycle_shape hr
          exact absurd ⟨x, by rw [hl']; simp, h0⟩ hfree
      unfold bread bget
      refine wp_bind (wp_bind (wp_get ?_))
      rw [hx]
      simp only [hnone]
      exact wp_throw ⟨rfl, rfl, fun x hx h0 => hfree ⟨x, hx, h0⟩⟩

lemma Pending.read (h : Pending k0 k)
    (hr : (readBlock k.log.dev b).run k = (.ok ⟨⟩, k')) : Pending k0 k' := by
  have hwp : wp (readBlock k.log.dev b) (fun _ k' => Quiet k.log.dev k.log.lh k' ∧
      SameDisk k k') (fun _ _ => True) k := by
    unfold readBlock
    refine wp_seq (wp_mono (bread_any h.quiet h.dev rfl) (fun _ _ hq => hq) fun _ _ _ => trivial) ?_
    rintro _ k1 ⟨v1, s1, _, _⟩
    refine wp_post (brelse_spec v1 (by simp)) ?_
    rintro _ k2 ⟨v2, s2, _⟩
    refine ⟨?_, ⟨by rw [s2.disk, s1.disk], by rw [s2.writes, s1.writes], by rw [s2.log, s1.log]⟩⟩
    unfold Quiet
    convert v2 using 1
    · funext c
      by_cases hc : c = b
      · simp [hc]
      · simp [hc]
    · funext c
      by_cases hc : c = b
      · simp [hc, unlocked]
      · simp [hc, unlocked]
  obtain ⟨hq, hs⟩ := wp_ok hwp hr
  rw [← hs.log] at hq
  have hok := h.toLogOk
  have harea := h.area
  rw [← hs.log] at hok harea
  exact ⟨hok, hq, by rw [hs.disk, h.disk], by rw [hs.writes, h.writes], harea⟩

theorem logWrite_spec (h : View k.log.dev k r lk)
    (hl : lk b = true) :
    wp (logWrite b) (fun _ k' =>
      View k.log.dev k' (Function.update r b (if b ∈ k.log.lh then r b else r b + 1)) lk ∧
      k'.disk = k.disk ∧ k'.writes = k.writes ∧ k.log.logWrite b = .ok k'.log ∧
      ∀ b', k'.content k.log.dev b' = k.content k.log.dev b')
      (fun e k' => ∃ p, e = .panic p ∧ k' = k ∧ k.log.logWrite b = .error p) k := by
  unfold logWrite
  refine wp_bind (wp_get ?_)
  cases hlog : k.log.logWrite b with
  | error p => exact wp_throw ⟨p, rfl, rfl, rfl⟩
  | ok log =>
    simp only
    unfold pinNew
    by_cases hb : b ∈ k.log.lh
    · rw [if_pos hb, if_pos hb, update_eq_self]
      refine wp_bind (wp_pure (wp_modify ⟨?_, rfl, rfl, rfl, fun _ => rfl⟩))
      exact ⟨h.cache, h.found, h.absent, h.valid, h.held⟩
    · rw [if_neg hb, if_neg hb]
      refine wp_seq (bpin_spec h hl) ?_
      rintro _ k1 ⟨v1, s1, o1⟩
      refine wp_modify ⟨?_, s1.disk, s1.writes, rfl, o1⟩
      exact ⟨v1.cache, v1.found, v1.absent, v1.valid, v1.held⟩

lemma Pending.update {f : Block → Block} (h : Pending k0 k)
    (hb : Home k.log b) (hu : b < 2 ^ 32)
    (hr : (updateBlock k.log.dev b f).run k = (.ok ⟨⟩, k')) : Pending k0 k' := by
  have hwp : wp (updateBlock k.log.dev b f) (fun _ k' =>
      Quiet k.log.dev (Log.absorb k.log.lh b) k' ∧ k'.disk = k.disk ∧ k'.writes = k.writes ∧
      k.log.logWrite b = .ok k'.log) (fun _ _ => True) k := by
    unfold updateBlock
    refine wp_seq (wp_mono (bread_any h.quiet h.dev rfl) (fun _ _ hq => hq) fun _ _ _ => trivial) ?_
    rintro _ k1 ⟨v1, s1, _, _⟩
    refine wp_bind (bdata_spec v1 (by simp) ?_)
    refine wp_seq (setData_spec v1 (by simp) _) ?_
    rintro _ k2 ⟨v2, s2, _, _⟩
    have hlog2 : k2.log = k.log := by rw [s2.log, s1.log]
    have hspec := logWrite_spec (k := k2) (b := b) (by rw [hlog2]; exact v2) (by simp)
    rw [hlog2] at hspec
    refine wp_seq (wp_mono hspec (fun _ _ hq => hq) fun _ _ _ => trivial) ?_
    rintro _ k3 ⟨v3, d3, w3, l3, _⟩
    refine wp_post (brelse_spec v3 (by simp)) ?_
    rintro _ k4 ⟨v4, s4, _⟩
    refine ⟨?_, by rw [s4.disk, d3, s2.disk, s1.disk], by rw [s4.writes, w3, s2.writes, s1.writes],
      by rw [s4.log]; exact l3⟩
    unfold Quiet
    convert v4 using 1
    · funext c
      by_cases hc : c = b
      · subst hc
        by_cases hm : c ∈ k.log.lh
        · simp [pins, hm]
        · simp [pins, hm]
      · by_cases hm : c ∈ k.log.lh
        · simp [pins, hc, hm]
        · simp [pins, hc, hm]
    · funext c
      by_cases hc : c = b
      · simp [hc, unlocked]
      · simp [hc, unlocked]
  obtain ⟨hq, hd, hw, hl⟩ := wp_ok hwp hr
  obtain ⟨_, _, _, hlog⟩ := Log.logWrite_ok hl
  have harea := h.area
  refine ⟨h.toLogOk.logWrite hb hu hl, ?_, by rw [hd, h.disk], by rw [hw, h.writes], ?_⟩
  · rw [hlog]
    exact hq
  · rw [hlog]
    exact harea

lemma Transaction.pending (h : Transaction k0 k) (hq : Quiet k0.log.dev [] k0)
    (hdev : k0.log.dev ≠ 0) (hlh : k0.log.lh = []) : Pending k0 k := by
  induction h with
  | start =>
    refine ⟨⟨hdev, ?_, ?_, ?_, ?_, ?_⟩, by rw [hlh]; exact hq, rfl, rfl, rfl, rfl, rfl⟩ <;>
      simp [hlh]
  | read b _ hr ih => exact ih.read hr
  | update b f _ hb hu hr ih => exact ih.update hb hu hr

lemma View.referenced_le {L : List ℕ} (h : View dev k r lk)
    (hn : L.Nodup) (hL : ∀ b ∈ L, 0 < r b) : L.length ≤ nbuf := by
  have hsub : L ⊆ k.bufs.map Buf.blockno := by
    intro b hb
    obtain ⟨x, hx⟩ := h.exists_buf (.inr (hL b hb))
    rw [← blockno_of_buf hx]
    exact mem_map_of_mem (mem_of_find?_eq_some hx)
  have hle := (hn.subperm hsub).length_le
  rwa [length_map, h.cache.size] at hle

/-- When the transaction has pinned every buffer, `commit` panics before it writes. -/
lemma commit_full (h : LogOk k.log) (hq : Quiet k.log.dev k.log.lh k)
    (hfull : nbuf ≤ k.log.lh.length) :
    wp commit (fun _ _ => False) (fun e t => e = .panic .bgetNoBuffers ∧ t = k) k := by
  have hpos : 0 < k.log.n := lt_of_lt_of_le (by decide) hfull
  have hne : k.log.lh ≠ [] := ne_nil_of_length_pos hpos
  have hnot : k.log.start + 0 + 1 ∉ k.log.lh := by
    intro hm
    have hb := h.home _ hm
    have hr := h.room hne
    have hn : nbuf = 30 := rfl
    unfold Home at hb
    omega
  unfold commit
  refine wp_bind (wp_get ?_)
  rw [if_pos hpos]
  refine wp_seq (Q := fun _ _ => False) ?_ fun _ _ hf => hf.elim
  unfold writeLog
  refine wp_bind (wp_get ?_)
  refine wp_post (wp_forRange (I := fun i t => i = 0 ∧ t = k) ?_ ⟨rfl, rfl⟩) ?_
  · rintro i t _ ⟨rfl, rfl⟩
    unfold writeLogBlock
    refine wp_seq (wp_mono (bread_any hq h.dev rfl) (fun _ _ hq => hq)
      fun _ _ he => ⟨he.1, he.2.1⟩) ?_
    · rintro _ k1 ⟨v1, _⟩
      have hle := v1.referenced_le (L := (t.log.start + 0 + 1) :: t.log.lh)
        (nodup_cons.mpr ⟨hnot, h.nodup⟩) ?_
      · rw [length_cons] at hle
        omega
      · intro b hb
        rcases mem_cons.mp hb with rfl | hb
        · simp
        · have hbn : b ≠ t.log.start + 0 + 1 := by
            rintro rfl
            exact hnot hb
          rw [update_of_ne hbn]
          simp [pins, hb]
  · rintro _ t ⟨h0, _⟩
    omega

lemma LogOk.loggable {log : Log} (h : LogOk log) (hne : log.lh ≠ [])
    (hc : log.lh.length < nbuf) : Loggable log :=
  ⟨h.dev, h.nodup, hc, h.room hne, h.home, h.uint⟩

lemma commit_writes (h : Pending k0 k) :
    (commit.run k).2.writes = k.writes ∨
      Loggable k.log ∧ ∃ d d', (commit.run k).2.writes = k.writes ++ commitWrites k d d' := by
  by_cases hpos : 0 < k.log.n
  · have hne : k.log.lh ≠ [] := ne_nil_of_length_pos hpos
    by_cases hc : k.log.lh.length < nbuf
    · have hL := h.toLogOk.loggable hne hc
      refine .inr ⟨hL, ?_⟩
      refine wp_final (R := fun t : Kernel => ∃ d d', t.writes = k.writes ++ commitWrites k d d') ?_
      refine wp_mono (commit_spec (E := fun _ _ => False) hL h.quiet hpos) ?_ fun _ _ hf => hf.elim
      rintro _ t ⟨_, _, ⟨d, d', hw⟩, _⟩
      exact ⟨d, d', hw.writes⟩
    · left
      refine wp_final (R := fun t : Kernel => t.writes = k.writes) ?_
      refine wp_mono (commit_full h.toLogOk h.quiet (by omega)) (fun _ _ hf => hf.elim) ?_
      rintro _ t ⟨_, rfl⟩
      rfl
  · left
    refine wp_final (R := fun t : Kernel => t.writes = k.writes) ?_
    unfold commit
    refine wp_bind (wp_get ?_)
    rw [if_neg hpos]
    exact wp_pure rfl

section crash
variable {log : Log} {d d' e : ℕ → Block} {D : ℕ → Block} {ws : List (ℕ × Block)}

section
variable (log : Log)

/-- Reboot and run `recover_from_log`, but crash after some of its writes. -/
def CutRecovery (d d' : ℕ → Block) : Prop :=
  ∃ ws, ws <+: (recoverFromLog.run (reboot log.dev log.start log.size d)).2.writes ∧
    d' = DiskWrites.apply d ws

def Recovers (d d' : ℕ → Block) : Prop :=
  ∃ k, recoverFromLog.run (reboot log.dev log.start log.size d) = (.ok ⟨⟩, k) ∧ k.disk = d'

def Clean (e d : ℕ → Block) : Prop := headerN (d log.start) = 0 ∧ ∀ b, Home log b → d b = e b

/-- The transaction is in the log: the header lists its blocks and the copies are there.
Home blocks outside the transaction are those of `e`. -/
def Committed (D : ℕ → Block) (e d : ℕ → Block) : Prop :=
  readBack (d log.start) = log.lh ∧ (∀ i, i < log.n → d (log.start + i + 1) = D i) ∧
    ∀ b, Home log b → b ∉ log.lh → d b = e b

def post (D : ℕ → Block) (e : ℕ → Block) : ℕ → Block :=
  DiskWrites.apply e (installs log D log.n)

end

lemma fst_mem_installs : b ∈ (installs log D log.n).map Prod.fst ↔ b ∈ log.lh := by
  have hn : log.n = log.lh.length := rfl
  simp only [installs, map_map, mem_map, mem_range, comp_apply, hn]
  constructor
  · rintro ⟨i, hi, rfl⟩
    exact getD_mem hi
  · intro hb
    obtain ⟨i, hi, rfl⟩ := getElem_of_mem hb
    exact ⟨i, hi, getD_eq_getElem _ _ hi⟩

lemma fst_mem_copies {n : ℕ} (hb : b ∈ (copies log D n).map Prod.fst) :
    log.start < b ∧ b ≤ log.start + n := by
  simp only [copies, map_map, mem_map, mem_range, comp_apply] at hb
  obtain ⟨i, hi, rfl⟩ := hb
  omega

lemma headerN_putHeader_nil (h : Block) : headerN (putHeader h []) = 0 := by
  have hlen : ([] : List ℕ).length < 2 ^ 31 := by simp
  simpa using headerN_putHeader (d := h) hlen

lemma recovery_run
    (hL : Loggable ⟨log.start, log.size, 0, false, log.dev, readBack (d log.start)⟩) :
    ∃ h, (recoverFromLog.run (reboot log.dev log.start log.size d)).2.writes =
        recoveryWrites ⟨log.start, log.size, 0, false, log.dev, readBack (d log.start)⟩ d h ∧
      Recovers log d (DiskWrites.apply d
        (recoveryWrites ⟨log.start, log.size, 0, false, log.dev, readBack (d log.start)⟩ d h)) := by
  have hspec := recover_spec (E := fun _ _ => False) hL
  unfold wp at hspec
  rcases hx : recoverFromLog.run (reboot log.dev log.start log.size d) with ⟨r, t⟩
  rw [hx] at hspec
  cases r with
  | error _ => exact hspec.elim
  | ok a =>
    obtain ⟨h, hw⟩ := hspec
    exact ⟨h, by simpa [reboot] using hw.writes, t, hx, hw.disk⟩

lemma loggable_of_clean (hdev : log.dev ≠ 0) (hsize : 0 < log.size)
    (hc : headerN (d log.start) = 0) :
    Loggable ⟨log.start, log.size, 0, false, log.dev, readBack (d log.start)⟩ ∧
      readBack (d log.start) = [] := by
  have hnil : readBack (d log.start) = [] := by simp [readBack, hc]
  rw [hnil]
  refine ⟨⟨hdev, nodup_nil, by simp [nbuf, maxOpBlocks], hsize, ?_, ?_⟩, rfl⟩ <;> simp

lemma Clean.write_header (hsize : 0 < log.size) (h : Clean log e d) (x : Block) :
    Clean log e (Function.update d log.start (putHeader x [])) := by
  refine ⟨by rw [update_self]; exact headerN_putHeader_nil x, ?_⟩
  intro b hb
  have hne : b ≠ log.start := by
    unfold Home at hb
    omega
  rw [update_of_ne hne]
  exact h.2 b hb

lemma Clean.recovery (hdev : log.dev ≠ 0) (hsize : 0 < log.size) (h : Clean log e d) :
    (∀ d', CutRecovery log d d' → Clean log e d') ∧ ∃ d', Recovers log d d' ∧ Clean log e d' := by
  obtain ⟨hL, hnil⟩ := loggable_of_clean hdev hsize h.1
  obtain ⟨x, hw, hr⟩ := recovery_run hL
  have hws : recoveryWrites ⟨log.start, log.size, 0, false, log.dev, readBack (d log.start)⟩ d x =
      [(log.start, putHeader x [])] := by
    rw [hnil]
    rfl
  rw [hws] at hw hr
  refine ⟨?_, _, hr, h.write_header hsize x⟩
  rintro d' ⟨ws, hp, rfl⟩
  rw [hw, ← nil_append [_]] at hp
  rcases prefix_concat_iff.mp hp with rfl | hp
  · exact h.write_header hsize x
  · rw [prefix_nil.mp hp]
    exact h

section
variable (hL : Loggable log) (h : Committed log D e d)
include hL h

lemma Committed.apply (hw : ∀ w ∈ ws, w.1 ∈ log.lh) :
    Committed log D e (DiskWrites.apply d ws) := by
  have hn : log.n = log.lh.length := rfl
  have hkeep : ∀ b, b ∉ log.lh → DiskWrites.apply d ws b = d b := by
    intro b hb
    apply DiskWrites.apply_of_notMem
    intro hm
    obtain ⟨w, hws, rfl⟩ := mem_map.mp hm
    exact hb (hw w hws)
  refine ⟨?_, ?_, ?_⟩
  · have hs := hL.notMem (i := 0) (by omega)
    rw [Nat.add_zero] at hs
    rw [hkeep _ hs]
    exact h.1
  · intro i hi
    have hs := hL.notMem (i := i + 1) (by omega)
    rw [← Nat.add_assoc] at hs
    rw [hkeep _ hs]
    exact h.2.1 i hi
  · intro b hb hnb
    rw [hkeep b hnb]
    exact h.2.2 b hb hnb

lemma Committed.finish (x : Block) :
    Clean log (post log D e) (DiskWrites.apply d
      (installs log D log.n ++ [(log.start, putHeader x [])])) := by
  have hroom := hL.room
  rw [DiskWrites.apply_concat]
  refine ⟨?_, ?_⟩
  · rw [update_self]
    exact headerN_putHeader_nil x
  · intro b hb
    have hne : b ≠ log.start := by
      unfold Home at hb
      omega
    rw [update_of_ne hne]
    apply DiskWrites.apply_congr
    by_cases hm : b ∈ log.lh
    · exact .inl (fst_mem_installs.mpr hm)
    · exact .inr (h.2.2 b hb hm)

lemma Committed.recovery :
    (∀ d', CutRecovery log d d' → Committed log D e d' ∨ Clean log (post log D e) d') ∧
      ∃ d', Recovers log d d' ∧ Clean log (post log D e) d' := by
  have hL' : Loggable ⟨log.start, log.size, 0, false, log.dev, readBack (d log.start)⟩ := by
    rw [h.1]
    exact ⟨hL.dev, hL.nodup, hL.cache, hL.room, hL.home, hL.uint⟩
  obtain ⟨x, hw, hr⟩ := recovery_run hL'
  have hws : recoveryWrites ⟨log.start, log.size, 0, false, log.dev, readBack (d log.start)⟩ d x =
      installs log D log.n ++ [(log.start, putHeader x [])] := by
    rw [h.1]
    unfold recoveryWrites
    congr 1
    unfold installs
    apply map_congr_left
    intro i hi
    have hD := h.2.1 i (mem_range.mp hi)
    exact congrArg (Prod.mk (log.lh.getD i 0)) hD
  rw [hws] at hw hr
  refine ⟨?_, _, hr, h.finish hL x⟩
  rintro d' ⟨ws, hp, rfl⟩
  rw [hw] at hp
  rcases prefix_concat_iff.mp hp with rfl | hp
  · exact .inr (h.finish hL x)
  · left
    refine h.apply hL ?_
    intro w hm
    exact fst_mem_installs.mp (mem_map_of_mem (hp.subset hm))

end

lemma Clean.cuts (hdev : log.dev ≠ 0) (hsize : 0 < log.size) (h : Clean log e d)
    (hc : Relation.ReflTransGen (CutRecovery log) d d') : Clean log e d' := by
  induction hc with
  | refl => exact h
  | tail _ hcut ih => exact (ih.recovery hdev hsize).1 _ hcut

lemma Committed.cuts (hL : Loggable log) (h : Committed log D e d)
    (hc : Relation.ReflTransGen (CutRecovery log) d d') :
    Committed log D e d' ∨ Clean log (post log D e) d' := by
  have hroom := hL.room
  induction hc with
  | refl => exact .inl h
  | tail _ hcut ih =>
    rcases ih with ih | ih
    · exact (ih.recovery hL).1 _ hcut
    · exact .inr ((ih.recovery hL.dev (by omega)).1 _ hcut)

lemma clean_of_copies (hroom : log.n < log.size) (hc : headerN (e log.start) = 0)
    (hp : ws <+: copies log D log.n) : Clean log e (DiskWrites.apply e ws) := by
  have hmem : ∀ b ∈ ws.map Prod.fst, log.start < b ∧ b ≤ log.start + log.n := by
    intro b hb
    obtain ⟨w, hw, rfl⟩ := mem_map.mp hb
    exact fst_mem_copies (mem_map_of_mem (hp.subset hw))
  refine ⟨?_, ?_⟩
  · rw [DiskWrites.apply_of_notMem]
    · exact hc
    · intro hb
      have hlt := (hmem _ hb).1
      omega
  · intro b hb
    apply DiskWrites.apply_of_notMem
    intro hm
    have hb' := hmem b hm
    unfold Home at hb
    omega

lemma committed_of_header (hL : Loggable log) (hlen : log.lh.length ≤ logSize) (x : Block) :
    Committed log D e (DiskWrites.apply e
      (copies log D log.n ++ [(log.start, putHeader x log.lh)])) := by
  have hn : log.n = log.lh.length := rfl
  have hroom := hL.room
  rw [DiskWrites.apply_concat]
  refine ⟨?_, ?_, ?_⟩
  · rw [update_self]
    exact readBack_putHeader hlen hL.uint
  · intro i hi
    rw [update_of_ne (by omega)]
    have hnodup : ((copies log D log.n).map Prod.fst).Nodup := by
      unfold copies
      rw [map_map]
      refine List.Nodup.map_on ?_ nodup_range
      intro a _ b _ hab
      simp only [comp_apply] at hab
      omega
    have hmem : (log.start + i + 1, D i) ∈ copies log D log.n :=
      mem_map.mpr ⟨i, mem_range.mpr hi, rfl⟩
    exact DiskWrites.apply_of_mem e hnodup hmem
  · intro b hb _
    have hne : b ≠ log.start := by
      unfold Home at hb
      omega
    rw [update_of_ne hne]
    apply DiskWrites.apply_of_notMem
    intro hm
    have hb' := fst_mem_copies hm
    unfold Home at hb
    omega

def committedDisk (k : Kernel) (e : ℕ → Block) (b : ℕ) : Block :=
  if b ∈ k.log.lh then k.content k.log.dev b else e b

lemma post_logged (hnodup : k.log.lh.Nodup) :
    post k.log (logged k) e = committedDisk k e := by
  funext b
  unfold post committedDisk
  by_cases hb : b ∈ k.log.lh
  · rw [if_pos hb]
    have hn : ((installs k.log (logged k) k.log.n).map Prod.fst).Nodup := by
      have hfst : (installs k.log (logged k) k.log.n).map Prod.fst = k.log.lh := by
        unfold installs
        rw [map_map]
        refine ext_getElem ?_ ?_
        · simp [Log.n]
        · intro i _ hi
          simpa using getD_eq_getElem k.log.lh 0 hi
      rw [hfst]
      exact hnodup
    obtain ⟨i, hi, hib⟩ := getElem_of_mem hb
    have hget : k.log.lh.getD i 0 = b := by rw [getD_eq_getElem _ _ hi, hib]
    have hmem : (k.log.lh.getD i 0, logged k i) ∈ installs k.log (logged k) k.log.n :=
      mem_map.mpr ⟨i, mem_range.mpr hi, rfl⟩
    have happ := DiskWrites.apply_of_mem e hn hmem
    unfold logged at happ ⊢
    rw [hget] at happ
    exact happ
  · rw [if_neg hb]
    apply DiskWrites.apply_of_notMem
    rw [fst_mem_installs]
    exact hb

lemma commit_crash (hL : Loggable k.log) (hlen : k.log.lh.length ≤ logSize)
    (hc : headerN (e k.log.start) = 0) (x y : Block) (hp : ws <+: commitWrites k x y) :
    (Clean k.log e (DiskWrites.apply e ws) ∧ k.log.start ∉ ws.map Prod.fst) ∨
      Committed k.log (logged k) e (DiskWrites.apply e ws) ∨
      Clean k.log (post k.log (logged k) e) (DiskWrites.apply e ws) := by
  have hcom := committed_of_header (D := logged k) (e := e) hL hlen x
  unfold commitWrites at hp
  rw [append_assoc] at hp
  rcases DiskWrites.prefix_append_cases hp with hp | ⟨zs, rfl, hz⟩
  · rcases prefix_concat_iff.mp hp with rfl | hp
    · exact .inr (.inl hcom)
    · refine .inl ⟨clean_of_copies hL.room hc hp, ?_⟩
      intro hm
      obtain ⟨w, hw, hws⟩ := mem_map.mp hm
      have hlt := fst_mem_copies (mem_map_of_mem (hp.subset hw))
      omega
  · right
    rw [DiskWrites.apply_append]
    rcases prefix_concat_iff.mp hz with rfl | hz
    · exact .inr (hcom.finish hL y)
    · left
      refine hcom.apply hL ?_
      intro w hw
      exact fst_mem_installs.mp (mem_map_of_mem (hz.subset hw))

lemma Pending.crash (h : Pending k0 k) (hc : headerN (k0.disk k.log.start) = 0)
    (hp : k.writes ++ ws <+: (commit.run k).2.writes) :
    (Clean k.log k0.disk (DiskWrites.apply k0.disk ws) ∧ k.log.start ∉ ws.map Prod.fst) ∨
      Loggable k.log ∧ (Committed k.log (logged k) k0.disk (DiskWrites.apply k0.disk ws) ∨
        Clean k.log (post k.log (logged k) k0.disk) (DiskWrites.apply k0.disk ws)) := by
  rcases commit_writes h with hw | ⟨hL, x, y, hw⟩
  · rw [hw] at hp
    have hnil : ws = [] := by
      have hle := hp.length_le
      rw [length_append] at hle
      exact length_eq_zero_iff.mp (by omega)
    subst hnil
    exact .inl ⟨⟨hc, fun _ _ => rfl⟩, by simp⟩
  · rw [hw, prefix_append_right_inj] at hp
    rcases commit_crash hL h.length hc x y hp with hpre | hpost
    · exact .inl hpre
    · exact .inr ⟨hL, hpost⟩

/-- After a crash at any point of `commit`, and any number of crashes during recovery,
a recovery that runs to its end leaves all home blocks as before the transaction or all
of them as after it, and the latter once the header has been written. -/
theorem crash_atomic (hq : Quiet k0.log.dev [] k0) (hdev : k0.log.dev ≠ 0)
    (hlh : k0.log.lh = []) (hsize : 0 < k0.log.size)
    (hempty : headerN (k0.disk k0.log.start) = 0) (ht : Transaction k0 k)
    (hcrash : k.writes ++ ws <+: (commit.run k).2.writes)
    (hcut : Relation.ReflTransGen (CutRecovery k.log) (DiskWrites.apply k.disk ws) d) :
    ∃ d', Recovers k.log d d' ∧ headerN (d' k.log.start) = 0 ∧
      ((∀ b, Home k.log b → d' b = k0.disk b) ∨
        ∀ b, Home k.log b → d' b = committedDisk k k0.disk b) ∧
      (k.log.start ∈ ws.map Prod.fst →
        ∀ b, Home k.log b → d' b = committedDisk k k0.disk b) := by
  have hP := ht.pending hq hdev hlh
  obtain ⟨hstart, hsz, hd⟩ := hP.area
  rw [hP.disk] at hcut
  rw [← hstart] at hempty
  rw [← hsz] at hsize
  rcases hP.crash hempty hcrash with ⟨hclean, hno⟩ | ⟨hL, hpost⟩
  · obtain ⟨d', hr, hcl⟩ := ((hclean.cuts hP.dev hsize hcut).recovery hP.dev hsize).2
    exact ⟨d', hr, hcl.1, .inl hcl.2, fun hm => absurd hm hno⟩
  · have hend : Committed k.log (logged k) k0.disk d ∨
        Clean k.log (post k.log (logged k) k0.disk) d := by
      rcases hpost with hcom | hclean
      · exact hcom.cuts hL hcut
      · exact .inr (hclean.cuts hP.dev hsize hcut)
    obtain ⟨d', hr, hcl⟩ : ∃ d', Recovers k.log d d' ∧
        Clean k.log (post k.log (logged k) k0.disk) d' := by
      rcases hend with hcom | hclean
      · exact (hcom.recovery hL).2
      · exact (hclean.recovery hP.dev hsize).2
    rw [post_logged hP.nodup] at hcl
    exact ⟨d', hr, hcl.1, .inr hcl.2, fun _ => hcl.2⟩

def openOperation : Kernel :=
  { reboot 1 2 logSize (fun _ _ => 0) with log := ⟨2, logSize, 1, false, 1, []⟩ }

lemma openOperation_quiet : Quiet 1 [] openOperation := by
  have h : Quiet 1 [] (reboot 1 2 logSize fun _ _ => 0) := reboot_quiet one_ne_zero _
  exact ⟨h.cache, h.found, h.absent, h.valid, h.held⟩

def oneBlock : Kernel := ((updateBlock 1 45 fun _ _ => 7).run openOperation).2

lemma run_of_ok {x : K PUnit} (h : (x.run k).1.toBool = true) :
    x.run k = (.ok ⟨⟩, (x.run k).2) := by
  rcases hx : x.run k with ⟨_ | _, k'⟩
  · rw [hx] at h
    cases h
  · rfl

lemma oneBlock_transaction : Transaction openOperation oneBlock :=
  .update 45 (fun _ _ => 7) .start (by unfold Home; decide) (by decide)
    (run_of_ok (by decide +kernel))

theorem crash_atomic_one_block :
    45 ∈ oneBlock.log.lh ∧ oneBlock.log.start ∈ (commit.run oneBlock).2.writes.map Prod.fst ∧
      ∃ d', Recovers oneBlock.log
          (DiskWrites.apply oneBlock.disk (commit.run oneBlock).2.writes) d' ∧
        headerN (d' oneBlock.log.start) = 0 ∧
        ∀ b, Home oneBlock.log b → d' b = committedDisk oneBlock openOperation.disk b := by
  have hcrash : oneBlock.writes ++ (commit.run oneBlock).2.writes <+:
      (commit.run oneBlock).2.writes := by
    have hwrites : oneBlock.writes = [] := by decide +kernel
    rw [hwrites, nil_append]
  have hheader : oneBlock.log.start ∈ (commit.run oneBlock).2.writes.map Prod.fst := by
    decide +kernel
  obtain ⟨d', hr, hn, _, hpost⟩ := crash_atomic openOperation_quiet one_ne_zero rfl
    (by decide) (by decide +kernel) oneBlock_transaction hcrash .refl
  exact ⟨by decide +kernel, hheader, d', hr, hn, hpost hheader⟩

end crash

end Xv6
