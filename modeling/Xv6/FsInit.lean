import Xv6.FileRead

/-! `fsinit` of `fs.c`, and the reading half of the file system on a disk that nobody writes:
nothing stops it. -/
namespace Xv6

open Program Function

def superblock (d : Block) : Superblock where
  size := d.word 1
  nblocks := d.word 2
  ninodes := d.word 3
  nlog := d.word 4
  logstart := d.word 5
  inodestart := d.word 6
  bmapstart := d.word 7

def readsb (dev : ℕ) : K Block := do
  bread dev 1
  let d ← bdata dev 1
  brelse dev 1
  return d

def initlog (dev : ℕ) (sb : Superblock) : K PUnit := do
  modify fun k =>
    { k with log := { k.log with start := sb.logstart, size := sb.nlog, dev := dev } }
  recoverFromLog

def fsinit (dev : ℕ) : F PUnit := do
  let d ← readsb dev
  modify fun s => { s with sb := superblock d }
  if d.word 0 = fsmagic then initlog dev (superblock d) else throw (.panic .invalidFileSystem)

/-- The kernel before `fsinit`: nothing cached, no inode in use, and `d` on the disk. -/
def boot (d : ℕ → Block) : Fs where
  kernel := reboot 0 0 0 d
  sb := ⟨0, 0, 0, 0, 0, 0, 0⟩
  itable := fun _ => ⟨0, 0, 0, false, false, Dinode.zero⟩

variable {sb : Superblock} {c : ℕ → Block} {k : Kernel} {s : Fs} {ip : Slot} {b n : ℕ}

section still
variable {E : Stop → Kernel → Prop}

structure Still (c : ℕ → Block) (k : Kernel) : Prop where
  quiet : Quiet rootDev [] k
  content : ∀ b, k.content rootDev b = c b
  disk : k.disk = c

structure Reading (c : ℕ → Block) (b : ℕ) (k : Kernel) : Prop where
  view : View rootDev k (update (pins []) b 1) (update unlocked b true)
  content : ∀ b, k.content rootDev b = c b
  disk : k.disk = c

lemma Still.bread (h : Still c k) :
    wp (bread rootDev b) (fun _ k' => k'.log = k.log ∧ Reading c b k') E k := by
  refine wp_post (bread_spec (L := []) h.quiet (by decide) rfl (fun _ hb => pins_pos hb)
    (.inr (by decide))) ?_
  rintro _ k' ⟨v, hs, hkeep, -⟩
  refine ⟨hs.log, v, ?_, ?_⟩
  · intro x
    rcases hkeep x with he | ⟨-, he⟩
    · rw [he, h.content]
    · rw [he, h.disk]
  · rw [hs.disk, h.disk]

lemma Reading.bdata (h : Reading c b k) {Q : Block → Kernel → Prop} (hQ : Q (c b) k) :
    wp (bdata rootDev b) Q E k := by
  refine bdata_spec h.view (by simp) ?_
  rwa [h.content]

lemma Reading.brelse (h : Reading c b k) :
    wp (brelse rootDev b) (fun _ k' => k'.log = k.log ∧ Still c k') E k := by
  refine wp_post (brelse_spec h.view (by simp)) ?_
  rintro _ k' ⟨v, hs, hc⟩
  refine ⟨hs.log, ?_, fun x => by rw [hc, h.content], by rw [hs.disk, h.disk]⟩
  unfold Quiet
  convert v using 1
  · funext x
    by_cases hx : x = b
    · simp [hx, pins]
    · simp [hx]
  · funext x
    by_cases hx : x = b
    · simp [hx, unlocked]
    · simp [hx]

def Still.reader (c : ℕ → Block) : Reader c Set.univ fun _ _ => False where
  idle := Still c
  busy := Reading c
  bread _ h := wp_post h.bread (fun _ _ hk => hk.2)
  bdata h hQ := h.bdata hQ
  brelse h := wp_post h.brelse (fun _ _ hk => hk.2)

theorem still_boot (d : ℕ → Block) : Still d (boot d).kernel := by
  have hq : Quiet rootDev [] (reboot rootDev 0 0 d) := reboot_quiet (by decide) d
  have hc : ∀ b, (reboot rootDev 0 0 d).content rootDev b = d b := reboot_content (by decide) d
  exact ⟨⟨hq.cache, hq.found, hq.absent, hq.valid, hq.held⟩, hc, rfl⟩

lemma readsb_still (h : Still c k) :
    wp (readsb rootDev) (fun d k' => d = c 1 ∧ k'.log = k.log ∧ Still c k') E k := by
  refine wp_seq h.bread ?_
  rintro _ k1 ⟨l1, h1⟩
  refine wp_bind (h1.bdata ?_)
  refine wp_seq h1.brelse ?_
  rintro _ k2 ⟨l2, h2⟩
  exact wp_pure ⟨rfl, by rw [l2, l1], h2⟩

lemma putHeader_zero : putHeader (fun _ => 0) [] = fun _ => 0 := by
  funext i
  simp [putHeader, putBlocks, Block.put32]

lemma initlog_still (h : Still c k) (hlog : c sb.logstart = fun _ => 0) :
    wp (initlog rootDev sb) (fun _ k' => k'.log = { k.log with
      start := sb.logstart, size := sb.nlog, dev := rootDev, lh := [] } ∧ Still c k') E k := by
  refine wp_bind (wp_modify ?_)
  generalize hk0 : ({ k with log := { k.log with
    start := sb.logstart, size := sb.nlog, dev := rootDev } } : Kernel) = k0
  have hl0 : k0.log = { k.log with start := sb.logstart, size := sb.nlog, dev := rootDev } := by
    rw [← hk0]
  have hs0 : Still c k0 := by
    rw [← hk0]
    exact ⟨⟨h.quiet.cache, h.quiet.found, h.quiet.absent, h.quiet.valid, h.quiet.held⟩, h.content,
      h.disk⟩
  have hdev0 : k0.log.dev = rootDev := by rw [hl0]
  have hstart0 : k0.log.start = sb.logstart := by rw [hl0]
  have hback : readBack (fun _ => 0) = [] := by
    rfl
  refine wp_seq (readHead_spec (by rw [hdev0]; exact hs0.quiet) (by rw [hdev0]; decide) ?_) ?_
  · intro b
    rw [hdev0, hs0.content, hs0.disk]
  rintro _ k1 ⟨q1, l1, w1, c1⟩
  rw [hdev0] at q1 c1
  rw [hstart0, hs0.disk, hlog, hback] at l1
  have hd1 : k1.disk = c := by rw [w1.disk, hs0.disk]; rfl
  have hn1 : k1.log.n = 0 := by rw [l1]; rfl
  have hstart1 : k1.log.start = sb.logstart := by rw [l1]; exact hstart0
  have hdev1 : k1.log.dev = rootDev := by rw [l1]; exact hdev0
  have hlh1 : k1.log.lh = [] := by rw [l1]
  refine wp_bind (wp_bind (wp_get ?_))
  rw [hn1]
  refine wp_pure ?_
  have hset : ({ k1 with log := { k1.log with lh := [] } } : Kernel) = k1 := by
    rw [← hlh1]
  refine wp_bind (wp_modify ?_)
  rw [hset]
  refine wp_post (writeHead_spec (P := []) (by rw [hdev1]; exact q1) (by rw [hdev1]; decide)
    (by decide) (by simp)) ?_
  rintro _ k2 ⟨q2, l2, d2, -, hkeep⟩
  have hcoh : ∀ b, k2.content rootDev b = k2.disk b := by
    intro b
    rw [hdev1] at hkeep d2
    exact hkeep.coherent d2 (.inl (c1 b))
  have hcont1 : k1.content rootDev sb.logstart = fun _ => 0 := by rw [c1, hd1, hlog]
  rw [hdev1, hstart1, hlh1, hcont1, putHeader_zero] at d2
  have hd2 : k2.disk = c := by rw [d2, hd1, ← hlog, update_eq_self]
  rw [hdev1] at q2
  exact ⟨by rw [l2, l1, hl0], q2, fun b => by rw [hcoh, hd2], hd2⟩

end still

theorem Still.store (h : Still c k) (hdev : k.log.dev = rootDev)
    (harea : k.log.start = sb.logstart ∧ k.log.size = sb.nlog) (hlh : k.log.lh = []) :
    Store sb c ∅ ∅ k := by
  have hq : View rootDev k (refs k.log.lh ∅) fun b => decide (b ∈ (∅ : Finset ℕ)) := by
    have hrefs : refs k.log.lh ∅ = pins [] := by
      funext b
      simp [refs, hlh]
    rw [hrefs]
    exact h.quiet
  refine ⟨⟨?_, ?_, ?_, ?_, ?_, ?_⟩, hdev, harea, hq, fun b _ => h.content b,
    fun b _ _ => congrFun h.disk b⟩
  · rw [hdev]
    decide
  all_goals simp [hlh]

structure Mounted (sb : Superblock) (c : ℕ → Block) (s : Fs) : Prop where
  super : s.sb = sb
  still : Still c s.kernel

section reads
variable {E : Stop → Fs → Prop}

theorem fsinit_mounted (h : Still c s.kernel) (hmagic : (c 1).word 0 = fsmagic)
    (hlog : c (superblock (c 1)).logstart = fun _ => 0) :
    wp (fsinit rootDev) (fun _ s' => Mounted (superblock (c 1)) c s' ∧ s'.itable = s.itable ∧
      s'.kernel.log = { s.kernel.log with
        start := (superblock (c 1)).logstart, size := (superblock (c 1)).nlog, dev := rootDev,
        lh := [] }) E s := by
  refine wp_seq (wp_lift (R := fun d s' => d = c 1 ∧ s'.itable = s.itable ∧
    s'.kernel.log = s.kernel.log ∧ Still c s'.kernel) (wp_post (readsb_still h) ?_)) ?_
  · rintro d k1 ⟨hd, hl, h1⟩
    exact ⟨hd, rfl, hl, h1⟩
  rintro d s1 ⟨rfl, hi1, hl1, h1⟩
  refine wp_bind (wp_modify ?_)
  rw [if_pos hmagic]
  refine wp_lift (wp_post (initlog_still h1 hlog) ?_)
  rintro _ k2 ⟨hl2, h2⟩
  refine ⟨⟨rfl, h2⟩, hi1, ?_⟩
  rw [hl2, hl1]

theorem Mounted.setInode (h : Mounted sb c s) (f : Inode → Inode) : Mounted sb c (s.setInode ip f) :=
  ⟨h.super, h.still⟩

lemma Mounted.read {s' : Fs} (h : Mounted sb c s) (hs : (Still.reader c).Read s s') :
    Mounted sb c s' := ⟨by rw [hs.sb, h.super], hs.idle⟩

theorem readi_mounted {off : ℕ} (h : Mounted sb c s) (hdev : (s.itable ip).dev = rootDev)
    (hb : (s.itable ip).din.Backed c (off + n)) (hsize : off + n ≤ (s.itable ip).din.size) :
    wp (readi ip (fun _ _ => true) off n) (fun r _ =>
      r = some ((List.range n).map fun j => (s.itable ip).din.byteAt c (off + j))) E s := by
  have hidle : (Still.reader c).idle s.kernel := h.still
  exact wp_post (readi_backed (fun _ _ he => he.elim) hidle hdev (fun _ _ _ => Set.mem_univ _) hb
    hsize) (fun _ _ hr => hr.1)

theorem iget_new {dev inum : ℕ} (hnone : ∀ ip, 0 < (s.itable ip).ref → (s.itable ip).inum ≠ inum)
    (hfree : ∃ ip, (s.itable ip).ref = 0) :
    wp (iget dev inum) (fun ip s' => (s.itable ip).ref = 0 ∧ s' = s.setInode ip fun x =>
      { x with dev := dev, inum := inum, ref := 1, valid := false }) E s := by
  refine wp_bind (wp_get ?_)
  have hmiss : (List.finRange ninode).find? (fun ip =>
      0 < (s.itable ip).ref ∧ (s.itable ip).dev = dev ∧ (s.itable ip).inum = inum) = none := by
    rw [List.find?_eq_none]
    intro ip _ hip
    have hip' := of_decide_eq_true hip
    exact hnone ip hip'.1 hip'.2.2
  rw [hmiss]
  cases hf : (List.finRange ninode).find? (fun ip => (s.itable ip).ref = 0) with
  | none =>
    obtain ⟨ip, h0⟩ := hfree
    rw [List.find?_eq_none] at hf
    exact absurd (decide_eq_true h0) (hf ip (List.mem_finRange ip))
  | some ip =>
    have h0 := List.find?_some hf
    exact wp_bind (wp_modifyInode (wp_pure ⟨of_decide_eq_true h0, rfl⟩))

section
variable (h : Mounted sb c s) (hdev : (s.itable ip).dev = rootDev)
include h hdev

theorem ilock_mounted (href : 1 ≤ (s.itable ip).ref) (hlock : (s.itable ip).locked = false)
    (hvalid : (s.itable ip).valid = false) (htype : (dinodeAt sb c (s.itable ip).inum).type ≠ 0) :
    wp (ilock ip) (fun _ s' => Mounted sb c s' ∧ s'.itable = update s.itable ip
      { s.itable ip with
        locked := true, valid := true, din := dinodeAt sb c (s.itable ip).inum }) E s := by
  have hsb := h.super
  have hidle : (Still.reader c).idle s.kernel := h.still
  refine wp_post (ilock_rule (fun _ _ he => he.elim) hidle hdev href hlock
    (Set.mem_univ _) fun _ => by rw [hsb]; exact htype) ?_
  rintro _ s' ⟨hs, hsb', hi⟩
  refine ⟨⟨by rw [hsb', hsb], hs⟩, ?_⟩
  rw [hi, Inode.loaded, hvalid, hsb]
  rfl

theorem dirlookup_found {name : List Byte} {m : ℕ} {y : Dinode} (hy : (s.itable ip).din = y)
    (ht : y.type = tDir) (hb : y.Backed c ((m + 1) * direntSize))
    (hsize : (m + 1) * direntSize ≤ y.size) (hw : direntSize ∣ y.size)
    (hmiss : ∀ e' < m, ¬ (y.direntAt c e').Matches name) (hhit : (y.direntAt c m).Matches name)
    (hnone : ∀ ip, 0 < (s.itable ip).ref → (s.itable ip).inum ≠ (y.direntAt c m).inum)
    (hfree : ∃ ip, (s.itable ip).ref = 0) :
    wp (dirlookup ip name) (fun r s' => ∃ q,
      r = some (q, m * direntSize) ∧ (s.itable q).ref = 0 ∧ Mounted sb c s' ∧
      s'.itable = update s.itable q { s.itable q with
        dev := rootDev, inum := (y.direntAt c m).inum, ref := 1, valid := false }) E s := by
  have hlt : m < y.size / direntSize := (Nat.le_div_iff_mul_le (by decide)).mpr hsize
  have hfind : y.lookup c name = some m := by
    unfold Dinode.lookup
    rw [List.find?_range_eq_some]
    refine ⟨decide_eq_true hhit, List.mem_range.mpr hlt, fun e he => ?_⟩
    rw [decide_eq_false (hmiss e he)]
    rfl
  have hidle : (Still.reader c).idle s.kernel := h.still
  refine dirlookup_rule (fun _ _ he => he.elim) hidle hdev hy ht
    ⟨fun _ _ _ => Set.mem_univ _, ?_, hw⟩ ?_
  · intro e _ he
    by_cases hem : e ≤ m
    · exact hb.mono (Nat.mul_le_mul_right _ (by omega))
    · exact absurd hhit (he m (by omega))
  · intro s1 h1
    rw [hfind]
    refine wp_post (iget_new (by rw [h1.itable]; exact hnone) (by rw [h1.itable]; exact hfree)) ?_
    rintro q _ ⟨hq, rfl⟩
    refine ⟨q, rfl, by rwa [← h1.itable], (h.read h1).setInode _, ?_⟩
    rw [Fs.setInode]
    rw [h1.itable]

end

end reads

end Xv6
