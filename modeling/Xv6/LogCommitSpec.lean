import Xv6.LogCommit
import Xv6.DiskWrites

/-! The disk writes of `commit` and `recover_from_log`. -/
namespace Xv6

open Program Function List

variable {dev start src dst : ℕ} {k k0 : Kernel} {P : List ℕ} {E : Stop → Kernel → Prop}

def pins (P : List ℕ) (b : ℕ) : ℕ := if b ∈ P then 1 else 0

def unlocked (_ : ℕ) : Bool := false

/-- Between file system operations only the pins of `P` refer to buffers. -/
def Quiet (dev : ℕ) (P : List ℕ) (k : Kernel) : Prop := View dev k (pins P) unlocked

structure Wrote (k0 : Kernel) (ws : List (ℕ × Block)) (k : Kernel) : Prop where
  writes : k.writes = k0.writes ++ ws
  disk : k.disk = DiskWrites.apply k0.disk ws

lemma Wrote.nil (k : Kernel) : Wrote k [] k := ⟨by simp, rfl⟩

variable {k' : Kernel} {b : ℕ} {d : Block}

theorem Wrote.snoc {ws : List (ℕ × Block)}
    (h : Wrote k0 ws k) (hd : k'.disk = update k.disk b d)
    (hw : k'.writes = k.writes ++ [(b, d)]) : Wrote k0 (ws ++ [(b, d)]) k' := by
  constructor
  · rw [hw, h.writes, append_assoc]
  · rw [hd, h.disk, DiskWrites.apply_append]
    rfl

theorem pins_pos (h : 0 < pins P b) : b ∈ P := by
  unfold pins at h
  split at h
  · assumption
  · omega

/-- What a step that writes block `dst` does to the contents of the blocks. -/
structure KeepsOthers (dev dst : ℕ) (P : List ℕ) (k k' : Kernel) : Prop where
  others : ∀ b, b ≠ dst → k'.content dev b = k.content dev b ∨
    b ∉ P ∧ k'.content dev b = k.disk b
  here : k'.content dev dst = k'.disk dst

def Coherent (dev : ℕ) (k : Kernel) (b : ℕ) : Prop := k.content dev b = k.disk b

theorem KeepsOthers.coherent (h : KeepsOthers dev dst P k k')
    (hd : k'.disk = update k.disk dst d) (hb : Coherent dev k b ∨ b = dst) :
    Coherent dev k' b := by
  by_cases he : b = dst
  · rw [he]
    exact h.here
  · have hc := hb.resolve_right he
    unfold Coherent at hc ⊢
    rw [hd, update_of_ne he]
    rcases h.others b he with hk | ⟨_, hk⟩
    · rw [hk, hc]
    · exact hk

/-- `write_log` copies a pinned block to the log through a buffer it gives back. -/
lemma writeLogBlock_spec (h : Quiet dev P k) (hdev : dev ≠ 0) (hlen : P.length < nbuf)
    (hsrc : src ∈ P) (hdst : dst ∉ P) :
    wp (writeLogBlock dev src dst) (fun _ k' => Quiet dev P k' ∧ k'.log = k.log ∧
      k'.disk = update k.disk dst (k.content dev src) ∧
      k'.writes = k.writes ++ [(dst, k.content dev src)] ∧
      KeepsOthers dev dst P k k') E k := by
  have hne : src ≠ dst := by
    rintro rfl
    exact hdst hsrc
  have hpd : pins P dst = 0 := if_neg hdst
  have hps : pins P src = 1 := if_pos hsrc
  unfold writeLogBlock
  refine wp_seq (bread_spec h hdev rfl (fun _ hb => pins_pos hb) (.inr hlen)) ?_
  rintro _ k1 ⟨v1, s1, c1, _⟩
  refine wp_seq (bread_spec (L := dst :: P) v1 hdev (by simp [hne, unlocked]) ?_
    (.inl (by simp [hne, hps]))) ?_
  · intro b hb
    by_cases hbd : b = dst
    · simp [hbd]
    · rw [update_of_ne hbd] at hb
      exact mem_cons_of_mem _ (pins_pos hb)
  rintro _ k2 ⟨v2, s2, c2, e2⟩
  have hsrc2 : k2.content dev src = k.content dev src := by
    rcases c1 src with hc | ⟨h0, _⟩
    · rw [e2, hc]
    · omega
  refine wp_bind (bdata_spec v2 (by simp) ?_)
  refine wp_seq (setData_spec v2 (by simp [hne.symm]) _) ?_
  rintro _ k3 ⟨v3, s3, e3, o3⟩
  refine wp_seq (bwrite_spec v3 (by simp [hne.symm])) ?_
  rintro _ k4 ⟨v4, l4, d4, w4, o4⟩
  refine wp_seq (brelse_spec v4 (by simp)) ?_
  rintro _ k5 ⟨v5, s5, o5⟩
  refine wp_post (brelse_spec v5 (by simp [hne.symm])) ?_
  rintro _ k6 ⟨v6, s6, o6⟩
  have hdisk : k6.disk = update k.disk dst (k.content dev src) := by
    rw [s6.disk, s5.disk, d4, e3, hsrc2, s3.disk, s2.disk, s1.disk]
  refine ⟨?_, ?_, hdisk, ?_, ?_, ?_⟩
  · unfold Quiet
    convert v6 using 1
    · funext b
      by_cases h1 : b = dst
      · subst h1
        simp [hpd, hne.symm]
      · by_cases h2 : b = src
        · subst h2
          simp [h1, hps]
        · simp [h1]
    · funext b
      by_cases h1 : b = dst
      · simp [h1, unlocked]
      · by_cases h2 : b = src
        · simp [h2, hne, unlocked]
        · simp [h1, h2, unlocked]
  · rw [s6.log, s5.log, l4, s3.log, s2.log, s1.log]
  · rw [s6.writes, s5.writes, w4, e3, hsrc2, s3.writes, s2.writes, s1.writes]
  · intro b hb
    rw [o6, o5, o4, o3 b hb]
    rcases c2 b with hc2 | ⟨hr2, hc2⟩
    · rw [hc2]
      rcases c1 b with hc1 | ⟨hr1, hc1⟩
      · exact .inl hc1
      · exact .inr ⟨fun hm => by simp [pins, hm] at hr1, hc1⟩
    · rw [update_of_ne hb] at hr2
      refine .inr ⟨fun hm => by simp [pins, hm] at hr2, ?_⟩
      rw [hc2, s1.disk]
  · rw [hdisk, update_self, o6, o5, o4, e3, hsrc2]

lemma Quiet.congr {P' : List ℕ} (h : Quiet dev P k) (hP : ∀ b, b ∈ P' ↔ b ∈ P) :
    Quiet dev P' k := by
  have he : pins P' = pins P := by
    funext b
    simp [pins, hP b]
  unfold Quiet
  rw [he]
  exact h

theorem writeHead_spec (h : Quiet k.log.dev P k) (hdev : k.log.dev ≠ 0)
    (hlen : P.length < nbuf) (hstart : k.log.start ∉ P) :
    wp writeHead (fun _ k' => Quiet k.log.dev P k' ∧ k'.log = k.log ∧
      k'.disk = update k.disk k.log.start
        (putHeader (k.content k.log.dev k.log.start) k.log.lh) ∧
      k'.writes = k.writes ++
        [(k.log.start, putHeader (k.content k.log.dev k.log.start) k.log.lh)] ∧
      KeepsOthers k.log.dev k.log.start P k k') E k := by
  have hp : pins P k.log.start = 0 := if_neg hstart
  unfold writeHead
  refine wp_bind (wp_get ?_)
  refine wp_seq (bread_spec h hdev rfl (fun _ hb => pins_pos hb) (.inr hlen)) ?_
  rintro _ k1 ⟨v1, s1, c1, e1⟩
  refine wp_bind (bdata_spec v1 (by simp) ?_)
  refine wp_seq (setData_spec v1 (by simp) _) ?_
  rintro _ k2 ⟨v2, s2, e2, o2⟩
  refine wp_seq (bwrite_spec v2 (by simp)) ?_
  rintro _ k3 ⟨v3, l3, d3, w3, o3⟩
  refine wp_post (brelse_spec v3 (by simp)) ?_
  rintro _ k4 ⟨v4, s4, o4⟩
  refine ⟨?_, ?_, ?_, ?_, ?_, ?_⟩
  · unfold Quiet
    convert v4 using 1
    · funext b
      by_cases hb : b = k.log.start
      · subst hb
        simp [hp]
      · simp [hb]
    · funext b
      by_cases hb : b = k.log.start
      · simp [hb, unlocked]
      · simp [hb, unlocked]
  · rw [s4.log, l3, s2.log, s1.log]
  · rw [s4.disk, d3, e2, e1, s2.disk, s1.disk]
  · rw [s4.writes, w3, e2, e1, s2.writes, s1.writes]
  · intro b hb
    rw [o4, o3, o2 b hb]
    rcases c1 b with hc | ⟨hr, hc⟩
    · exact .inl hc
    · exact .inr ⟨fun hm => by simp [pins, hm] at hr, hc⟩
  · rw [s4.disk, d3, update_self, o4, o3]

/-- `install_trans` copies a log block home; outside recovery it also drops the pin. -/
lemma installBlock_spec {recovering : Bool} (h : Quiet dev P k) (hdev : dev ≠ 0)
    (hlen : P.length + 1 < nbuf ∨ dst ∈ P ∧ P.length < nbuf) (hsrc : src ∉ P) (hne : src ≠ dst)
    (hpin : recovering = false ↔ dst ∈ P) :
    wp (installBlock recovering dev src dst) (fun _ k' =>
      Quiet dev (P.filter (· ≠ dst)) k' ∧ k'.log = k.log ∧
      k'.disk = update k.disk dst (k.content dev src) ∧
      k'.writes = k.writes ++ [(dst, k.content dev src)] ∧
      KeepsOthers dev dst P k k') E k := by
  have hps : pins P src = 0 := if_neg hsrc
  unfold installBlock
  refine wp_seq (bread_spec h hdev rfl (fun _ hb => pins_pos hb) (.inr (by omega))) ?_
  rintro _ k1 ⟨v1, s1, c1, e1⟩
  refine wp_seq (bread_spec (L := src :: P) v1 hdev (by simp [hne.symm, unlocked]) ?_ ?_) ?_
  · intro b hb
    by_cases hbs : b = src
    · simp [hbs]
    · rw [update_of_ne hbs] at hb
      exact mem_cons_of_mem _ (pins_pos hb)
  · rcases hlen with hlen | ⟨hmem, _⟩
    · exact .inr (by simpa using hlen)
    · exact .inl (by simp [hne.symm, pins, hmem])
  rintro _ k2 ⟨v2, s2, c2, _⟩
  have hsrc2 : k2.content dev src = k.content dev src := by
    rcases c2 src with hc | ⟨h0, _⟩
    · rw [hc, e1]
    · simp at h0
  refine wp_bind (bdata_spec v2 (by simp [hne]) ?_)
  refine wp_seq (setData_spec v2 (by simp) _) ?_
  rintro _ k3 ⟨v3, s3, e3, o3⟩
  refine wp_seq (bwrite_spec v3 (by simp)) ?_
  rintro _ k4 ⟨v4, l4, d4, w4, o4⟩
  have hunpin : wp (unpinInstalled recovering dev dst) (fun _ k5 =>
      View dev k5 (update (update (pins P) src 1) dst 1)
        (update (update unlocked src true) dst true) ∧
      SameDisk k4 k5 ∧ ∀ b, k5.content dev b = k4.content dev b) E k4 := by
    cases recovering with
    | true =>
      have hnot : dst ∉ P := fun hm => by simpa using hpin.mpr hm
      have hpd : pins P dst = 0 := if_neg hnot
      refine wp_pure ⟨?_, ⟨rfl, rfl, rfl⟩, fun _ => rfl⟩
      simpa [hps, hpd, hne.symm] using v4
    | false =>
      have hmem : dst ∈ P := hpin.mp rfl
      have hpd : pins P dst = 1 := if_pos hmem
      have hsp := bunpin_spec (E := E) v4 (b := dst) (by simp) (by simp [hne.symm, hpd])
      simpa [unpinInstalled, hps, hpd, hne.symm] using hsp
  refine wp_seq hunpin ?_
  rintro _ k5 ⟨v5, s5, o5⟩
  refine wp_seq (brelse_spec v5 (b := src) (by simp [hne])) ?_
  rintro _ k6 ⟨v6, s6, o6⟩
  refine wp_post (brelse_spec v6 (b := dst) (by simp [hne.symm])) ?_
  rintro _ k7 ⟨v7, s7, o7⟩
  refine ⟨?_, ?_, ?_, ?_, ?_, ?_⟩
  · unfold Quiet
    convert v7 using 1
    · funext b
      by_cases h1 : b = dst
      · subst h1
        simp [pins, hne.symm]
      · by_cases h2 : b = src
        · subst h2
          simp [h1, pins, hsrc]
        · simp [h1, h2, pins]
    · funext b
      by_cases h1 : b = dst
      · simp [h1, unlocked]
      · by_cases h2 : b = src
        · simp [h2, hne, unlocked]
        · simp [h1, h2, unlocked]
  · rw [s7.log, s6.log, s5.log, l4, s3.log, s2.log, s1.log]
  · rw [s7.disk, s6.disk, s5.disk, d4, e3, hsrc2, s3.disk, s2.disk, s1.disk]
  · rw [s7.writes, s6.writes, s5.writes, w4, e3, hsrc2, s3.writes, s2.writes, s1.writes]
  · intro b hb
    rw [o7, o6, o5, o4, o3 b hb]
    rcases c2 b with hc2 | ⟨hr2, hc2⟩
    · rw [hc2]
      rcases c1 b with hc1 | ⟨hr1, hc1⟩
      · exact .inl hc1
      · exact .inr ⟨fun hm => by simp [pins, hm] at hr1, hc1⟩
    · have hbs : b ≠ src := by
        rintro rfl
        simp at hr2
      rw [update_of_ne hbs] at hr2
      refine .inr ⟨fun hm => by simp [pins, hm] at hr2, ?_⟩
      rw [hc2, s1.disk]
  · rw [s7.disk, s6.disk, s5.disk, d4, update_self, o7, o6, o5, o4]

/-- What `log_write` and its callers guarantee of a transaction: no block twice, room in the
log and the cache, and home blocks outside the log area. -/
structure Loggable (log : Log) : Prop where
  dev : log.dev ≠ 0
  nodup : log.lh.Nodup
  cache : log.lh.length < nbuf
  room : log.lh.length < log.size
  home : ∀ b ∈ log.lh, b < log.start ∨ log.start + log.size ≤ b
  uint : ∀ b ∈ log.lh, b < 2 ^ 32

variable {i : ℕ}

theorem Loggable.notMem {log : Log} (h : Loggable log) (hi : i ≤ log.lh.length) :
    log.start + i ∉ log.lh := by
  intro hm
  have hb := h.home _ hm
  have hr := h.room
  omega

variable {lh : List ℕ}

theorem getD_mem (hi : i < lh.length) : lh.getD i 0 ∈ lh := by
  rw [getD_eq_getElem _ _ hi]
  exact getElem_mem hi

def copies (log : Log) (D : ℕ → Block) (n : ℕ) : List (ℕ × Block) :=
  (range n).map fun i => (log.start + i + 1, D i)

def installs (log : Log) (D : ℕ → Block) (n : ℕ) : List (ℕ × Block) :=
  (range n).map fun i => (log.lh.getD i 0, D i)

lemma copies_succ (log : Log) (D : ℕ → Block) (n : ℕ) :
    copies log D (n + 1) = copies log D n ++ [(log.start + n + 1, D n)] := by
  simp [copies, range_succ]

lemma installs_succ (log : Log) (D : ℕ → Block) (n : ℕ) :
    installs log D (n + 1) = installs log D n ++ [(log.lh.getD n 0, D n)] := by
  simp [installs, range_succ]

def Copied (log : Log) (D : ℕ → Block) (n : ℕ) (k : Kernel) : Prop :=
  ∀ i, i < n → k.content log.dev (log.start + i + 1) = D i ∧ k.disk (log.start + i + 1) = D i

lemma Copied.keep {log : Log} {D : ℕ → Block} {n : ℕ}
    (h : Copied log D n k) (hk : KeepsOthers log.dev dst P k k')
    (hd : k'.disk = update k.disk dst d) (hne : ∀ i, i < n → log.start + i + 1 ≠ dst) :
    Copied log D n k' := by
  intro i hi
  obtain ⟨hc, hdk⟩ := h i hi
  refine ⟨?_, ?_⟩
  · rcases hk.others _ (hne i hi) with he | ⟨_, he⟩
    · rw [he, hc]
    · rw [he, hdk]
  · rw [hd, update_of_ne (hne i hi), hdk]

def logged (k : Kernel) (i : ℕ) : Block := k.content k.log.dev (k.log.lh.getD i 0)

lemma writeLog_spec (hL : Loggable k.log) (h : Quiet k.log.dev k.log.lh k) :
    wp writeLog (fun _ k' => Quiet k.log.dev k.log.lh k' ∧ k'.log = k.log ∧
      Wrote k (copies k.log (logged k) k.log.n) k' ∧
      Copied k.log (logged k) k.log.n k' ∧
      ∀ b, Coherent k.log.dev k b → Coherent k.log.dev k' b) E k := by
  have hn : k.log.n = k.log.lh.length := rfl
  unfold writeLog
  refine wp_bind (wp_get ?_)
  refine wp_post (wp_forRange (I := fun i t => Quiet k.log.dev k.log.lh t ∧ t.log = k.log ∧
    Wrote k (copies k.log (logged k) i) t ∧ Copied k.log (logged k) i t ∧
    (∀ b ∈ k.log.lh, t.content k.log.dev b = k.content k.log.dev b) ∧
    ∀ b, Coherent k.log.dev k b → Coherent k.log.dev t b) ?_ ?_) ?_
  · rintro i t hi ⟨hq, hlog, hw, hcop, hcont, hco⟩
    have hsrc : k.log.lh.getD i 0 ∈ k.log.lh := getD_mem (by omega)
    have hdst : k.log.start + i + 1 ∉ k.log.lh := hL.notMem (i := i + 1) (by omega)
    refine wp_post (writeLogBlock_spec hq hL.dev hL.cache hsrc hdst) ?_
    rintro _ u ⟨hq', hlog', hd, hwr, hkeep⟩
    rw [hcont _ hsrc] at hd hwr
    refine ⟨hq', by rw [hlog', hlog], ?_, ?_, ?_, fun b hb => hkeep.coherent hd (.inl (hco b hb))⟩
    · rw [copies_succ]
      exact hw.snoc hd hwr
    · intro j hj
      by_cases hji : j = i
      · subst hji
        have hdisk : u.disk (k.log.start + j + 1) = logged k j := by
          rw [hd, update_self]
          rfl
        exact ⟨hkeep.here.trans hdisk, hdisk⟩
      · exact hcop.keep hkeep hd (fun j' hj' => by omega) j (by omega)
    · intro b hb
      have hbd : b ≠ k.log.start + i + 1 := by
        rintro rfl
        exact hdst hb
      rcases hkeep.others b hbd with he | ⟨hnb, _⟩
      · rw [he, hcont b hb]
      · exact absurd hb hnb
  · exact ⟨h, rfl, Wrote.nil k, fun i hi => by omega, fun _ _ => rfl, fun _ hb => hb⟩
  · rintro _ t ⟨hq, hlog, hw, hcop, _, hco⟩
    exact ⟨hq, hlog, hw, hcop, hco⟩

lemma mem_drop_succ_iff (hn : lh.Nodup) (hi : i < lh.length) (b : ℕ) :
    b ∈ lh.drop (i + 1) ↔ b ∈ (lh.drop i).filter (· ≠ lh.getD i 0) := by
  rw [getD_eq_getElem _ _ hi, drop_eq_getElem_cons hi]
  have hnot : lh[i] ∉ lh.drop (i + 1) := by
    have hd : (lh.drop i).Nodup := hn.sublist (drop_sublist i lh)
    rw [drop_eq_getElem_cons hi] at hd
    exact (nodup_cons.mp hd).1
  simp only [mem_filter, mem_cons, decide_eq_true_eq]
  constructor
  · intro hb
    refine ⟨.inr hb, ?_⟩
    rintro rfl
    exact hnot hb
  · rintro ⟨hb | hb, hne⟩
    · exact absurd hb hne
    · exact hb

def pinned (recovering : Bool) (lh : List ℕ) (i : ℕ) : List ℕ :=
  if recovering then [] else lh.drop i

theorem installTrans_spec {recovering : Bool} {D : ℕ → Block} (hL : Loggable k.log)
    (h : Quiet k.log.dev (pinned recovering k.log.lh 0) k) (hcop : Copied k.log D k.log.n k) :
    wp (installTrans recovering) (fun _ k' => Quiet k.log.dev [] k' ∧ k'.log = k.log ∧
      Wrote k (installs k.log D k.log.n) k' ∧
      ∀ b, Coherent k.log.dev k b ∨ b ∈ k.log.lh → Coherent k.log.dev k' b) E k := by
  have hn : k.log.n = k.log.lh.length := rfl
  unfold installTrans
  refine wp_bind (wp_get ?_)
  refine wp_post (wp_forRange (I := fun i t =>
    Quiet k.log.dev (pinned recovering k.log.lh i) t ∧ t.log = k.log ∧
    Wrote k (installs k.log D i) t ∧ Copied k.log D k.log.n t ∧
    ∀ b, Coherent k.log.dev k b ∨ b ∈ k.log.lh.take i → Coherent k.log.dev t b) ?_ ?_) ?_
  · rintro i t hi ⟨hq, hlog, hw, hc, hco⟩
    have hil : i < k.log.lh.length := by omega
    have hdst : k.log.lh.getD i 0 ∈ k.log.lh := getD_mem hil
    have hnot : ∀ j, j < k.log.n → k.log.start + j + 1 ∉ k.log.lh := fun j hj =>
      hL.notMem (i := j + 1) (by omega)
    have hne : k.log.start + i + 1 ≠ k.log.lh.getD i 0 := fun he => hnot i hi (he ▸ hdst)
    have hsub : ∀ b ∈ pinned recovering k.log.lh i, b ∈ k.log.lh := by
      intro b hb
      cases recovering with
      | true => simp [pinned] at hb
      | false => exact mem_of_mem_drop hb
    have hpin : recovering = false ↔ k.log.lh.getD i 0 ∈ pinned recovering k.log.lh i := by
      cases recovering with
      | true => simp [pinned]
      | false =>
        simp only [pinned, Bool.false_eq_true, if_false, true_iff]
        rw [getD_eq_getElem _ _ hil, drop_eq_getElem_cons hil]
        exact mem_cons_self
    have hlen : (pinned recovering k.log.lh i).length + 1 < nbuf ∨
        k.log.lh.getD i 0 ∈ pinned recovering k.log.lh i ∧
          (pinned recovering k.log.lh i).length < nbuf := by
      have hcache := hL.cache
      cases recovering with
      | true => exact .inl (by simp [pinned, nbuf, maxOpBlocks])
      | false => exact .inr ⟨hpin.mp rfl, by simp [pinned]; omega⟩
    refine wp_post (installBlock_spec hq hL.dev hlen (fun hb => hnot i hi (hsub _ hb)) hne hpin) ?_
    rintro _ u ⟨hq', hlog', hd, hwr, hkeep⟩
    rw [(hc i hi).1] at hd hwr
    refine ⟨?_, by rw [hlog', hlog], ?_, ?_, ?_⟩
    · refine hq'.congr ?_
      intro b
      cases recovering with
      | true => simp [pinned]
      | false => exact mem_drop_succ_iff hL.nodup hil b
    · rw [installs_succ]
      exact hw.snoc hd hwr
    · exact hc.keep hkeep hd fun j hj he => hnot j hj (he ▸ hdst)
    · intro b hb
      refine hkeep.coherent hd ?_
      rw [take_add_one, mem_append] at hb
      rcases hb with hb | hb | hb
      · exact .inl (hco b (.inl hb))
      · exact .inl (hco b (.inr hb))
      · right
        simpa [getD_eq_getElem _ _ hil, hil] using hb
  · exact ⟨h, rfl, Wrote.nil k, hcop, fun b hb => by simpa using hb⟩
  · rintro _ t ⟨hq, hlog, hw, _, hco⟩
    refine ⟨hq.congr ?_, hlog, hw, ?_⟩
    · intro b
      cases recovering with
      | true => simp [pinned]
      | false => simp [pinned, hn]
    · intro b hb
      refine hco b ?_
      rwa [hn, take_length]

theorem quiet_setLh (h : Quiet dev P k) :
    Quiet dev P { k with log := { k.log with lh := lh } } :=
  ⟨h.cache, h.found, h.absent, h.valid, h.held⟩

def commitWrites (k : Kernel) (d d' : Block) : List (ℕ × Block) :=
  copies k.log (logged k) k.log.n ++ [(k.log.start, putHeader d k.log.lh)] ++
    installs k.log (logged k) k.log.n ++ [(k.log.start, putHeader d' [])]

theorem Wrote.trans {ws vs : List (ℕ × Block)} (h : Wrote k0 ws k)
    (h' : Wrote k vs k') : Wrote k0 (ws ++ vs) k' := by
  constructor
  · rw [h'.writes, h.writes, append_assoc]
  · rw [h'.disk, h.disk, DiskWrites.apply_append]

/-- `commit` of a nonempty transaction succeeds and makes exactly these writes. -/
theorem commit_spec (hL : Loggable k.log) (h : Quiet k.log.dev k.log.lh k) (hpos : 0 < k.log.n) :
    wp commit (fun _ k' => Quiet k.log.dev [] k' ∧ k'.log = { k.log with lh := [] } ∧
      (∃ d d', Wrote k (commitWrites k d d') k') ∧
      ∀ b, Coherent k.log.dev k b ∨ b ∈ k.log.lh → Coherent k.log.dev k' b) E k := by
  have hstart : k.log.start ∉ k.log.lh := hL.notMem (i := 0) (by omega)
  unfold commit
  refine wp_bind (wp_get ?_)
  rw [if_pos hpos]
  refine wp_seq (writeLog_spec hL h) ?_
  rintro _ k1 ⟨q1, l1, w1, c1, co1⟩
  have hhead := writeHead_spec (E := E) (k := k1) (P := k.log.lh) (by rw [l1]; exact q1)
    (by rw [l1]; exact hL.dev) hL.cache (by rw [l1]; exact hstart)
  rw [l1] at hhead
  refine wp_seq hhead ?_
  rintro _ k2 ⟨q2, l2, d2, w2, o2⟩
  have c2 : Copied k.log (logged k) k.log.n k2 := c1.keep o2 d2 fun i _ => by omega
  have hpin : Quiet k2.log.dev (pinned false k2.log.lh 0) k2 := by
    rw [l2]
    exact q2
  have hinst := installTrans_spec (E := E) (D := logged k) (by rw [l2]; exact hL) hpin
    (by rw [l2]; exact c2)
  rw [l2] at hinst
  refine wp_seq hinst ?_
  rintro _ k3 ⟨q3, l3, w3, co3⟩
  refine wp_bind (wp_modify ?_)
  let k4 : Kernel := { k3 with log := { k3.log with lh := [] } }
  have l4 : k4.log = { k.log with lh := [] } := by rw [← l3]
  have q4 : Quiet k4.log.dev [] k4 := by
    rw [l4]
    exact quiet_setLh q3
  have hlast := writeHead_spec (E := E) (k := k4) q4 (by rw [l4]; exact hL.dev) (by decide)
    (by simp)
  refine wp_post hlast ?_
  rintro _ k5 ⟨q5, l5, d5, w5, o5⟩
  rw [l4] at q5 l5 d5 w5 o5
  refine ⟨q5, l5, ⟨k1.content k.log.dev k.log.start, k4.content k.log.dev k.log.start, ?_⟩, ?_⟩
  · have hw2 := w1.snoc d2 w2
    have hw3 := hw2.trans w3
    have hw4 : Wrote k _ k4 := ⟨hw3.writes, hw3.disk⟩
    exact hw4.snoc d5 w5
  · intro b hb
    have h3 : Coherent k.log.dev k3 b := by
      refine co3 b (hb.imp ?_ id)
      intro hc
      exact o2.coherent d2 (.inl (co1 b hc))
    exact o5.coherent d5 (.inl h3)

end Xv6
