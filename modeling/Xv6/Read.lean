import Xv6.PageRefinement

/-! `read` into user memory, from a pipe, the console or an inode: which bytes are stored. An inode
file is its bytes; of the pipe and the console the model has what the call finds there. -/
namespace Xv6.Read

open Program Vm List

/-- What `piperead` finds once it has waited: bytes, or that the process has been killed. -/
inductive PipeInput
  | killed
  | data (bytes : List Byte)

structure InodeFile where
  off : ℕ
  contents : List Byte
  off_lt : off < 2 ^ 32
  size_lt : contents.length < 2 ^ 32

/-- The type of an open file. The characters of the console are those that the waits of
`consoleread` end with; none stands for a wait in which the process is killed. -/
inductive Kind
  | pipe (input : PipeInput)
  | device (major : ℤ) (input : List (Option Byte))
  | inode (ip : InodeFile)

structure File where
  readable : Bool
  kind : Kind

def ndev : ℤ := 10

def console : ℤ := 1

/-- The loop of `piperead`, at `i`: the result, and the bytes that are left. A byte that cannot be
copied is gone. -/
def pipereadFrom (root addr : ℕ) (n : ℤ) : List Byte → ℕ → M (ℤ × List Byte)
  | [], i => return (i, [])
  | ch :: data, i =>
      if i < n then do
        if ← copyout root ((addr + i) % 2 ^ 64) [ch] then pipereadFrom root addr n data (i + 1)
        else return (i, data)
      else return (i, ch :: data)

def piperead (root addr : ℕ) (n : ℤ) : PipeInput → M (ℤ × List Byte)
  | .killed => return (-1, [])
  | .data bytes => pipereadFrom root addr n bytes 0

def ctrlD : Byte := 4

def newline : Byte := 10

/-- The loop of `consoleread`: the result, and the input that is left; no result while the process
waits. -/
def consolereadFrom (root : ℕ) (target : ℤ) :
    List (Option Byte) → ℕ → ℤ → M (Option ℤ × List (Option Byte))
  | input, dst, n =>
      if 0 < n then
        match input with
        | [] => return (none, [])
        | none :: input => return (some (-1), input)
        | some c :: input =>
            if c = ctrlD then
              -- kept for the next call, which is to return 0
              if n < target then return (some (target - n), some c :: input)
              else return (some (target - n), input)
            else do
              if ← copyout root dst [c] then
                if c = newline then return (some (target - (n - 1)), input)
                else consolereadFrom root target input ((dst + 1) % 2 ^ 64) (n - 1)
              else return (some (target - n), input)
      else return (some (target - n), input)

def consoleread (root dst : ℕ) (n : ℤ) (input : List (Option Byte)) :
    M (Option ℤ × List (Option Byte)) :=
  consolereadFrom root n input dst n

def readiFrom (root : ℕ) (contents : List Byte) (n : ℕ) : ℕ → ℕ → ℕ → ℕ → M ℤ
  | 0, tot, _, _ => return tot
  | fuel + 1, tot, off, dst =>
      if tot < n then do
        let m := min (n - tot) (bsize - off % bsize)
        if ← copyout root dst ((contents.drop off).take m) then
          readiFrom root contents n fuel (tot + m) (off + m) ((dst + m) % 2 ^ 64)
        else return -1
      else return tot

/-- `readi` to a user address; `n` is a `uint`. -/
def readi (root dst : ℕ) (ip : InodeFile) (n : ℕ) : M ℤ :=
  let size := ip.contents.length
  if size < ip.off ∨ (ip.off + n) % 2 ^ 32 < ip.off then return 0
  else
    let n := if size < (ip.off + n) % 2 ^ 32 then size - ip.off else n
    readiFrom root ip.contents n n 0 ip.off dst

/-- `fileread`: the result, none while the process waits, and the file. -/
def fileread (root : ℕ) (f : File) (addr : ℕ) (n : BitVec 32) : M (Option ℤ × File) :=
  if ¬ f.readable then return (some (-1), f)
  else
    match f.kind with
    | .pipe input => do
        let (r, data) ← piperead root addr n.toInt input
        return (some r, { f with kind := .pipe (.data data) })
    | .device major input =>
        if major < 0 ∨ ndev ≤ major ∨ major ≠ console then return (some (-1), f)
        else do
          let (r, input) ← consoleread root addr n.toInt input
          return (r, { f with kind := .device major input })
    | .inode ip => do
        let r ← readi root addr ip n.toNat
        let off := if 0 < r then (ip.off + r.toNat) % 2 ^ 32 else ip.off
        return (some r, { f with kind := .inode { ip with
          off := off
          off_lt := by
            have := ip.off_lt
            unfold off
            split_ifs <;> omega } })

def sysRead (root : ℕ) (f : Option File) (addr : ℕ) (n : BitVec 32) : M (Option ℤ × Option File) :=
  match f with
  | none => return (some (-1), none)
  | some f => do
      let (r, f) ← fileread root f addr n
      return (r, some f)

def Within (m : Mach) (f : ℕ → Word) (lo hi : ℕ) (m' : Mach) : Prop :=
  ∀ p j, (∀ a, lo ≤ a → a < hi → Writable f a → framePage f a = p → a % pgsize ≠ j.val) →
    m'.mem p j = m.mem p j

/-- `read(fd, addr, n)` has stored no more than `n` bytes, and says so; nothing for a negative
`n`. -/
def NoMore (m : Mach) (f : ℕ → Word) (addr : ℕ) (n : ℤ) (r : Option ℤ) (m' : Mach) : Prop :=
  (∀ v, r = some v → v ≤ max n 0) ∧ Within m f addr (addr + (max n 0).toNat) m'

section within
variable {m m' m'' : Mach} {f : ℕ → Word} {lo mid hi va k : ℕ} {src : List Byte}

lemma Within.refl : Within m f lo hi m := fun _ _ _ => rfl

lemma Within.trans (h : Within m f lo mid m') (h' : Within m' f va hi m'') (h1 : mid ≤ hi)
    (h2 : lo ≤ va) : Within m f lo hi m'' := by
  intro p j hout
  rw [h' p j fun a ha1 ha2 => hout a (by omega) ha2, h p j fun a ha1 ha2 => hout a ha1 (by omega)]

lemma Within.mono (h : Within m f lo mid m') (h1 : mid ≤ hi) : Within m f lo hi m' :=
  fun p j hout => h p j fun a ha1 ha2 => hout a ha1 (by omega)

lemma within_of_stored (h : Stored m f va k src m') (hk : va + k ≤ hi) : Within m f va hi m' := by
  intro p j hout
  exact h.frame p j fun i hi hp => hout (va + i) (by omega) (by omega) (h.writable i hi) hp

end within

section spec
variable [Image] {m : Mach} {root np tf addr dst : ℕ} {f : ℕ → Word} {X : Multiset ℕ}

section
variable (hs : Space m root np tf f X) (hd : X + frames f 0 np ≤ ram)
include hs hd

lemma copyout_within {src : List Byte} (hdst : dst < 2 ^ 64) :
    wp (copyout root dst src) (fun ok m' => Space m' root np tf f X ∧
      Within m f dst (dst + src.length) m' ∧ (ok = true → dst + src.length < 2 ^ 64 ∧
        Stored m f dst src.length src m')) never m := by
  refine wp_post (copyout_stores hs hd) ?_
  rintro ok m' ⟨k, hk, hst, htrue, -⟩
  refine ⟨hst.space hs hd, within_of_stored hst (by omega), fun hok => ?_⟩
  obtain rfl := htrue hok
  refine ⟨?_, hst⟩
  rcases Nat.eq_zero_or_pos src.length with h0 | hpos
  · omega
  · have hlast := (hst.writable (src.length - 1) (by omega)).1.1
    unfold maxva at hlast
    omega

lemma pipereadFrom_within {data : List Byte} {n : ℤ} {i : ℕ} (haddr : addr + i < 2 ^ 64)
    (hi : (i : ℤ) ≤ max n 0) :
    wp (pipereadFrom root addr n data i) (fun r m' => r.1 ≤ max n 0 ∧
      Within m f (addr + i) (addr + (max n 0).toNat) m') never m := by
  induction data generalizing m i with
  | nil => exact wp_pure ⟨hi, Within.refl⟩
  | cons ch data ih =>
    unfold pipereadFrom
    split_ifs with hlt
    · rw [Nat.mod_eq_of_lt haddr]
      refine wp_seq (copyout_within hs hd haddr) ?_
      rintro (_ | _) m1 ⟨hs1, hw, hok⟩
      · rw [if_neg (by decide)]
        exact wp_pure ⟨hi, hw.mono (by simp only [length_singleton]; omega)⟩
      · rw [if_pos rfl]
        have hnext := (hok rfl).1
        simp only [length_singleton] at hnext
        refine wp_post (ih hs1 (i := i + 1) (by omega) (by omega)) ?_
        rintro r m' ⟨hr, hw'⟩
        exact ⟨hr, hw.trans hw' (by simp only [length_singleton]; omega) (by omega)⟩
    · exact wp_pure ⟨hi, Within.refl⟩

lemma consolereadFrom_within {input : List (Option Byte)} {target n : ℤ} (hdst : dst < 2 ^ 64)
    (hn : n ≤ target) (htn : target - n ≤ max target 0) :
    wp (consolereadFrom root target input dst n) (fun r m' =>
      (∀ v, r.1 = some v → v ≤ max target 0) ∧
      Within m f dst (dst + (max n 0).toNat) m') never m := by
  induction input generalizing m dst n with
  | nil =>
    unfold consolereadFrom
    by_cases hpos : 0 < n
    · rw [if_pos hpos]
      exact wp_pure ⟨fun _ h => (by cases h), Within.refl⟩
    · rw [if_neg hpos]
      refine wp_pure ⟨?_, Within.refl⟩
      rintro _ ⟨⟩
      exact htn
  | cons c input ih =>
    have hret : ∀ v, some (target - n) = some v → v ≤ max target 0 := by
      rintro _ ⟨⟩
      exact htn
    unfold consolereadFrom
    by_cases hpos : 0 < n
    swap
    · rw [if_neg hpos]
      exact wp_pure ⟨hret, Within.refl⟩
    rw [if_pos hpos]
    cases c with
    | none =>
      refine wp_pure ⟨?_, Within.refl⟩
      rintro _ ⟨⟩
      omega
    | some c =>
      by_cases hc : c = ctrlD
      · simp only [hc, if_true]
        split_ifs
        · exact wp_pure ⟨hret, Within.refl⟩
        · exact wp_pure ⟨hret, Within.refl⟩
      · simp only [hc, if_false]
        refine wp_seq (copyout_within hs hd hdst) ?_
        simp only [length_singleton]
        rintro (_ | _) m1 ⟨hs1, hw, hok⟩
        · rw [if_neg (by decide)]
          exact wp_pure ⟨hret, hw.mono (by omega)⟩
        · rw [if_pos rfl]
          have hnext := (hok rfl).1
          split_ifs with hnl
          · refine wp_pure ⟨?_, hw.mono (by omega)⟩
            rintro _ ⟨⟩
            omega
          · rw [Nat.mod_eq_of_lt hnext]
            refine wp_post (ih hs1 hnext (by omega) (by omega)) ?_
            rintro r m' ⟨hr, hw'⟩
            exact ⟨hr, hw.trans (hw'.mono (by omega)) (by omega) (by omega)⟩

lemma readiFrom_within {contents : List Byte} {n fuel tot off : ℕ} (hdst : dst < 2 ^ 64)
    (htot : tot ≤ n) (hoff : off + (n - tot) ≤ contents.length) :
    wp (readiFrom root contents n fuel tot off dst) (fun r m' => r ≤ n ∧
      Within m f dst (dst + (n - tot)) m') never m := by
  induction fuel generalizing m tot off dst with
  | zero => exact wp_pure ⟨by exact_mod_cast htot, Within.refl⟩
  | succ fuel ih =>
    unfold readiFrom
    split_ifs with hlt
    · set k := min (n - tot) (bsize - off % bsize) with hk
      have hkn : k ≤ n - tot := min_le_left ..
      have hlen : ((contents.drop off).take k).length = k := by
        rw [length_take, length_drop]
        omega
      refine wp_seq (copyout_within hs hd hdst) ?_
      rintro (_ | _) m1 ⟨hs1, hw, hok⟩
      · rw [if_neg (by decide)]
        exact wp_pure ⟨by omega, hw.mono (by omega)⟩
      · rw [if_pos rfl]
        rw [hlen] at hok hw
        rw [Nat.mod_eq_of_lt (hok rfl).1]
        refine wp_post (ih hs1 (hok rfl).1 (by omega) (by omega)) ?_
        rintro r m' ⟨hr, hw'⟩
        exact ⟨hr, hw.trans (hw'.mono (by omega)) (by omega) (by omega)⟩
    · exact wp_pure ⟨by exact_mod_cast htot, Within.refl⟩

end

def InodeFile.count (ip : InodeFile) (n : ℕ) : ℕ :=
  if ip.contents.length < ip.off ∨ (ip.off + n) % 2 ^ 32 < ip.off then 0
  else if ip.contents.length < (ip.off + n) % 2 ^ 32 then ip.contents.length - ip.off else n

omit [Image] in
lemma readi_eq (ip : InodeFile) (n : ℕ) :
    readi root dst ip n = readiFrom root ip.contents (ip.count n) (ip.count n) 0 ip.off dst := by
  unfold readi InodeFile.count
  dsimp only
  split_ifs <;> rfl

omit [Image] in
lemma InodeFile.off_add_count_le (ip : InodeFile) {n : ℕ} (hn : n < 2 ^ 32)
    (hpos : 0 < ip.count n) : ip.off + ip.count n ≤ ip.contents.length := by
  have hoff := ip.off_lt
  unfold count at hpos ⊢
  split_ifs at hpos ⊢ <;> omega

section
variable (hs : Space m root np tf f X) (hd : X + frames f 0 np ≤ ram)
include hs hd

lemma readi_within {ip : InodeFile} {n : ℕ} (hdst : dst < 2 ^ 64) (hn : n < 2 ^ 32) :
    wp (readi root dst ip n) (fun r m' => r ≤ ip.count n ∧
      Within m f dst (dst + ip.count n) m') never m := by
  rw [readi_eq]
  rcases Nat.eq_zero_or_pos (ip.count n) with h0 | hpos
  · rw [h0]
    exact wp_pure ⟨le_rfl, Within.refl⟩
  · exact readiFrom_within hs hd hdst (Nat.zero_le _) (ip.off_add_count_le hn hpos)

/-- Where user memory begins with a page that may be written, a `readi` to address 0 that copies
anything stores the byte at the offset there. -/
lemma readi_stores {ip : InodeFile} {n : ℕ} (hw : ∀ a < pgsize, Writable f a) (hn : n < 2 ^ 32)
    (hpos : 0 < ip.count n) :
    wp (readi root 0 ip n) (fun _ m' => m'.load f 0 = ip.contents.getD ip.off 0) never m := by
  have hoff := ip.off_add_count_le hn hpos
  rw [readi_eq]
  obtain ⟨c, hc⟩ : ∃ c, ip.count n = c + 1 := ⟨ip.count n - 1, by omega⟩
  rw [hc] at hoff ⊢
  unfold readiFrom
  rw [if_pos (by omega)]
  set k := min (c + 1 - 0) (bsize - ip.off % bsize) with hk
  have hk1 : 0 < k := by
    unfold bsize at hk
    omega
  have hkp : k ≤ pgsize := by
    unfold bsize at hk
    unfold pgsize
    omega
  have hlen : ((ip.contents.drop ip.off).take k).length = k := by
    rw [length_take, length_drop]
    omega
  refine wp_seq (copyout_stores hs hd) ?_
  rintro ok m1 ⟨j, hj, hst, htrue, hfalse⟩
  rw [hlen] at hj htrue hfalse
  cases ok with
  | false =>
    obtain ⟨hlt, -, hnw⟩ := hfalse rfl
    exact absurd (hw (0 + j) (by omega)) hnw
  | true =>
    obtain rfl := htrue rfl
    rw [if_pos rfl]
    have hs1 := hst.space hs hd
    have hfirst : m1.load f 0 = ip.contents.getD ip.off 0 := by
      have h0 := hst.stored 0 hk1
      rw [zero_add] at h0
      rw [h0]
      simp only [getD_eq_getElem?_getD, getElem?_take_of_lt hk1, getElem?_drop,
        add_zero]
    rw [Nat.mod_eq_of_lt (by unfold pgsize at hkp; omega)]
    refine wp_post (readiFrom_within hs1 hd (by unfold pgsize at hkp; omega) (by omega) (by omega))
      ?_
    rintro r m' ⟨-, hwith⟩
    rw [← hfirst]
    refine hwith _ _ ?_
    intro a ha1 ha2 haw hpage hmod
    have heq : a = 0 := haw.1.inj (hw 0 (by decide)).1 hs hd hpage (hmod.trans (by simp))
    omega

end

/-- The reads that keep to their count: all but those of an inode file with a negative count that
is not so large as to wrap, before the end of the file. -/
def Allowed (g : File) (n : BitVec 32) : Prop :=
  g.readable = true → ∀ ip, g.kind = .inode ip → n.toInt < 0 →
    ip.contents.length ≤ ip.off ∨ 2 ^ 32 ≤ ip.off + n.toNat

omit [Image] in
lemma InodeFile.count_le {ip : InodeFile} {n : BitVec 32}
    (h : n.toInt < 0 → ip.contents.length ≤ ip.off ∨ 2 ^ 32 ≤ ip.off + n.toNat) :
    (ip.count n.toNat : ℤ) ≤ max n.toInt 0 := by
  have hlt := n.isLt
  have hoff := ip.off_lt
  have hint := n.toInt_eq_toNat_cond
  unfold count
  split_ifs at hint ⊢ <;> omega

lemma fileread_noMore {g : File} {n : BitVec 32} (h : Allowed g n) (hs : Space m root np tf f X)
    (hd : X + frames f 0 np ≤ ram) (haddr : addr < 2 ^ 64) :
    wp (fileread root g addr n) (fun r m' => NoMore m f addr n.toInt r.1 m') never m := by
  have hfail : NoMore m f addr n.toInt (some (-1)) m := by
    refine ⟨?_, Within.refl⟩
    rintro _ ⟨⟩
    omega
  unfold fileread
  by_cases hr : g.readable = true
  swap
  · rw [if_pos hr]
    exact wp_pure hfail
  rw [if_neg (not_not.mpr hr)]
  cases hk : g.kind with
  | pipe input =>
    cases input with
    | killed => exact wp_bind (wp_pure (wp_pure hfail))
    | data bytes =>
      have hloop : wp (pipereadFrom root addr n.toInt bytes 0) (fun r m' => r.1 ≤ max n.toInt 0 ∧
          Within m f (addr + 0) (addr + (max n.toInt 0).toNat) m') never m :=
        pipereadFrom_within hs hd haddr (le_max_right ..)
      refine wp_seq hloop ?_
      rintro ⟨r, data⟩ m' ⟨hr, hw⟩
      refine wp_pure ⟨?_, hw⟩
      rintro _ ⟨⟩
      exact hr
  | device major input =>
    dsimp only
    split_ifs with hmajor
    · exact wp_pure hfail
    · refine wp_seq (consolereadFrom_within hs hd haddr le_rfl (by omega)) ?_
      rintro ⟨r, input⟩ m' hr
      exact wp_pure hr
  | inode ip =>
    refine wp_seq (readi_within hs hd haddr n.isLt) ?_
    rintro r m' ⟨hrc, hw⟩
    have hc := InodeFile.count_le (h hr ip hk)
    refine wp_pure ⟨?_, hw.mono (by omega)⟩
    rintro _ ⟨⟩
    omega

lemma sysRead_stores {g : File} {ip : InodeFile} {n : BitVec 32} (hr : g.readable = true)
    (hk : g.kind = .inode ip) (hpos : 0 < ip.count n.toNat) (hs : Space m root np tf f X)
    (hd : X + frames f 0 np ≤ ram) (hw : ∀ a < pgsize, Writable f a) :
    wp (sysRead root (some g) 0 n) (fun _ m' => m'.load f 0 = ip.contents.getD ip.off 0) never m := by
  refine wp_bind ?_
  unfold fileread
  rw [if_neg (not_not.mpr hr), hk]
  refine wp_seq (readi_stores hs hd hw n.isLt hpos) ?_
  intro _ m' hm'
  exact wp_pure (wp_pure hm')

lemma sysRead_more {g : File} {ip : InodeFile} {n : BitVec 32} (hr : g.readable = true)
    (hk : g.kind = .inode ip) (hneg : n.toInt < 0) (hpos : 0 < ip.count n.toNat)
    (hs : Space m root np tf f X) (hd : X + frames f 0 np ≤ ram) (hw : ∀ a < pgsize, Writable f a)
    (hload : m.load f 0 = ip.contents.getD ip.off 0 + 1) :
    ¬ wp (sysRead root (some g) 0 n) (fun r m' => NoMore m f 0 n.toInt r.1 m') never m := by
  intro hno
  obtain ⟨r, m', ⟨-, hwith⟩, hnew⟩ := exists_of_wp (wp_mono
    (wp_and hno (sysRead_stores hr hk hpos hs hd hw)) (fun _ _ h => h) fun _ _ h => h.1.elim)
  have hsame : m'.load f 0 = m.load f 0 := by
    refine hwith _ _ ?_
    intro a _ ha
    rw [max_eq_right hneg.le] at ha
    exact absurd ha (by simp)
  rw [hnew, hload] at hsame
  simp at hsame

end spec

def grants : Except Halt (Option ℕ) × Mach → Bool
  | (.ok (some root), m) =>
    decide (hasFlag (pteAt m root 0) pteU) && decide (hasFlag (pteAt m root 0) pteW)
  | _ => false

lemma exists_writable (b : Byte) : ∃ m root f X, @Space smallImage m root 1 0 f X ∧
    X + frames f 0 1 ≤ @ram smallImage ∧ (∀ a < pgsize, Writable f a) ∧ m.load f 0 = b := by
  let _ : Image := smallImage
  have hflags : grants ((@onePage smallImage 0).run smallMach) = true := by
    decide +kernel
  have hspec := @onePage_spec smallImage smallMach 0 0 owns_smallMach
  unfold wp at hspec
  rcases hx : (@onePage smallImage 0).run smallMach with ⟨r, m⟩
  rw [hx] at hspec hflags
  rcases r with _ | _ | root
  · exact hspec.elim
  · cases hflags
  · obtain ⟨f, X, hs, hd⟩ := hspec root rfl
    have hpte : pteAt m root 0 = f 0 :=
      pteAt_eq (@Space.maps smallImage _ _ _ _ _ _ hs) (@lt_maxPage_of_le smallImage _ _ _ hd)
        (by decide)
    change (decide (hasFlag (pteAt m root 0) pteU) && decide (hasFlag (pteAt m root 0) pteW)) = true
      at hflags
    rw [hpte] at hflags
    obtain ⟨hu, hw⟩ := Bool.and_eq_true_iff.mp hflags
    have hmem : ptePage (f 0) ∈ frames f 0 1 := mem_frames le_rfl (by omega)
    have hnot : ptePage (f 0) ∉ X := fun h =>
      Multiset.disjoint_left.mp (Multiset.nodup_add.mp
        (Multiset.nodup_of_le hd (Finset.nodup _))).2.2 h hmem
    refine ⟨m.put (ptePage (f 0)) (.fill b), root, f, X,
      ⟨hs.maps.frame (Keeps.put hnot), hs.layout⟩, hd, ?_, ?_⟩
    · intro a ha
      have hdiv : a / pgsize = 0 := Nat.div_eq_of_lt ha
      unfold Writable Readable
      rw [hdiv]
      refine ⟨⟨?_, (hs.layout.user 0 (by omega)).1, of_decide_eq_true hu⟩, of_decide_eq_true hw⟩
      unfold pgsize at ha
      unfold maxva
      omega
    · change (Function.update m.mem (ptePage (f 0)) (.fill b)) (ptePage (f 0)) _ = b
      rw [Function.update_self]
      rfl

/-- `read` stores no more than was asked for, whatever the memory of the process, just for the
reads that `Allowed` describes. -/
theorem read_noMore_iff (g : Option File) (n : BitVec 32) :
    (∀ (_ : Image) (m : Mach) (root np tf addr : ℕ) (f : ℕ → Word) (X : Multiset ℕ),
      Space m root np tf f X → X + frames f 0 np ≤ ram → addr < 2 ^ 64 →
      wp (sysRead root g addr n) (fun r m' => NoMore m f addr n.toInt r.1 m') never m) ↔
    ∀ h, g = some h → Allowed h n := by
  constructor
  · rintro hall h rfl hr ip hk hneg
    by_contra! hbad
    have hcount : 0 < ip.count n.toNat := by
      have hlt := n.isLt
      have hint := n.toInt_eq_toNat_cond
      unfold InodeFile.count
      split_ifs at hint ⊢ <;> omega
    obtain ⟨m, root, f, X, hs, hd, hw, hload⟩ := exists_writable (ip.contents.getD ip.off 0 + 1)
    have hno := hall smallImage m root 1 0 0 f X hs hd (by norm_num)
    exact @sysRead_more smallImage m root 1 0 f X h ip n hr hk hneg hcount hs hd hw hload hno
  · intro hall _ m root np tf addr f X hs hd haddr
    cases g with
    | none =>
      refine wp_pure ⟨?_, Within.refl⟩
      rintro _ ⟨⟩
      omega
    | some h =>
      refine wp_seq (fileread_noMore (hall h rfl) hs hd haddr) ?_
      rintro ⟨r, h'⟩ m' hr
      exact wp_pure hr

def oneByte : InodeFile := ⟨0, [65], by decide, by decide⟩

/-- `read(fd, 0, -1)` of it stores the byte. -/
theorem read_negative_stores : ∃ (_ : Image) (m : Mach) (root : ℕ) (f : ℕ → Word) (X : Multiset ℕ),
    Space m root 1 0 f X ∧ X + frames f 0 1 ≤ ram ∧ m.load f 0 = 66 ∧
    wp (sysRead root (some ⟨true, .inode oneByte⟩) 0 (-1)) (fun _ m' => m'.load f 0 = 65) never m ∧
    ¬ wp (sysRead root (some ⟨true, .inode oneByte⟩) 0 (-1))
      (fun r m' => NoMore m f 0 (-1) r.1 m') never m := by
  obtain ⟨m, root, f, X, hs, hd, hw, hload⟩ := exists_writable 66
  exact ⟨smallImage, m, root, f, X, hs, hd, hload,
    @sysRead_stores smallImage m root 1 0 f X ⟨true, .inode oneByte⟩ oneByte (-1) rfl rfl (by decide)
      hs hd hw,
    @sysRead_more smallImage m root 1 0 f X ⟨true, .inode oneByte⟩ oneByte (-1) rfl rfl (by decide)
      (by decide) hs hd hw hload⟩

theorem read_noMore_oneByte : ∀ (_ : Image) (m : Mach) (root np tf addr : ℕ) (f : ℕ → Word)
    (X : Multiset ℕ), Space m root np tf f X → X + frames f 0 np ≤ ram → addr < 2 ^ 64 →
    wp (sysRead root (some ⟨true, .inode oneByte⟩) addr 10)
      (fun r m' => NoMore m f addr (10 : BitVec 32).toInt r.1 m') never m := by
  refine (read_noMore_iff (some ⟨true, .inode oneByte⟩) 10).mpr ?_
  rintro _ ⟨⟩ _ ip _ hneg
  exact absurd hneg (by decide)

end Xv6.Read
