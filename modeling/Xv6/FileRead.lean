import Xv6.Directory
import Xv6.Node

/-! The reading half of the file system, for any state in which blocks can be read: what `bmap`,
`readi` and the loops over directory entries return is on the disk. -/
namespace Xv6

open Program Dinode Function List

variable {c : ℕ → Block} {B : Set ℕ} {E : Stop → Kernel → Prop} {E' : Stop → Fs → Prop} {s : Fs}
  {ip : Slot} {b n off : ℕ} {name : List Byte}

/-- The blocks of `B` can be read, and hold `c`. Between two reads the kernel is `idle`; while
it uses block `b`, it is `busy b`. -/
structure Reader (c : ℕ → Block) (B : Set ℕ) (E : Stop → Kernel → Prop) where
  idle : Kernel → Prop
  busy : ℕ → Kernel → Prop
  bread : ∀ {b k}, b ∈ B → idle k → wp (bread rootDev b) (fun _ k' => busy b k') E k
  bdata : ∀ {b k} {Q : Block → Kernel → Prop}, busy b k → Q (c b) k → wp (bdata rootDev b) Q E k
  brelse : ∀ {b k}, busy b k → wp (brelse rootDev b) (fun _ k' => idle k') E k

structure Reader.Read (rd : Reader c B E) (s s' : Fs) : Prop where
  idle : rd.idle s'.kernel
  itable : s'.itable = s.itable
  sb : s'.sb = s.sb

variable {rd : Reader c B E} {s' s'' : Fs}

lemma Reader.Read.trans (h : rd.Read s s') (h' : rd.Read s' s'') : rd.Read s s'' :=
  ⟨h'.idle, by rw [h'.itable, h.itable], by rw [h'.sb, h.sb]⟩

lemma Reader.Read.refl (h : rd.idle s.kernel) : rd.Read s s := ⟨h, rfl, rfl⟩

def Dinode.Readable (x : Dinode) (c : ℕ → Block) (B : Set ℕ) : Prop :=
  ∀ j < nptr, x.ptr c j ≠ 0 → x.ptr c j ∈ B

variable (hE : ∀ e s, E e s.kernel → E' e s)

include hE

theorem Reader.wp_bread (rd : Reader c B E) (hb : b ∈ B) (h : rd.idle s.kernel) :
    wp (liftM (Xv6.bread rootDev b) : F PUnit) (fun _ s' => rd.busy b s'.kernel ∧
      s'.itable = s.itable ∧ s'.sb = s.sb) E' s :=
  wp_lift (wp_mono (rd.bread hb h) (fun _ _ hk => ⟨hk, rfl, rfl⟩) fun e k he =>
    hE e { s with kernel := k } he)

theorem Reader.wp_bdata (rd : Reader c B E) {Q : Block → Fs → Prop} (h : rd.busy b s.kernel)
    (hQ : Q (c b) s) : wp (liftM (Xv6.bdata rootDev b) : F Block) Q E' s :=
  wp_lift (wp_mono (rd.bdata (Q := fun d k => Q d { s with kernel := k }) h hQ) (fun _ _ hq => hq)
    fun e k he => hE e { s with kernel := k } he)

theorem Reader.wp_brelse (rd : Reader c B E) (h : rd.busy b s.kernel) :
    wp (liftM (Xv6.brelse rootDev b) : F PUnit) (fun _ s' => rd.Read s s') E' s :=
  wp_lift (wp_mono (rd.brelse h) (fun _ _ hk => ⟨hk, rfl, rfl⟩) fun e k he =>
    hE e { s with kernel := k } he)

omit hE in
lemma bmapAddr_found {a : Fin (ndirect + 1)} (hp : (s.itable ip).din.addrs a ≠ 0) :
    wp (bmapAddr ip a) (fun r s' => r = (s.itable ip).din.addrs a ∧ s' = s) E' s := by
  unfold bmapAddr
  refine wp_bind (wp_get (wp_bind (wp_inode ?_)))
  rw [if_pos hp]
  exact wp_pure ⟨rfl, rfl⟩

section
variable (h : rd.idle s.kernel) (hdev : (s.itable ip).dev = rootDev)
  (hB : (s.itable ip).din.Readable c B)
include h hdev hB

lemma bmap_found (hn : n < maxFile) (hp : (s.itable ip).din.ptr c (dataPlace n) ≠ 0) :
    wp (bmap ip n) (fun r s' => r = (s.itable ip).din.ptr c (dataPlace n) ∧ rd.Read s s') E' s := by
  have hmax : maxFile = ndirect + nindirect := rfl
  unfold bmap
  by_cases hd : n < ndirect
  · have hval : ((Fin.ofNat (ndirect + 1) n : Fin (ndirect + 1)) : ℕ) = n :=
      Nat.mod_eq_of_lt (by omega)
    have hptr : (s.itable ip).din.ptr c (dataPlace n) =
        (s.itable ip).din.addrs (Fin.ofNat (ndirect + 1) n) := by
      rw [dataPlace, if_pos hd, ← ptr_addrs _ c, hval]
    rw [hptr] at hp ⊢
    rw [if_pos hd]
    refine wp_post (bmapAddr_found hp) ?_
    rintro r s' ⟨hr, rfl⟩
    exact ⟨hr, .refl h⟩
  · have hplace : dataPlace n = ndirect + 1 + (n - ndirect) := by
      rw [dataPlace, if_neg hd]
      omega
    have ha : (s.itable ip).din.addrs (Fin.last ndirect) ≠ 0 := by
      intro h0
      rw [hplace] at hp
      exact hp (ptr_of_no_indirect h0 c _)
    have hind := hB ndirect (by decide)
    rw [ptr_indirect] at hind
    rw [hplace, ptr_word ha] at hp ⊢
    rw [if_neg hd, if_pos (by omega)]
    refine wp_bind (wp_get (wp_bind (wp_inode ?_)))
    refine wp_seq (bmapAddr_found ha) ?_
    rintro _ s1 ⟨rfl, hs1⟩
    rw [if_neg ha, hdev, hs1]
    have hspec : wp (bmapIndirect s.sb rootDev ((s.itable ip).din.addrs (Fin.last ndirect))
        (n - ndirect)) (fun r k => r = (c ((s.itable ip).din.addrs (Fin.last ndirect))).word
          (n - ndirect) ∧ rd.idle k) E s.kernel := by
      unfold bmapIndirect
      refine wp_seq (rd.bread (hind ha) h) ?_
      intro _ k1 h1
      refine wp_bind (rd.bdata h1 ?_)
      rw [if_pos hp]
      refine wp_seq (rd.brelse h1) ?_
      intro _ k2 h2
      exact wp_pure ⟨rfl, h2⟩
    exact wp_lift (wp_mono hspec (fun _ _ hr => ⟨hr.1, hr.2, rfl, rfl⟩) fun e k he =>
      hE e { s with kernel := k } he)

lemma readLoop_backed {fuel : ℕ} {got : List Byte}
    (hb : (s.itable ip).din.Backed c (off + (n - got.length))) (hlen : got.length ≤ n)
    (hfuel : n - got.length ≤ fuel) :
    wp (readLoop ip (fun _ _ => true) n fuel got off) (fun r s' => r = some (got ++
      (range (n - got.length)).map fun j => (s.itable ip).din.byteAt c (off + j)) ∧
      rd.Read s s') E' s := by
  induction fuel generalizing s got off with
  | zero =>
    refine wp_pure ⟨?_, .refl h⟩
    rw [Nat.le_zero.mp hfuel]
    simp
  | succ fuel ih =>
    unfold readLoop
    by_cases hlt : got.length < n
    · rw [if_pos hlt]
      have hpos : 0 < bsize := by decide
      have hoff : off % bsize < bsize := Nat.mod_lt _ hpos
      have hdm : off / bsize * bsize + off % bsize = off := Nat.div_add_mod' off bsize
      have hn : off / bsize < maxFile := hb.lt (by omega)
      have hp := hb.2 off (by omega)
      refine wp_bind (wp_inode ?_)
      refine wp_seq (bmap_found hE h hdev hB hn hp) ?_
      rintro addr s1 ⟨rfl, h1⟩
      rw [if_neg hp, hdev]
      refine wp_seq (rd.wp_bread hE (hB _ (dataPlace_lt hn) hp) h1.idle) ?_
      rintro _ s2 ⟨h2, hi2, hsb2⟩
      refine wp_bind (rd.wp_bdata hE h2 ?_)
      refine wp_seq (rd.wp_brelse hE h2) ?_
      intro _ s3 h3
      have hread : rd.Read s s3 :=
        h1.trans ⟨h3.idle, by rw [h3.itable, hi2], by rw [h3.sb, hsb2]⟩
      have hi3 := hread.itable
      generalize hm : min (n - got.length) (bsize - off % bsize) = m
      have hm1 : m ≤ n - got.length := by omega
      have hm2 : m ≤ bsize - off % bsize := by omega
      have hm0 : 0 < m := by omega
      rw [if_pos rfl]
      have hbytes : (range m).map (fun j => (c ((s.itable ip).din.ptr c
          (dataPlace (off / bsize)))).byte (off % bsize + j)) =
          (range m).map fun j => (s.itable ip).din.byteAt c (off + j) := by
        refine map_congr_left fun j hj => ?_
        rw [mem_range] at hj
        have hsame : off + j = off % bsize + j + off / bsize * bsize := by omega
        have hin : off % bsize + j < bsize := by omega
        unfold Dinode.byteAt
        rw [hsame, Nat.add_mul_div_right _ _ hpos, Nat.add_mul_mod_self_right,
          Nat.div_eq_of_lt hin, Nat.mod_eq_of_lt hin, Nat.zero_add]
      rw [hbytes]
      have hleft : n - (got ++ (range m).map fun j =>
          (s.itable ip).din.byteAt c (off + j)).length = n - got.length - m := by
        rw [length_append, length_map, length_range]
        omega
      refine wp_post (ih h3.idle (by rw [hi3]; exact hdev) (by rw [hi3]; exact hB) ?_ ?_ ?_) ?_
      · rw [hi3, hleft, show off + m + (n - got.length - m) = off + (n - got.length) by omega]
        exact hb
      · rw [length_append, length_map, length_range]
        omega
      · rw [hleft]
        omega
      · rintro r s4 ⟨rfl, h4⟩
        refine ⟨?_, hread.trans h4⟩
        rw [hi3, hleft, append_assoc]
        congr 2
        rw [show n - got.length = m + (n - got.length - m) by omega, range_add, map_append,
          map_map]
        simp only [Nat.add_sub_cancel_left, comp_def, Nat.add_assoc]
    · rw [if_neg hlt]
      refine wp_pure ⟨?_, .refl h⟩
      rw [show n - got.length = 0 by omega]
      simp

/-- `readi` of a whole file: the part of the range that is inside it, unless the range starts
behind it or wraps. -/
theorem readi_whole (hb : (s.itable ip).din.Backed c (s.itable ip).din.size) (hn : n < 2 ^ 32) :
    wp (readi ip (fun _ _ => true) off n) (fun r s' => rd.Read s s' ∧ r = some
      (if off > (s.itable ip).din.size ∨ uint (off + n) < off then []
        else (range (min (off + n) (s.itable ip).din.size - off)).map fun j =>
          (s.itable ip).din.byteAt c (off + j))) E' s := by
  unfold readi
  refine wp_bind (wp_inode ?_)
  generalize hx : s.itable ip = x at *
  have hcap := hb.1
  have hmax : maxFile * bsize = 274432 := rfl
  by_cases hout : off > x.din.size ∨ uint (off + n) < off
  · rw [if_pos hout, if_pos hout]
    exact wp_pure ⟨.refl h, rfl⟩
  · rw [if_neg hout, if_neg hout]
    push Not at hout
    have hcount : (if uint (off + n) > x.din.size then x.din.size - off else n) =
        min (off + n) x.din.size - off := by
      unfold uint at hout ⊢
      split_ifs <;> omega
    dsimp only
    rw [hcount]
    refine wp_post (readLoop_backed hE h (by rw [hx]; exact hdev) (by rw [hx]; exact hB) ?_
      (Nat.zero_le _) (by simp)) ?_
    · rw [hx]
      exact hb.mono (by rw [length_nil]; omega)
    · rintro r s' ⟨rfl, hs⟩
      rw [hx]
      exact ⟨hs, rfl⟩

theorem readi_backed (hb : (s.itable ip).din.Backed c (off + n))
    (hsize : off + n ≤ (s.itable ip).din.size) :
    wp (readi ip (fun _ _ => true) off n) (fun r s' =>
      r = some ((range n).map fun j => (s.itable ip).din.byteAt c (off + j)) ∧
      rd.Read s s') E' s := by
  have hcap := hb.1
  have hmax : maxFile * bsize = 274432 := rfl
  have hu : uint (off + n) = off + n := Nat.mod_eq_of_lt (by omega)
  unfold readi
  refine wp_bind (wp_inode ?_)
  rw [hu, if_neg (by omega), if_neg (by omega)]
  exact readLoop_backed hE h hdev hB hb (Nat.zero_le n) (by simp)

lemma readDirent_backed {p : Panic} {e : ℕ} (hb : (s.itable ip).din.Backed c ((e + 1) * direntSize))
    (hsize : (e + 1) * direntSize ≤ (s.itable ip).din.size) :
    wp (readDirent p ip (e * direntSize)) (fun de s' => de = (s.itable ip).din.direntAt c e ∧
      rd.Read s s') E' s := by
  rw [Nat.succ_mul] at hb hsize
  unfold readDirent
  refine wp_seq (readi_backed hE h hdev hB hb hsize) ?_
  rintro r s1 ⟨rfl, h1⟩
  dsimp only
  rw [if_pos (by simp)]
  exact wp_pure ⟨rfl, h1⟩

end

/-- The inode that `ilock` leaves in its slot: it is read from disk the first time. -/
def Inode.loaded (x : Inode) (sb : Superblock) (c : ℕ → Block) : Inode :=
  { x with locked := true, valid := true, din := if x.valid then x.din else dinodeAt sb c x.inum }

theorem ilock_rule (h : rd.idle s.kernel) (hdev : (s.itable ip).dev = rootDev)
    (href : 1 ≤ (s.itable ip).ref) (hlock : (s.itable ip).locked = false)
    (hB : s.sb.iblock (s.itable ip).inum ∈ B)
    (htype : (s.itable ip).valid = false → (dinodeAt s.sb c (s.itable ip).inum).type ≠ 0) :
    wp (ilock ip) (fun _ s' => rd.idle s'.kernel ∧ s'.sb = s.sb ∧
      s'.itable = update s.itable ip ((s.itable ip).loaded s.sb c)) E' s := by
  unfold ilock
  refine wp_bind (wp_inode ?_)
  rw [if_neg (by omega), hlock, if_neg (by decide)]
  refine wp_bind (wp_modifyInode ?_)
  cases hvalid : (s.itable ip).valid with
  | true =>
    rw [if_pos rfl]
    refine wp_pure ⟨h, rfl, ?_⟩
    unfold Fs.setInode Inode.loaded
    dsimp only
    rw [hvalid, if_pos rfl]
  | false =>
    rw [if_neg (by decide)]
    generalize hs1 : s.setInode ip (fun x => { x with locked := true }) = s1
    have hi1 : s1.itable = update s.itable ip { s.itable ip with locked := true } := by
      rw [← hs1, Fs.setInode]
    have hx1 : s1.itable ip = { s.itable ip with locked := true } := by
      rw [hi1, update_self]
    have h1 : rd.idle s1.kernel ∧ s1.sb = s.sb := by
      rw [← hs1]
      exact ⟨h, rfl⟩
    unfold iload
    refine wp_bind (wp_get (wp_bind (wp_inode ?_)))
    have hdev1 : (s1.itable ip).dev = rootDev := by
      rw [hx1]
      exact hdev
    have hinum : (s1.itable ip).inum = (s.itable ip).inum := by rw [hx1]
    rw [hdev1, h1.2, hinum]
    refine wp_seq (rd.wp_bread hE hB h1.1) ?_
    rintro _ s2 ⟨h2, hi2, hsb2⟩
    refine wp_bind (rd.wp_bdata hE h2 ?_)
    refine wp_bind (wp_modifyInode ?_)
    refine wp_seq (rd.wp_brelse (b := s.sb.iblock (s.itable ip).inum) hE h2) ?_
    intro _ s3 h3
    refine wp_bind (wp_modifyInode ?_)
    have hty := htype hvalid
    unfold dinodeAt at hty
    rw [if_neg hty]
    refine wp_pure ⟨h3.idle, ?_, ?_⟩
    · change s3.sb = s.sb
      rw [h3.sb]
      change s2.sb = s.sb
      rw [hsb2, h1.2]
    · unfold Fs.setInode Inode.loaded
      dsimp only
      rw [h3.itable]
      unfold Fs.setInode
      dsimp only
      rw [hi2, update_self, update_idem, hx1, hi1, update_idem, hvalid]
      rfl

def Dirent.Matches (de : Dirent) (name : List Byte) : Prop :=
  de.inum ≠ 0 ∧ namecmp name de.name = 0

instance (de : Dirent) (name : List Byte) : Decidable (de.Matches name) :=
  inferInstanceAs (Decidable (_ ∧ _))

omit hE in
lemma entry_end_le {x : Dinode} {e m : ℕ} (hm : e + (m + 1) ≤ x.size / direntSize) :
    (e + 1) * direntSize ≤ x.size := by
  have hle := Nat.div_mul_le_self x.size direntSize
  have hmul : (e + 1) * direntSize ≤ x.size / direntSize * direntSize :=
    Nat.mul_le_mul_right _ (by omega)
  exact hmul.trans hle

section
variable (x : Dinode) (c : ℕ → Block) (B : Set ℕ)

structure Dinode.Scannable : Prop where
  readable : x.Readable c B
  backed : x.Backed c x.size
  whole : direntSize ∣ x.size

structure Dinode.Searchable (name : List Byte) : Prop where
  readable : x.Readable c B
  backed : ∀ e < x.size / direntSize, (∀ e' < e, ¬ (x.direntAt c e').Matches name) →
    x.Backed c ((e + 1) * direntSize)
  whole : direntSize ∣ x.size

end

omit hE in
theorem Dinode.Scannable.searchable {x : Dinode} (h : x.Scannable c B) (name : List Byte) :
    x.Searchable c B name :=
  ⟨h.readable, fun e he _ => h.backed.mono (entry_end_le (e := e) (m := 0) (by omega)), h.whole⟩

def Dinode.lookup (x : Dinode) (c : ℕ → Block) (name : List Byte) : Option ℕ :=
  (range (x.size / direntSize)).find? fun e => (x.direntAt c e).Matches name

def Dinode.firstFree (x : Dinode) (c : ℕ → Block) : Option ℕ :=
  (range (x.size / direntSize)).find? fun e => (x.direntAt c e).inum = 0

section scan
variable {x : Dinode}

omit hE in
lemma turns_eq {size e : ℕ} (hw : direntSize ∣ size) (he : e ≤ size / direntSize) :
    turns size (e * direntSize) = size / direntSize - e := by
  obtain ⟨q, rfl⟩ := hw
  have hd : direntSize = 16 := rfl
  unfold turns
  rw [hd] at he ⊢
  omega

section
variable (h : rd.idle s.kernel) (hdev : (s.itable ip).dev = rootDev) (hx : (s.itable ip).din = x)
include h hdev hx

lemma dirlookupFrom_rule {e m : ℕ} {Q : Option (Slot × ℕ) → Fs → Prop} (hS : x.Searchable c B name)
    (hm : e + m = x.size / direntSize) (hmiss : ∀ e' < e, ¬ (x.direntAt c e').Matches name)
    (hQ : ∀ s', rd.Read s s' → match (range' e m).find? fun e => (x.direntAt c e).Matches name with | none => Q none s' | some e => wp (iget rootDev (x.direntAt c e).inum) (fun q t => Q (some (q, e * direntSize)) t) E' s')
    :
    wp (dirlookupFrom ip name m (e * direntSize)) Q E' s := by
  induction m generalizing s e with
  | zero => exact wp_pure (hQ s (.refl h))
  | succ m ih =>
    have hle := entry_end_le hm.le
    have hpos : 0 < direntSize := by decide
    rw [range'_succ, find?_cons] at hQ
    unfold dirlookupFrom
    refine wp_bind (wp_inode ?_)
    rw [hx, if_pos (by rw [Nat.succ_mul] at hle; omega), hdev]
    refine wp_seq (readDirent_backed (e := e) hE h hdev (by rw [hx]; exact hS.readable)
      (by rw [hx]; exact hS.backed e (by omega) hmiss) (by rw [hx]; exact hle)) ?_
    rintro de s1 ⟨rfl, h1⟩
    rw [hx]
    by_cases hmatch : (x.direntAt c e).Matches name
    · rw [if_pos (And.intro hmatch.1 hmatch.2)]
      have hfound := hQ s1 h1
      rw [decide_eq_true hmatch] at hfound
      refine wp_seq hfound ?_
      intro q t hq
      exact wp_pure hq
    · have hne : ¬ ((x.direntAt c e).inum ≠ 0 ∧ namecmp name (x.direntAt c e).name = 0) := hmatch
      rw [if_neg hne, ← Nat.succ_mul]
      refine ih h1.idle (by rw [h1.itable]; exact hdev) (by rw [h1.itable]; exact hx) (by omega) ?_ ?_
      · intro e' he'
        by_cases hee : e' = e
        · rw [hee]
          exact hmatch
        · exact hmiss e' (by omega)
      · intro s2 h2
        have hrest := hQ s2 (h1.trans h2)
        rwa [decide_eq_false hmatch] at hrest

theorem dirlookup_rule {Q : Option (Slot × ℕ) → Fs → Prop} (ht : x.type = tDir)
    (hS : x.Searchable c B name)
    (hQ : ∀ s', rd.Read s s' → match x.lookup c name with | none => Q none s' | some e => wp (iget rootDev (x.direntAt c e).inum) (fun q t => Q (some (q, e * direntSize)) t) E' s')
    :
    wp (dirlookup ip name) Q E' s := by
  unfold dirlookup
  refine wp_bind (wp_inode ?_)
  rw [hx, if_neg (by rw [ht]; simp)]
  have hturns := turns_eq hS.whole (Nat.zero_le _)
  rw [Nat.zero_mul, Nat.sub_zero] at hturns
  rw [hturns]
  have hrule := dirlookupFrom_rule (Q := Q) (e := 0) hE h hdev hx hS
    (Nat.zero_add _) (fun e' he' => absurd he' (Nat.not_lt_zero e'))
  rw [Nat.zero_mul, ← range_eq_range'] at hrule
  exact hrule hQ

lemma emptyDirentFrom_rule {e m : ℕ} (hS : x.Scannable c B) (hm : e + m = x.size / direntSize) :
    wp (emptyDirentFrom ip m (e * direntSize)) (fun off s' => rd.Read s s' ∧ off =
      (((range' e m).find? fun e => (x.direntAt c e).inum = 0).getD (x.size / direntSize)) *
        direntSize) E' s := by
  induction m generalizing s e with
  | zero => exact wp_pure ⟨.refl h, by rw [← hm]; rfl⟩
  | succ m ih =>
    have hle := entry_end_le hm.le
    have hpos : 0 < direntSize := by decide
    rw [range'_succ, find?_cons]
    unfold emptyDirentFrom
    refine wp_bind (wp_inode ?_)
    rw [hx, if_pos (by rw [Nat.succ_mul] at hle; omega)]
    refine wp_seq (readDirent_backed (e := e) hE h hdev (by rw [hx]; exact hS.readable)
      (by rw [hx]; exact hS.backed.mono hle) (by rw [hx]; exact hle)) ?_
    rintro de s1 ⟨rfl, h1⟩
    rw [hx]
    by_cases hempty : (x.direntAt c e).inum = 0
    · rw [if_pos hempty, decide_eq_true hempty]
      exact wp_pure ⟨h1, rfl⟩
    · rw [if_neg hempty, decide_eq_false hempty, ← Nat.succ_mul]
      refine wp_post (ih h1.idle (by rw [h1.itable]; exact hdev) (by rw [h1.itable]; exact hx)
        (by omega)) ?_
      rintro off s2 ⟨h2, hoff⟩
      exact ⟨h1.trans h2, hoff⟩

theorem emptyDirent_rule (hS : x.Scannable c B) :
    wp (emptyDirentFrom ip (turns x.size 0) 0) (fun off s' => rd.Read s s' ∧
      off = (x.firstFree c).getD (x.size / direntSize) * direntSize) E' s := by
  have hturns := turns_eq hS.whole (Nat.zero_le _)
  rw [Nat.zero_mul, Nat.sub_zero] at hturns
  have hrule := emptyDirentFrom_rule (e := 0) hE h hdev hx hS (Nat.zero_add _)
  rw [Nat.zero_mul, ← range_eq_range'] at hrule
  rw [hturns]
  exact hrule

end

end scan

end Xv6
