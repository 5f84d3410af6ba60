import Xv6.MkfsAppend

/-! The image that `mkfs` leaves: the inodes on disk, the files in them, and the counters. -/
namespace Xv6.Mkfs

open Program Ownership Function List

variable {nb ni : ℕ → ℕ} {data : ℕ → List Byte} {ino ino' : ℕ → Dinode} {s s' : Image}
  {c c' : ℕ → Block} {i j n b : ℕ} {d : Block} {x y : Dinode} {p : List Byte} {E : Prop}

/-- Between the calls of `iappend` and `ialloc` the inodes on disk are as they should be: those
below `freeinode` hold `data`, the others are zero. -/
structure Built (data : ℕ → List Byte) (ino : ℕ → Dinode) (s : Image) : Prop extends
    Tidy data ino s where
  some : 0 < s.freeinode
  few : s.freeinode ≤ ninodes
  sync : ∀ i < ninodes, dinodeAt sb s.disk i = ino i
  length : ∀ i < ninodes, (ino i).size = (data i).length
  free : ∀ i < ninodes, i = 0 ∨ s.freeinode ≤ i → ino i = Dinode.zero ∧ data i = []
  live : ∀ i, 0 < i → i < s.freeinode →
    (ino i).type = (if i = rootIno then tDir else tFile) ∧ (ino i).nlink = 1
  super : s.disk 1 = sbBlock
  log : ∀ b, sb.logstart ≤ b → b < sb.inodestart → s.disk b = fun _ => 0

section inodes

theorem iblock_lt (hi : i < ninodes) : sb.inodestart ≤ sb.iblock i ∧ sb.iblock i < sb.bmapstart := by
  have h1 : ninodes = 200 := rfl
  have h2 : i / ipb = i / 16 := rfl
  have h3 : sb.inodestart = 32 := rfl
  have h4 : sb.bmapstart = 45 := rfl
  unfold Superblock.iblock
  omega

theorem Vol.setMeta (h : Vol nb ni data ino s) (hb : b < nmeta) :
    Vol nb ni data ino { s with disk := update s.disk b d } := by
  have hmeta := h.nmeta_le
  have hsame : holds sb ino (update s.disk b d) = holds sb ino s.disk := by
    refine holds_update fun j hj => ?_
    exact absurd (h.held hj).1 (by omega)
  refine ⟨h.size, ?_, h.room, ?_, ?_, ?_, ?_⟩
  · change Owns (holds sb ino (update s.disk b d)) _ _
    rw [hsame]
    exact h.owns
  · intro x hx
    change s.freeblock ≤ x at hx
    exact (update_of_ne (by omega) _ _).trans (h.fresh x hx)
  · intro j hj n hn
    change (∃ x, holds sb ino (update s.disk b d) (j, dataPlace n) = some x) ↔ _
    rw [hsame]
    exact h.has j hj n hn
  · intro j hj
    change (∃ x, holds sb ino (update s.disk b d) (j, ndirect) = some x) ↔ _
    rw [hsame]
    exact h.ind j hj
  · intro j n x hx k hk
    change holds sb ino (update s.disk b d) (j, dataPlace n) = some x at hx
    rw [hsame] at hx
    have hge := (h.held hx).1
    change (update s.disk b d x).byte k = _
    rw [update_of_ne (by omega)]
    exact h.bytes j n x hx k hk

theorem Vol.congr (h : Vol nb ni data ino s) (hp : holds sb ino' s.disk = holds sb ino s.disk)
    (hblock : s'.freeblock = s.freeblock) (hdisk : s'.disk = s.disk) (hsize : s'.size = s.size) :
    Vol nb ni data ino' s' := by
  refine ⟨hsize.trans h.size, ?_, hblock.trans h.room, ?_, ?_, ?_, ?_⟩
  · rw [hdisk, hblock, hp]
    exact h.owns
  · rw [hdisk, hblock]
    exact h.fresh
  · rw [hdisk, hp]
    exact h.has
  · rw [hdisk, hp]
    exact h.ind
  · rw [hdisk, hp]
    exact h.bytes

theorem holds_setFields (hi : i < ninodes) (hy : ∀ j, y.place c j = (ino i).place c j) :
    holds sb (update ino i y) c = holds sb ino c := by
  funext p
  rw [holds_updateInode hi]
  split_ifs with hp
  · rw [hy, holds, if_pos (hp ▸ hi), hp]
  · rfl

theorem dinodeAt_winode (hx : x.Fits) (j : ℕ) :
    dinodeAt sb (update c (sb.iblock i) ((c (sb.iblock i)).putDinode i x)) j =
      if j = i then x else dinodeAt sb c j := by
  unfold dinodeAt
  by_cases hji : j = i
  · rw [if_pos hji, hji, update_self, Block.getDinode_putDinode hx]
  · rw [if_neg hji]
    by_cases hb : sb.iblock j = sb.iblock i
    · rw [hb, update_self]
      refine Block.getDinode_putDinode_of_ne fun hm => hji ?_
      unfold Superblock.iblock at hb
      have hj := Nat.div_add_mod j ipb
      have hi := Nat.div_add_mod i ipb
      have hdiv : j / ipb = i / ipb := by omega
      rw [← hj, ← hi, hdiv, hm]
    · rw [update_of_ne hb]

lemma Vol.fits (h : Vol nb ni data ino s) (hle : s.freeblock ≤ fssize) (hi : i < ninodes)
    (ht : (ino i).type ≠ 0) (a : Fin (ndirect + 1)) : (ino i).addrs a < 2 ^ 32 := by
  have hsize : fssize = 2000 := rfl
  by_cases ha : (ino i).addrs a = 0
  · rw [ha]
    decide
  · have hheld : holds sb ino s.disk (i, a) = some ((ino i).addrs a) := by
      rw [holds_eq_nonzero hi ht (lt_of_lt_of_le a.isLt (Nat.le_add_right _ _)), ptr_addrs]
      exact nonzero_eq_some.mpr ⟨rfl, ha⟩
    have hlt := (h.held hheld).2
    omega

theorem wp_rinode {Q : Dinode → Image → Prop} {F : Exit → Image → Prop} (hsize : s.size = fssize)
    (hi : i < ninodes) (hQ : Q (dinodeAt sb s.disk i) s) : wp (rinode i) Q F s := by
  have hlt := (iblock_lt hi).2
  have hmap : sb.bmapstart = 45 := rfl
  have hfs : fssize = 2000 := rfl
  refine wp_bind (wp_rsect hsize (by omega) (fun _ => wp_pure hQ) fun hge => ?_)
  omega

theorem wp_winode {Q : PUnit → Image → Prop} {F : Exit → Image → Prop} (hsize : s.size = fssize)
    (hi : i < ninodes)
    (hQ : Q ⟨⟩ { s with
      disk := update s.disk (sb.iblock i) ((s.disk (sb.iblock i)).putDinode i x) }) :
    wp (winode i x) Q F s := by
  have hlt := (iblock_lt hi).2
  have hmap : sb.bmapstart = 45 := rfl
  have hfs : fssize = 2000 := rfl
  refine wp_bind (wp_rsect hsize (by omega) (fun hb => wp_wsect hsize hb hQ) fun hge => ?_)
  omega

end inodes

section calls

lemma Tidy.write (h : Tidy data ino s) (hi : i < ninodes) (hx : x.Fits)
    (hplace : ∀ j, x.place s.disk j = (ino i).place s.disk j)
    (hsome : 0 < s.freeinode) (hfew : s.freeinode ≤ ninodes)
    (hsync : ∀ j < ninodes, j ≠ i → dinodeAt sb s.disk j = ino j)
    (hlen : ∀ j < ninodes, (update ino i x j).size = (data j).length)
    (hfree : ∀ j < ninodes, j = 0 ∨ s.freeinode ≤ j →
      update ino i x j = Dinode.zero ∧ data j = [])
    (hlive : ∀ j, 0 < j → j < s.freeinode → (update ino i x j).type =
      (if j = rootIno then tDir else tFile) ∧ (update ino i x j).nlink = 1)
    (hsuper : s.disk 1 = sbBlock)
    (hlog : ∀ b, sb.logstart ≤ b → b < sb.inodestart → s.disk b = fun _ => 0) :
    Built data (update ino i x) { s with
      disk := update s.disk (sb.iblock i) ((s.disk (sb.iblock i)).putDinode i x) } := by
  have hblock := iblock_lt hi
  have hstart : sb.inodestart = 32 := rfl
  have hmap : sb.bmapstart = 45 := rfl
  have hmeta : nmeta = 46 := rfl
  refine ⟨⟨?_, h.le, h.cap⟩, hsome, hfew, ?_, hlen, hfree, hlive, ?_, ?_⟩
  · refine Vol.setMeta ?_ (by omega)
    exact h.vol.congr (holds_setFields hi hplace) rfl rfl rfl
  · intro j hj
    change dinodeAt sb (update s.disk _ _) j = _
    rw [dinodeAt_winode hx]
    by_cases hji : j = i
    · rw [if_pos hji, hji, update_self]
    · rw [if_neg hji, update_of_ne hji]
      exact hsync j hj hji
  · have hne : 1 ≠ sb.iblock i := by omega
    dsimp only
    rw [update_of_ne hne]
    exact hsuper
  · intro b h1 h2
    have hne : b ≠ sb.iblock i := by omega
    dsimp only
    rw [update_of_ne hne]
    exact hlog b h1 h2

theorem iappend_spec (h : Built data ino s) (h0 : 0 < i) (hi : i < s.freeinode)
    (hbig : maxFile * bsize < (data i).length + p.length → E)
    (hfull : fssize < nmeta + need (update data i (data i ++ p)) → E) :
    wp (iappend i p) (fun _ s' => s'.freeinode = s.freeinode ∧
      ∃ ino', Built (update data i (data i ++ p)) ino' s') (fun _ _ => E) s := by
  have hlt : i < ninodes := lt_of_lt_of_le hi h.few
  have htype : (ino i).type ≠ 0 := by
    rw [(h.live i h0 hi).1]
    split_ifs <;> decide
  unfold iappend
  refine wp_bind (wp_rinode h.vol.size hlt ?_)
  rw [h.sync i hlt, h.length i hlt]
  refine wp_seq (iappendFrom_spec h.toTidy hlt htype rfl le_rfl hbig hfull) ?_
  rintro ⟨din, off⟩ s1 ⟨htidy, hoff, hdin, hlow⟩
  dsimp only at htidy hoff hdin ⊢
  have htype' : din.type ≠ 0 := by
    rw [hdin]
    exact htype
  have haddrs := htidy.vol.fits htidy.le hlt (by rwa [update_self])
  rw [update_self] at haddrs
  have hnum : s1.freeinode = s.freeinode := hlow.inode
  have hother : ∀ j, j ≠ i → update data i (data i ++ p) j = data j := fun j hj =>
    update_of_ne hj _ _
  have hsmall : off < 2 ^ 32 := by
    have hcap := htidy.cap i
    have hfile : maxFile * bsize < 2 ^ 32 := by decide
    rw [update_self, length_append] at hcap
    omega
  refine wp_winode htidy.vol.size hlt ⟨hnum, update ino i { din with size := off }, ?_⟩
  rw [← update_idem (f := ino) din]
  refine htidy.write hlt ⟨hsmall, haddrs⟩ ?_ (by rw [hnum]; exact h.some)
    (by rw [hnum]; exact h.few) ?_ ?_ ?_ ?_ ?_ ?_
  · intro j
    rw [update_self]
    rfl
  · intro j hj hji
    rw [update_of_ne hji, ← h.sync j hj]
    unfold dinodeAt
    rw [hlow.disk _ (by have := iblock_lt hj; have : sb.bmapstart < nmeta := by decide
                        omega)]
  · intro j hj
    rw [update_idem]
    by_cases hji : j = i
    · rw [hji, update_self, update_self, length_append]
      exact hoff
    · rw [update_of_ne hji, hother j hji]
      exact h.length j hj
  · intro j hj hor
    rw [hnum] at hor
    have hji : j ≠ i := by omega
    rw [update_idem, update_of_ne hji, hother j hji]
    exact h.free j hj hor
  · intro j hj0 hj
    rw [hnum] at hj
    rw [update_idem]
    by_cases hji : j = i
    · rw [hji, update_self, hdin]
      exact h.live i h0 hi
    · rw [update_of_ne hji]
      exact h.live j hj0 hj
  · rw [hlow.disk 1 (by decide)]
    exact h.super
  · intro b h1 h2
    have hb : b < nmeta := by
      have hstart : sb.inodestart < nmeta := by decide
      omega
    rw [hlow.disk b hb]
    exact h.log b h1 h2

theorem ialloc_spec {type : Short} {F : Exit → Image → Prop} (h : Built data ino s)
    (hlt : s.freeinode < ninodes) (htype : type = if s.freeinode = rootIno then tDir else tFile) :
    wp (ialloc type) (fun inum s' => inum = s.freeinode ∧ s'.freeinode = s.freeinode + 1 ∧
      ∃ ino', Built data ino' s') F s := by
  have hzero := h.free s.freeinode hlt (.inr le_rfl)
  unfold ialloc
  refine wp_bind (wp_get (wp_bind (wp_modify (wp_bind ?_))))
  refine wp_winode h.vol.size hlt (wp_pure ⟨rfl, rfl,
    update ino s.freeinode { Dinode.zero with type := type, nlink := 1 }, ?_⟩)
  have htidy : Tidy data ino { s with freeinode := s.freeinode + 1 } :=
    ⟨h.vol.congr rfl rfl rfl rfl, h.le, h.cap⟩
  have h32 : (0 : ℕ) < 2 ^ 32 := by decide
  refine htidy.write hlt ⟨h32, fun _ => h32⟩ ?_ (Nat.succ_pos _) hlt ?_ ?_ ?_ ?_ h.super h.log
  · intro j
    rw [place_of_addrs_zero fun _ => rfl, hzero.1, place_of_addrs_zero fun _ => rfl]
  · intro j hj _
    exact h.sync j hj
  · intro j hj
    by_cases hji : j = s.freeinode
    · rw [hji, update_self, hzero.2]
      rfl
    · rw [update_of_ne hji]
      exact h.length j hj
  · intro j hj hor
    change j = 0 ∨ s.freeinode + 1 ≤ j at hor
    have hsome := h.some
    have hji : j ≠ s.freeinode := by omega
    rw [update_of_ne hji]
    exact h.free j hj (by omega)
  · intro j hj0 hj
    change j < s.freeinode + 1 at hj
    by_cases hji : j = s.freeinode
    · rw [hji, update_self]
      exact ⟨htype, rfl⟩
    · rw [update_of_ne hji]
      exact h.live j hj0 (by omega)

end calls

section files

variable {f : Input} {files done rest : List Input}

def rootBytes (files : List Input) : List Byte :=
  direntBytes rootIno [46] ++ direntBytes rootIno [46, 46] ++
    (files.zipIdx 2).flatMap fun f => direntBytes f.2 f.1.shortname

/-- What the inodes hold when `files` have been added: the `k`th file is in inode `k + 2`. -/
def contents (files : List Input) (i : ℕ) : List Byte :=
  if i = rootIno then rootBytes files
  else if i < 2 then []
  else (files[i - 2]?.map Input.bytes).getD []

structure Acceptable (files : List Input) : Prop where
  names : ∀ f ∈ files, (47 : Byte) ∉ f.base ∧ f.shortname.length ≤ dirsiz
  opens : ∀ f ∈ files, f.reads ≠ none
  sizes : ∀ f ∈ files, f.bytes.length ≤ maxFile * bsize
  room : nmeta + need (contents files) ≤ fssize

theorem length_direntBytes (inum : ℕ) (name : List Byte) :
    (direntBytes inum name).length = direntSize := by
  simp [direntBytes]

lemma rootBytes_append : rootBytes (done ++ [f]) =
    rootBytes done ++ direntBytes (done.length + 2) f.shortname := by
  simp [rootBytes, zipIdx_append, Nat.add_comm]

theorem length_rootBytes : (rootBytes files).length = (files.length + 2) * direntSize := by
  induction files using reverseRecOn with
  | nil => rfl
  | append_singleton done f ih =>
    rw [rootBytes_append, length_append, ih, length_direntBytes, length_append,
      length_singleton]
    ring

lemma contents_append : contents (done ++ [f]) = update
    (update (contents done) rootIno (contents done rootIno ++
      direntBytes (done.length + 2) f.shortname)) (done.length + 2) f.bytes := by
  have hroot : rootIno = 1 := rfl
  funext i
  by_cases hi : i = done.length + 2
  · subst hi
    rw [update_self, contents, if_neg (by omega), if_neg (by omega)]
    simp
  · rw [update_of_ne hi]
    by_cases h1 : i = rootIno
    · subst h1
      rw [update_self, contents, if_pos rfl, contents, if_pos rfl, rootBytes_append]
    · rw [update_of_ne h1, contents, contents, if_neg h1, if_neg h1]
      split_ifs with h2
      · rfl
      · by_cases hlt : i - 2 < done.length
        · rw [getElem?_append_left hlt]
        · rw [getElem?_eq_none (by simp; omega), getElem?_eq_none (by omega)]

lemma length_contents_le (i : ℕ) :
    (contents done i).length ≤ (contents (done ++ rest) i).length := by
  induction rest using reverseRecOn with
  | nil => rw [append_nil]
  | append_singleton rest f ih =>
    refine ih.trans ?_
    rw [← append_assoc, contents_append]
    by_cases hi : i = (done ++ rest).length + 2
    · subst hi
      rw [contents, if_neg (by unfold rootIno; omega), if_neg (by omega),
        getElem?_eq_none (by simp)]
      simp
    · rw [update_of_ne hi]
      by_cases h1 : i = rootIno
      · rw [h1, update_self, length_append]
        omega
      · rw [update_of_ne h1]

theorem need_contents_le : need (contents done) ≤ need (contents (done ++ rest)) :=
  need_mono length_contents_le

lemma forM_iappend_spec {bufs : List (List Byte)} (h : Built data ino s) (h0 : 0 < i)
    (hi : i < s.freeinode) (hnil : data i = [])
    (hbig : maxFile * bsize < bufs.flatten.length → E)
    (hfull : fssize < nmeta + need (update data i bufs.flatten) → E) :
    wp (forM bufs (iappend i)) (fun _ s' => s'.freeinode = s.freeinode ∧
      ∃ ino', Built (update data i bufs.flatten) ino' s') (fun _ _ => E) s := by
  refine wp_forM (I := fun d s' => s'.freeinode = s.freeinode ∧
    ∃ ino', Built (update data i d.flatten) ino' s') ?_ ?_
  · rintro d a r t rfl ⟨hnum, ino1, hbuilt⟩
    have hflat : (d ++ [a]).flatten = d.flatten ++ a := by simp
    have hlen : d.flatten.length + a.length ≤ (d ++ a :: r).flatten.length := by
      simp
    have hdata : update (update data i d.flatten) i
        (update data i d.flatten i ++ a) = update data i (d ++ [a]).flatten := by
      rw [update_self, update_idem, hflat]
    have hstep := iappend_spec (p := a) (E := E) hbuilt h0 (by rw [hnum]; exact hi) ?_ ?_
    · rw [hdata, hnum] at hstep
      exact hstep
    · rw [update_self]
      intro hlt
      exact hbig (by omega)
    · rw [hdata]
      intro hlt
      refine hfull (lt_of_lt_of_le hlt (Nat.add_le_add_left (need_mono fun j => ?_) _))
      by_cases hj : j = i
      · rw [hj, update_self, update_self, hflat, length_append]
        exact hlen
      · rw [update_of_ne hj, update_of_ne hj]
  · refine ⟨rfl, ino, ?_⟩
    rw [flatten_nil, ← hnil, update_eq_self]
    exact h

theorem addFile_spec (h : Built (contents done) ino s) (hnum : s.freeinode = done.length + 2)
    (hfew : done.length < 198) (hslash : (47 : Byte) ∈ f.base → E) (hopen : f.reads = none → E)
    (hname : dirsiz < f.shortname.length → E) (hsize : maxFile * bsize < f.bytes.length → E)
    (hroom : fssize < nmeta + need (contents (done ++ [f])) → E) :
    wp (addFile rootIno f) (fun _ s' => s'.freeinode = (done ++ [f]).length + 2 ∧
      ∃ ino', Built (contents (done ++ [f])) ino' s') (fun _ _ => E) s := by
  have hroot : rootIno = 1 := rfl
  have hin : ninodes = 200 := rfl
  unfold addFile
  by_cases hs : (47 : Byte) ∈ f.base
  · rw [if_pos hs]
    exact wp_throw (hslash hs)
  rw [if_neg hs]
  cases hr : f.reads with
  | none => exact wp_throw (hopen hr)
  | some bufs =>
    dsimp only
    by_cases hl : dirsiz < f.shortname.length
    · rw [if_pos hl]
      exact wp_throw (hname hl)
    rw [if_neg hl]
    have hbytes : f.bytes = bufs.flatten := by rw [Input.bytes, hr, Option.getD_some]
    have hnil : contents done (done.length + 2) = [] := by
      rw [contents, if_neg (by omega), if_neg (by omega), getElem?_eq_none (by omega)]
      rfl
    refine wp_seq (ialloc_spec h (by omega) ?_) ?_
    · rw [hnum, if_neg (by omega)]
    rintro inum s1 ⟨rfl, hnum1, ino1, h₁⟩
    have hle : need (update (contents done) rootIno (contents done rootIno ++
        direntBytes (done.length + 2) f.shortname)) ≤ need (contents (done ++ [f])) := by
      refine need_mono fun j => ?_
      rw [contents_append]
      by_cases hj : j = done.length + 2
      · rw [hj, update_of_ne (by omega), hnil]
        exact Nat.zero_le _
      · rw [update_of_ne hj]
    rw [hnum]
    refine wp_seq (iappend_spec (p := direntBytes (done.length + 2) f.shortname) (E := E) h₁
      (by decide) (by omega) ?_ ?_) ?_
    · intro hlt
      rw [length_direntBytes, contents, if_pos rfl, length_rootBytes] at hlt
      have hmax : maxFile * bsize = 274432 := rfl
      unfold direntSize at hlt
      omega
    · intro hlt
      exact hroom (lt_of_lt_of_le hlt (Nat.add_le_add_left hle _))
    rintro _ s2 ⟨hnum2, ino2, h₂⟩
    have hdata : contents (done ++ [f]) = update
        (update (contents done) rootIno (contents done rootIno ++
          direntBytes (done.length + 2) f.shortname)) (done.length + 2) bufs.flatten := by
      rw [contents_append, hbytes]
    have hloop : wp (forM bufs (iappend (done.length + 2))) (fun _ s' =>
        s'.freeinode = s2.freeinode ∧ ∃ ino', Built (contents (done ++ [f])) ino' s')
        (fun _ _ => E) s2 := by
      rw [hdata] at hroom ⊢
      refine forM_iappend_spec h₂ (by omega) (by omega) ?_ ?_ hroom
      · rw [update_of_ne (by omega), hnil]
      · rw [← hbytes]
        exact hsize
    refine wp_post hloop ?_
    rintro _ s3 ⟨hnum3, hbuilt⟩
    refine ⟨?_, hbuilt⟩
    rw [length_append, length_singleton]
    omega

end files

end Xv6.Mkfs
