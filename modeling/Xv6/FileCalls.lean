import Xv6.Layout
import Xv6.Shell

/-! System calls on the bytes of regular files, and two programs on top of them: `cp`,
`user/cp.c`, and the redirections of the shell, `runcmd` in `user/sh.c`. -/
namespace Xv6.Files

open Function List Option
open Shell (ch)

structure File where
  ip : ℕ
  off : ℕ
  readable : Bool
  writable : Bool
  deriving DecidableEq, Repr

structure Sys where
  /-- The inode that a path names. -/
  dir : List Byte → Option ℕ
  data : ℕ → List Byte
  /-- The inode that `ialloc` gives. -/
  next : ℕ
  ofile : ℕ → Option File
  /-- The bytes that the coming calls of `writei` find room for on the disk. -/
  room : ℕ → ℕ

def nofile : ℕ := 16

def fdalloc (s : Sys) : Option ℕ := (range nofile).find? fun fd => (s.ofile fd).isNone

def create (s : Sys) (path : List Byte) : ℕ × Sys :=
  match s.dir path with
  | some i => (i, s)
  | none => (s.next, { s with
      dir := update s.dir path (some s.next)
      data := update s.data s.next [] })

def sysOpen (s : Sys) (path : List Byte) (omode : ℕ) : Option (ℕ × Sys) := do
  let (i, s) ← if omode &&& 0x200 ≠ 0 then some (create s path) else (s.dir path).map (·, s)
  let fd ← fdalloc s
  let f : File := ⟨i, 0, omode &&& 0x001 = 0, omode &&& 0x001 ≠ 0 || omode &&& 0x002 ≠ 0⟩
  some (fd, { s with
    ofile := update s.ofile fd (some f)
    data := if omode &&& 0x400 ≠ 0 then update s.data i [] else s.data })

def sysClose (s : Sys) (fd : ℕ) : Sys := { s with ofile := update s.ofile fd none }

/-- `fileread`: the bytes, or `none` for -1. -/
def fileread (s : Sys) (fd n : ℕ) : Option (List Byte) × Sys :=
  match s.ofile fd with
  | none => (none, s)
  | some f =>
    if f.readable = false then (none, s)
    else
      let r := ((s.data f.ip).drop f.off).take n
      (some r, { s with
        ofile := update s.ofile fd (some { f with off := f.off + r.length }) })

def overwrite (d : List Byte) (off : ℕ) (b : List Byte) : List Byte :=
  d.take off ++ b ++ d.drop (off + b.length)

/-- `writei`: the number of bytes written, or `none` for -1. -/
def writei (s : Sys) (ip off : ℕ) (b : List Byte) : Option ℕ × Sys :=
  if (s.data ip).length < off ∨ maxFile * bsize < off + b.length then (none, s)
  else
    let tot := min b.length (s.room 0)
    (some tot, { s with
      data := update s.data ip (overwrite (s.data ip) off (b.take tot))
      room := fun i => s.room (i + 1) })

/-- The loop of `filewrite`, some blocks at a time: the number of bytes written. -/
def writeLoop (ip : ℕ) : ℕ → Sys → ℕ → List Byte → ℕ × Sys
  | 0, s, _, _ => (0, s)
  | fuel + 1, s, off, b =>
    if b = [] then (0, s)
    else
      let n1 := min b.length (3 * bsize)
      match writei s ip off (b.take n1) with
      | (none, s) => (0, s)
      | (some r, s) =>
        if r ≠ n1 then (r, s)
        else
          let q := writeLoop ip fuel s (off + r) (b.drop n1)
          (r + q.1, q.2)

/-- `filewrite`: the bytes that it wrote, and whether it returns their number and not -1. -/
def filewrite (s : Sys) (fd : ℕ) (b : List Byte) : (List Byte × Bool) × Sys :=
  match s.ofile fd with
  | none => (([], false), s)
  | some f =>
    if f.writable = false then (([], false), s)
    else
      let q := writeLoop f.ip (b.length + 1) s f.off b
      ((b.take q.1, q.1 = b.length), { q.2 with
        ofile := update q.2.ofile fd (some { f with off := f.off + q.1 }) })

/-! ### Writing -/

variable {s s' : Sys} {d b : List Byte} {ip off fd : ℕ}

@[simp]
lemma overwrite_nil (d : List Byte) (off : ℕ) : overwrite d off [] = d := by simp [overwrite]

lemma length_overwrite (h : off ≤ d.length) :
    (overwrite d off b).length = max d.length (off + b.length) := by
  simp [overwrite]
  omega

lemma overwrite_overwrite (h : off ≤ d.length) (b b' : List Byte) :
    overwrite (overwrite d off b) (off + b.length) b' = overwrite d off (b ++ b') := by
  have ht : (d.take off ++ b).length = off + b.length := by simp [h]
  simp only [overwrite]
  rw [← ht, take_left, drop_append]
  simp [h, Nat.add_assoc]

structure Wrote (ip : ℕ) (d : List Byte) (s s' : Sys) : Prop where
  dir : s'.dir = s.dir
  next : s'.next = s.next
  ofile : s'.ofile = s.ofile
  data : s'.data = update s.data ip d

lemma writeLoop_spec : ∀ (fuel : ℕ) (s : Sys) (off : ℕ) (b : List Byte),
    off ≤ (s.data ip).length → b.length < fuel → ∃ k ≤ b.length,
      (writeLoop ip fuel s off b).1 = k ∧
      Wrote ip (overwrite (s.data ip) off (b.take k)) s (writeLoop ip fuel s off b).2
  | fuel + 1, s, off, b, ho, hf => by
    have skip : Wrote ip (overwrite (s.data ip) off (b.take 0)) s s :=
      ⟨rfl, rfl, rfl, by simp⟩
    rw [writeLoop]
    generalize hn : min b.length (3 * bsize) = n1
    have hn1 : n1 ≤ b.length := by omega
    split_ifs with hb
    · exact ⟨0, Nat.zero_le _, rfl, skip⟩
    dsimp only
    unfold writei
    split_ifs with hr
    · exact ⟨0, Nat.zero_le _, rfl, skip⟩
    dsimp only
    rw [length_take_of_le hn1, take_take]
    generalize ht : min n1 (s.room 0) = r
    have hmin : min r n1 = r := by omega
    rw [hmin]
    split_ifs with hr'
    · exact ⟨r, by omega, rfl, rfl, rfl, rfl, rfl⟩
    · obtain rfl : r = n1 := not_not.mp hr'
      have h0 := length_pos_of_ne_nil hb
      have hlen : (b.take r).length = r := length_take_of_le hn1
      have hbs : 0 < bsize := by decide
      obtain ⟨k, hk, he, hw⟩ := writeLoop_spec fuel { s with
          data := update s.data ip (overwrite (s.data ip) off (b.take r))
          room := fun i => s.room (i + 1) } (off + r) (b.drop r)
        (by simp [length_overwrite ho, hlen]) (by simp; omega)
      refine ⟨r + k, by simp at hk; omega, by rw [he], hw.dir, hw.next, hw.ofile, ?_⟩
      have hov := overwrite_overwrite ho (b.take r) ((b.drop r).take k)
      rw [hlen] at hov
      rw [hw.data, take_add]
      dsimp only
      rw [update_self, update_idem, hov]

lemma filewrite_spec {f : File} (hf : s.ofile fd = some f) (hw : f.writable = true)
    (ho : f.off ≤ (s.data f.ip).length) (b : List Byte) : ∃ k ≤ b.length,
    (filewrite s fd b).1 = (b.take k, decide (k = b.length)) ∧
    (filewrite s fd b).2.dir = s.dir ∧
    (filewrite s fd b).2.ofile = update s.ofile fd (some { f with off := f.off + k }) ∧
    (filewrite s fd b).2.data =
      update s.data f.ip (overwrite (s.data f.ip) f.off (b.take k)) := by
  obtain ⟨k, hk, he, hwr⟩ := writeLoop_spec (b.length + 1) s f.off b ho (Nat.lt_succ_self _)
  refine ⟨k, hk, ?_⟩
  simp only [filewrite, hf, hw, Bool.true_eq_false, if_false, he, hwr.dir, hwr.ofile, hwr.data,
    and_self]

/-- The bytes of the file that a path names, none if there is no such file. -/
def bytesAt (s : Sys) (path : List Byte) : List Byte := ((s.dir path).map s.data).getD []

lemma create_spec {path : List Byte} {j : ℕ} (h : create s path = (j, s'))
    (hnext : ∀ p, s.dir p ≠ some s.next) :
    s'.dir path = some j ∧ s'.ofile = s.ofile ∧ s'.data j = bytesAt s path ∧
    ∀ p i, s.dir p = some i → s'.data i = s.data i ∧ (s.dir path ≠ some i → j ≠ i) := by
  unfold create at h
  unfold bytesAt
  cases hd : s.dir path with
  | some j =>
    rw [hd] at h
    obtain ⟨rfl, rfl⟩ := Prod.mk.inj h
    simp [hd]
  | none =>
    rw [hd] at h
    obtain ⟨rfl, rfl⟩ := Prod.mk.inj h
    refine ⟨by simp, rfl, by simp, fun p i hp => ?_⟩
    have hi : i ≠ s.next := fun he => hnext p (he ▸ hp)
    exact ⟨by simp [hi], fun _ => Ne.symm hi⟩

lemma fdalloc_free (h : fdalloc s = some fd) : s.ofile fd = none := by
  simpa using find?_some h

/-! ### `cp` -/

def cpLoop (src dest : ℕ) : ℕ → Sys → Option Sys
  | 0, _ => none
  | fuel + 1, s =>
    match fileread s src 512 with
    | (none, _) => none
    | (some buf, s) =>
      if buf = [] then some s
      else match filewrite s dest buf with
        | ((_, false), _) => none
        | ((_, true), s) => cpLoop src dest fuel s

def cp (fuel : ℕ) (source dest : List Byte) (s : Sys) : Option Sys := do
  let (src, s) ← sysOpen s source 0x000
  let (dst, s) ← sysOpen s dest (0x200 ||| 0x001)
  let s ← cpLoop src dst fuel s
  some (sysClose (sysClose s src) dst)

/-- `o` bytes of the file `i` have been copied over `old`, the bytes of the file `j`. -/
structure Copying (src dst i j : ℕ) (all old : List Byte) (o : ℕ) (s : Sys) : Prop where
  ne : src ≠ dst ∧ i ≠ j
  source : ∃ w, s.ofile src = some ⟨i, o, true, w⟩
  dest : ∃ r, s.ofile dst = some ⟨j, o, r, true⟩
  whole : s.data i = all
  copied : s.data j = overwrite old 0 (all.take o)
  le : o ≤ all.length

lemma cpLoop_spec {src dst i j : ℕ} {all old : List Byte} : ∀ {fuel o : ℕ} {s : Sys},
    cpLoop src dst fuel s = some s' → Copying src dst i j all old o s →
      s'.dir = s.dir ∧ s'.data j = overwrite old 0 all
  | 0, _, _, h, _ => nomatch h
  | fuel + 1, o, s, h, hc => by
    obtain ⟨w, hs⟩ := hc.source
    obtain ⟨r, hd⟩ := hc.dest
    simp only [cpLoop, fileread, hs, hc.whole, Bool.true_eq_false, if_false] at h
    generalize hbuf : (all.drop o).take 512 = buf at h
    have hle := hc.le
    split_ifs at h with h0
    · -- nothing was read, so all is copied
      obtain rfl := some.inj h
      have hlen := congrArg length (hbuf.trans h0)
      simp at hlen
      exact ⟨rfl, by rw [hc.copied, take_of_length_le (by omega)]⟩
    · have hd' : ({ s with
          ofile := update s.ofile src (some ⟨i, o + buf.length, true, w⟩)
          : Sys }).ofile dst = some ⟨j, o, r, true⟩ := by
        simpa [update_of_ne hc.ne.1.symm] using hd
      obtain ⟨k, hk, hret, hdir, hof, hdata⟩ := filewrite_spec hd' rfl
        (by simp [hc.copied, length_overwrite]; omega) buf
      split at h
      · exact nomatch h
      next q s1 he =>
      rw [he] at hret hdir hof hdata
      dsimp only at hdir hof hdata
      obtain rfl : k = buf.length := by simpa using congrArg Prod.snd hret.symm
      have hread : all.take o ++ buf = all.take (o + buf.length) := by
        rw [take_add, ← hbuf, length_take, ← take_eq_take_min]
      have hlen : o + buf.length ≤ all.length := by simp [← hbuf]; omega
      have hov := overwrite_overwrite (Nat.zero_le old.length) (all.take o) buf
      rw [length_take_of_le hle, hread, Nat.zero_add] at hov
      refine (cpLoop_spec (o := o + buf.length) h ⟨hc.ne, ⟨w, ?_⟩, ⟨r, ?_⟩, ?_, ?_, hlen⟩).imp_left
        (·.trans hdir)
      · rw [hof, update_of_ne hc.ne.1, update_self]
      · rw [hof, update_self]
      · rw [hdata, update_of_ne hc.ne.2, hc.whole]
      · rw [hdata, update_self, take_length, hc.copied, hov]

lemma overwrite_start_eq (d b : List Byte) : overwrite d 0 b = b ++ d.drop b.length := by
  simp [overwrite]

lemma cp_result {source dest : List Byte} {i fuel : ℕ} (hi : s.dir source = some i)
    (hne : s.dir dest ≠ some i) (hnext : ∀ p, s.dir p ≠ some s.next)
    (h : cp fuel source dest s = some s') : ∃ j, s'.dir dest = some j ∧ s'.data j =
      s.data i ++ (bytesAt s dest).drop (s.data i).length := by
  simp only [cp, sysOpen, hi, bind_eq_bind, bind_eq_some_iff, some.injEq,
    Prod.exists, Prod.mk.injEq, show (0x000 &&& 0x200 ≠ 0) = False by decide,
    show ((0x200 ||| 0x001) &&& 0x200 ≠ 0) = True by decide,
    show (0x000 &&& 0x400 ≠ 0) = False by decide,
    show ((0x200 ||| 0x001) &&& 0x400 ≠ 0) = False by decide, if_false, if_true,
    map_some] at h
  obtain ⟨_, _, ⟨_, _, ⟨rfl, rfl⟩, src, ha, rfl, rfl⟩, _, _, ⟨j, s2, hc, dst, hb, rfl, rfl⟩, s4,
    hl, rfl⟩ := h
  obtain ⟨hdir, hof, hj, hkeep⟩ := create_spec hc hnext
  obtain ⟨hdata, hij⟩ := hkeep source i hi
  have hsd : src ≠ dst := by
    rintro rfl
    simpa [hof] using fdalloc_free hb
  have hsrc := (congrFun hof src).trans (update_self ..)
  obtain ⟨hd, he⟩ := @cpLoop_spec _ src dst i j (s.data i) (bytesAt s dest) fuel 0 _ hl
    ⟨⟨hsd, (hij hne).symm⟩, ⟨false, (update_of_ne hsd _ _).trans hsrc⟩,
      ⟨false, update_self ..⟩, hdata, hj.trans (overwrite_nil _ _).symm, Nat.zero_le _⟩
  exact ⟨j, (congrFun hd dest).trans hdir, he.trans (overwrite_start_eq _ _)⟩

/-- `cp` makes the destination equal to the source if and only if that was no longer before, or
not there. -/
theorem cp_copies_iff {source dest : List Byte} {i fuel : ℕ} (hi : s.dir source = some i)
    (hne : s.dir dest ≠ some i) (hnext : ∀ p, s.dir p ≠ some s.next)
    (h : cp fuel source dest s = some s') :
    (∃ j, s'.dir dest = some j ∧ s'.data j = s.data i) ↔
      ∀ j, s.dir dest = some j → (s.data j).length ≤ (s.data i).length := by
  obtain ⟨j, hj, he⟩ := cp_result hi hne hnext h
  simp only [hj, some.injEq, exists_eq_left', he, append_right_eq_self]
  cases hd : s.dir dest <;> simp [bytesAt, hd]

/-- A process with its three descriptors, and two files of the bytes `d` and `d'`. -/
def twoFiles (d d' : List Byte) : Sys where
  dir p := if p = [ch 'a'] then some 1 else if p = [ch 'b'] then some 2 else none
  data i := if i = 1 then d else if i = 2 then d' else []
  next := 3
  ofile fd := if fd < 3 then some ⟨0, 0, true, true⟩ else none
  room _ := bsize

lemma twoFiles_next (d d' p : List Byte) : (twoFiles d d').dir p ≠ some (twoFiles d d').next := by
  simp only [twoFiles]
  split_ifs <;> simp

/-- `cp a b` with the bytes `xy` and `z`. -/
theorem cp_copies_xy : ∃ s', cp 2 [ch 'a'] [ch 'b'] (twoFiles [ch 'x', ch 'y'] [ch 'z']) = some s' ∧
    ∃ j, s'.dir [ch 'b'] = some j ∧ s'.data j = [ch 'x', ch 'y'] := by
  obtain ⟨s', hs⟩ : ∃ s', cp 2 [ch 'a'] [ch 'b'] (twoFiles [ch 'x', ch 'y'] [ch 'z']) = some s' :=
    ⟨_, rfl⟩
  exact ⟨s', hs, (cp_copies_iff (i := 1) rfl (by decide) (twoFiles_next _ _) hs).mpr
    (by rintro j ⟨⟩; decide)⟩

/-- `cp a b` with the bytes `x` and `yz` leaves the `z`. -/
theorem cp_leaves_rest : ∃ s', cp 2 [ch 'a'] [ch 'b'] (twoFiles [ch 'x'] [ch 'y', ch 'z']) = some s' ∧
    s'.dir [ch 'b'] = some 2 ∧ s'.data 1 = [ch 'x'] ∧ s'.data 2 = [ch 'x', ch 'z'] :=
  ⟨_, rfl, rfl, rfl, rfl⟩

/-! ### Redirection -/

/-- The calls of `write` on descriptor 1 of a command, one after the other: what they write. -/
def runWrites : List (List Byte) → Sys → List Byte × Sys
  | [], s => ([], s)
  | b :: bs, s =>
    let r := filewrite s 1 b
    let q := runWrites bs r.2
    (r.1.1 ++ q.1, q.2)

/-- `runcmd` on a redirection of a command that makes the calls `writes`. The file name is that of
the parsed word. -/
def runRedir (name : Shell.Word → List Byte) (writes : List (List Byte)) :
    Shell.Cmd → Sys → Option (List Byte × Sys)
  | .redir _ file mode fd, s => do
    let (_, s) ← sysOpen (sysClose s fd) (name file) mode
    some (runWrites writes s)
  | _, _ => none

lemma runWrites_spec : ∀ (bs : List (List Byte)) (f : File) {s : Sys},
    s.ofile 1 = some f → f.writable = true → f.off ≤ (s.data f.ip).length →
      (runWrites bs s).2.data f.ip = overwrite (s.data f.ip) f.off (runWrites bs s).1
  | [], f, s, _, _, _ => by simp [runWrites]
  | b :: bs, f, s, hf, hw, ho => by
    obtain ⟨k, hk, hret, -, hof, hdata⟩ := filewrite_spec hf hw ho b
    have hlen : (b.take k).length = k := length_take_of_le hk
    have ih := runWrites_spec bs _ ((congrFun hof 1).trans (update_self ..)) hw
      (by simp [hdata, length_overwrite ho, hlen])
    have hov := overwrite_overwrite ho (b.take k) (runWrites bs (filewrite s 1 b).2).1
    rw [hlen] at hov
    dsimp only [runWrites] at ih ⊢
    rw [ih, hret, hdata, update_self, hov]

/-- After `close(1)` the file is opened as descriptor 1, at offset 0, and every write goes there. -/
lemma runRedir_data {name : Shell.Word → List Byte} {cmd : Shell.Cmd} {file : Shell.Word}
    {writes : List (List Byte)} {wrote : List Byte} {mode j : ℕ} (hc : mode &&& 0x200 ≠ 0)
    (hm : mode &&& 0x001 ≠ 0) (h0 : s.ofile 0 ≠ none) (hj : s.dir (name file) = some j)
    (h : runRedir name writes (.redir cmd file mode 1) s = some (wrote, s')) :
    s'.data j = overwrite (if mode &&& 0x400 ≠ 0 then [] else s.data j) 0 wrote := by
  have hfd : fdalloc (sysClose s 1) = some 1 := by
    have hr : range nofile = 0 :: 1 :: (range 14).map (· + 2) := by decide
    rw [fdalloc, hr, find?_cons_of_neg (by simpa [sysClose] using h0),
      find?_cons_of_pos (by simp [sysClose])]
  have hcr : create (sysClose s 1) (name file) = (j, sysClose s 1) := by
    simp [create, sysClose, hj]
  simp only [runRedir, sysOpen, if_pos hc, hcr, bind_eq_bind, bind_some, hfd,
    some.injEq] at h
  let f : File := ⟨j, 0, mode &&& 0x001 = 0, mode &&& 0x001 ≠ 0 || mode &&& 0x002 ≠ 0⟩
  have hw := runWrites_spec writes f (s := { sysClose s 1 with
    ofile := update (sysClose s 1).ofile 1 (some f)
    data := if mode &&& 0x400 ≠ 0 then update (sysClose s 1).data j []
      else (sysClose s 1).data }) (by simp)
    ((Bool.or_eq_true _ _).mpr (.inl (decide_eq_true hm))) (Nat.zero_le _)
  rw [h] at hw
  refine hw.trans ?_
  split_ifs <;> simp [sysClose, f]

lemma overwrite_start_eq_append {d b : List Byte} :
    overwrite d 0 b = d ++ b ↔ d = [] ∨ b = [] := by
  constructor
  · intro h
    have hlen := congrArg length h
    rw [length_overwrite (Nat.zero_le _), length_append] at hlen
    rw [← length_eq_zero_iff, ← length_eq_zero_iff]
    omega
  · rintro (rfl | rfl) <;> simp [overwrite]

/-- A redirection with `>>` adds the output to the file, and one with `>` makes it the file, if and
only if it is `>`, the file was empty or there is no output. -/
theorem redirection_iff {name : Shell.Word → List Byte} {tok : Byte} {cmd : Shell.Cmd}
    {file : Shell.Word} {writes : List (List Byte)} {wrote : List Byte} {j : ℕ}
    (htok : tok = ch '>' ∨ tok = ch '+') (h0 : s.ofile 0 ≠ none) (hj : s.dir (name file) = some j)
    (h : runRedir name writes (Shell.redircmd tok cmd file) s = some (wrote, s')) :
    s'.data j = (if tok = ch '+' then s.data j else []) ++ wrote ↔
      tok = ch '>' ∨ s.data j = [] ∨ wrote = [] := by
  obtain rfl | rfl := htok
  · have hr := runRedir_data (by decide) (by decide) h0 hj h
    rw [if_pos (by decide)] at hr
    simp [hr, overwrite, show ch '>' ≠ ch '+' by decide]
  · have hr := runRedir_data (by decide) (by decide) h0 hj h
    rw [if_neg (by decide)] at hr
    rw [hr, if_pos rfl, overwrite_start_eq_append]
    simp [show ch '+' ≠ ch '>' by decide]

/-- `echo x > a` replaces the bytes `yz`. -/
theorem redirection_replaces : ∃ s', runRedir (fun _ => [ch 'a']) [[ch 'x']]
    (Shell.redircmd (ch '>') (.exec []) ⟨0, 0⟩) (twoFiles [ch 'y', ch 'z'] []) =
      some ([ch 'x'], s') ∧ s'.data 1 = [ch 'x'] := by
  obtain ⟨s', hs⟩ : ∃ s', runRedir (fun _ => [ch 'a']) [[ch 'x']]
    (Shell.redircmd (ch '>') (.exec []) ⟨0, 0⟩) (twoFiles [ch 'y', ch 'z'] []) =
      some ([ch 'x'], s') := ⟨_, rfl⟩
  exact ⟨s', hs, (redirection_iff (.inl rfl) (by decide) rfl hs).mpr (.inl rfl)⟩

/-- `echo x >> a` overwrites the first of the bytes `yz`. -/
theorem redirection_overwrites : ∃ s', runRedir (fun _ => [ch 'a']) [[ch 'x']]
    (Shell.redircmd (ch '+') (.exec []) ⟨0, 0⟩) (twoFiles [ch 'y', ch 'z'] []) =
      some ([ch 'x'], s') ∧ s'.data 1 = [ch 'x', ch 'z'] :=
  ⟨_, rfl, rfl⟩

end Xv6.Files
