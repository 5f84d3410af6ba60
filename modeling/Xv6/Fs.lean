import Xv6.Layout
import Xv6.LogCommit

/-! The block and inode layers of `fs.c`. `Fs` is one process's view of the file system: a
lock held by somebody else is not waited for, since calls run one after another. -/
namespace Xv6

open Program Function

def ninode : ℕ := 50

instance : NeZero ninode := ⟨by decide⟩

structure Inode where
  dev : ℕ
  inum : ℕ
  ref : ℤ
  locked : Bool
  valid : Bool
  din : Dinode

abbrev Slot := Fin ninode

structure Fs where
  kernel : Kernel
  sb : Superblock
  itable : Slot → Inode

abbrev F : Type → Type := Prog Fs Stop

def liftK {α : Type} (x : K α) : F α := zoom Fs.kernel (fun s k => { s with kernel := k }) x

instance (priority := low) : MonadLift K F := ⟨liftK⟩

def bzero (dev bno : ℕ) : K PUnit := do
  bread dev bno
  setData dev bno fun _ => 0
  logWrite bno
  brelse dev bno

/-- The inner loop of `balloc`, at `bi` with `n` turns left: the first clear bit. -/
def findFree (sb : Superblock) (d : Block) (b : ℕ) : ℕ → ℕ → Option ℕ
  | 0, _ => none
  | n + 1, bi =>
      if b + bi < sb.size then
        if d.bit bi then findFree sb d b n (bi + 1) else some bi
      else none

def ballocFrom (sb : Superblock) (dev : ℕ) : ℕ → ℕ → K ℕ
  | 0, _ => pure 0
  | n + 1, b => do
      bread dev (sb.bblock b)
      let d ← bdata dev (sb.bblock b)
      match findFree sb d b bpb 0 with
      | some bi =>
          setData dev (sb.bblock b) (d.setBit bi)
          logWrite (sb.bblock b)
          brelse dev (sb.bblock b)
          bzero dev (b + bi)
          return b + bi
      | none =>
          brelse dev (sb.bblock b)
          ballocFrom sb dev n (b + bpb)

def balloc (sb : Superblock) (dev : ℕ) : K ℕ := ballocFrom sb dev ((sb.size + bpb - 1) / bpb) 0

def bfree (sb : Superblock) (dev b : ℕ) : K PUnit := do
  bread dev (sb.bblock b)
  let d ← bdata dev (sb.bblock b)
  if d.bit (b % bpb) then
    setData dev (sb.bblock b) (d.clearBit (b % bpb))
    logWrite (sb.bblock b)
    brelse dev (sb.bblock b)
  else throw (.panic .freeingFreeBlock)

namespace Fs

def setInode (s : Fs) (ip : Slot) (f : Inode → Inode) : Fs :=
  { s with itable := update s.itable ip (f (s.itable ip)) }

end Fs

def inode (ip : Slot) : F Inode := do
  let s ← get
  return s.itable ip

def modifyInode (ip : Slot) (f : Inode → Inode) : F PUnit := modify fun s => s.setInode ip f

/-- Assignments to the fields of `*ip` that are a copy of the disk inode. -/
def modifyDinode (ip : Slot) (f : Dinode → Dinode) : F PUnit :=
  modifyInode ip fun x => { x with din := f x.din }

def iget (dev inum : ℕ) : F Slot := do
  let s ← get
  match (List.finRange ninode).find? fun ip =>
      0 < (s.itable ip).ref ∧ (s.itable ip).dev = dev ∧ (s.itable ip).inum = inum with
  | some ip =>
      modifyInode ip fun x => { x with ref := x.ref + 1 }
      return ip
  | none =>
      match (List.finRange ninode).find? fun ip => (s.itable ip).ref = 0 with
      | some ip =>
          modifyInode ip fun x => { x with dev := dev, inum := inum, ref := 1, valid := false }
          return ip
      | none => throw (.panic .igetNoInodes)

def idup (ip : Slot) : F Slot := do
  modifyInode ip fun x => { x with ref := x.ref + 1 }
  return ip

def iupdate (ip : Slot) : F PUnit := do
  let sb := (← get).sb
  let x ← inode ip
  bread x.dev (sb.iblock x.inum)
  let d ← bdata x.dev (sb.iblock x.inum)
  setData x.dev (sb.iblock x.inum) (d.putDinode x.inum x.din)
  logWrite (sb.iblock x.inum)
  brelse x.dev (sb.iblock x.inum)

def iload (ip : Slot) : F PUnit := do
  let sb := (← get).sb
  let x ← inode ip
  bread x.dev (sb.iblock x.inum)
  let d ← bdata x.dev (sb.iblock x.inum)
  modifyInode ip fun x => { x with din := d.getDinode x.inum }
  brelse x.dev (sb.iblock x.inum)
  modifyInode ip fun x => { x with valid := true }
  if (d.getDinode x.inum).type = 0 then throw (.panic .ilockNoType) else pure ⟨⟩

def ilock (ip : Slot) : F PUnit := do
  let x ← inode ip
  if x.ref < 1 then throw (.panic .ilock)
  else if x.locked then throw .deadlock
  else
    modifyInode ip fun x => { x with locked := true }
    if x.valid then pure ⟨⟩ else iload ip

def iunlock (ip : Slot) : F PUnit := do
  let x ← inode ip
  if !x.locked || x.ref < 1 then throw (.panic .iunlock)
  else modifyInode ip fun x => { x with locked := false }

def truncDirect (ip : Slot) (i : Fin (ndirect + 1)) : F PUnit := do
  let sb := (← get).sb
  let x ← inode ip
  if x.din.addrs i = 0 then pure ⟨⟩
  else
    bfree sb x.dev (x.din.addrs i)
    modifyDinode ip fun d => { d with addrs := update d.addrs i 0 }

def truncIndirectAt (sb : Superblock) (dev addr j : ℕ) : K PUnit := do
  let a ← bdata dev addr
  if a.word j = 0 then pure ⟨⟩ else bfree sb dev (a.word j)

def truncIndirect (ip : Slot) : F PUnit := do
  let sb := (← get).sb
  let x ← inode ip
  let addr := x.din.addrs (Fin.last ndirect)
  if addr = 0 then pure ⟨⟩
  else
    bread x.dev addr
    forM (List.range nindirect) fun j => liftK (truncIndirectAt sb x.dev addr j)
    brelse x.dev addr
    bfree sb x.dev addr
    modifyDinode ip fun d => { d with addrs := update d.addrs (Fin.last ndirect) 0 }

def itrunc (ip : Slot) : F PUnit := do
  forM (List.finRange ndirect) fun i => truncDirect ip i.castSucc
  truncIndirect ip
  modifyDinode ip fun d => { d with size := 0 }
  iupdate ip

def ifree (ip : Slot) : F PUnit := do
  let x ← inode ip
  if x.locked then throw .deadlock
  else
    modifyInode ip fun x => { x with locked := true }
    itrunc ip
    modifyDinode ip fun d => { d with type := 0 }
    iupdate ip
    modifyInode ip fun x => { x with valid := false }
    modifyInode ip fun x => { x with locked := false }

def unref (ip : Slot) : F PUnit := modifyInode ip fun x => { x with ref := x.ref - 1 }

def iput (ip : Slot) : F PUnit := do
  let x ← inode ip
  if x.ref = 1 ∧ x.valid ∧ x.din.nlink = 0 then
    ifree ip
    unref ip
  else unref ip

def iunlockput (ip : Slot) : F PUnit := do
  iunlock ip
  iput ip

/-- `bmap` of a block that `addrs[i]` holds directly: `bn`, or the indirect block. -/
def bmapAddr (ip : Slot) (i : Fin (ndirect + 1)) : F ℕ := do
  let sb := (← get).sb
  let x ← inode ip
  if x.din.addrs i ≠ 0 then return x.din.addrs i
  else
    let addr ← balloc sb x.dev
    if addr = 0 then return 0
    else
      modifyDinode ip fun d => { d with addrs := update d.addrs i addr }
      return addr

def storeIndirect (dev ind bn addr : ℕ) : K PUnit := do
  let a ← bdata dev ind
  if addr = 0 then pure ⟨⟩
  else
    setData dev ind (a.setWord bn addr)
    logWrite ind

def bmapIndirect (sb : Superblock) (dev ind bn : ℕ) : K ℕ := do
  bread dev ind
  let a ← bdata dev ind
  if a.word bn ≠ 0 then
    brelse dev ind
    return a.word bn
  else
    let addr ← balloc sb dev
    storeIndirect dev ind bn addr
    brelse dev ind
    return addr

def bmap (ip : Slot) (bn : ℕ) : F ℕ := do
  if bn < ndirect then bmapAddr ip (@Fin.ofNat _ neZero_addrs bn)
  else if bn - ndirect < nindirect then
    let sb := (← get).sb
    let x ← inode ip
    let ind ← bmapAddr ip (Fin.last ndirect)
    if ind = 0 then return 0
    else bmapIndirect sb x.dev ind (bn - ndirect)
  else throw (.panic .bmapOutOfRange)

abbrev UserMem := ℕ → Option (ℕ → Byte)

inductive Source
  | kernel (data : ℕ → Byte)
  | user (mem : UserMem) (addr : ℕ)

/-- `copyin` into a block, page by page; the pages before an unmapped one are copied. -/
def copyin (mem : UserMem) : ℕ → Block → ℕ → ℕ → ℕ → Block × Bool
  | 0, d, _, _, len => (d, len = 0)
  | n + 1, d, dst, va, len =>
      if len = 0 then (d, true)
      else
        match mem (va / pgsize) with
        | none => (d, false)
        | some page =>
            let m := min (pgsize - va % pgsize) len
            copyin mem n (d.splice dst m fun j => page (va % pgsize + j)) (dst + m) (va + m) (len - m)

def eitherCopyin (src : Source) (d : Block) (dst tot len : ℕ) : Block × Bool :=
  match src with
  | .kernel data => (d.splice dst len fun j => data (tot + j), true)
  | .user mem addr => copyin mem len d dst (addr + tot) len

/-- `if(either_copyin(..) == -1) { brelse(bp); break; } log_write(bp); brelse(bp)`; tells
whether the loop goes on. -/
def writeBlock (src : Source) (dev addr dst tot len : ℕ) : K Bool := do
  bread dev addr
  let d ← bdata dev addr
  setData dev addr (eitherCopyin src d dst tot len).1
  if (eitherCopyin src d dst tot len).2 then
    logWrite addr
    brelse dev addr
    return true
  else
    brelse dev addr
    return false

/-- The loop of `writei`, with fuel for the `n - tot` bytes left; returns `tot` and `off`. -/
def writeLoop (ip : Slot) (src : Source) (n : ℕ) : ℕ → ℕ → ℕ → F (ℕ × ℕ)
  | 0, tot, off => pure (tot, off)
  | fuel + 1, tot, off =>
      if tot < n then do
        let x ← inode ip
        let addr ← bmap ip (off / bsize)
        if addr = 0 then return (tot, off)
        else
          let m := min (n - tot) (bsize - off % bsize)
          let more ← writeBlock src x.dev addr (off % bsize) tot m
          if more then writeLoop ip src n fuel (tot + m) (off + m) else return (tot, off)
      else pure (tot, off)

def uint (n : ℕ) : ℕ := n % 2 ^ 32

def writei (ip : Slot) (src : Source) (off n : ℕ) : F ℤ := do
  let x ← inode ip
  if off > x.din.size ∨ uint (off + n) < off then return -1
  else if uint (off + n) > maxFile * bsize then return -1
  else
    let r ← writeLoop ip src n n 0 off
    modifyDinode ip fun d => { d with size := max d.size r.2 }
    iupdate ip
    return r.1

/-- Where `readi` copies to: whether `either_copyout(dst + tot, len)` succeeds. -/
abbrev Dest := ℕ → ℕ → Bool

/-- The loop of `readi`; returns the bytes read so far, or nothing after a failed copy. -/
def readLoop (ip : Slot) (dst : Dest) (n : ℕ) : ℕ → List Byte → ℕ → F (Option (List Byte))
  | 0, got, _ => pure (some got)
  | fuel + 1, got, off =>
      if got.length < n then do
        let x ← inode ip
        let addr ← bmap ip (off / bsize)
        if addr = 0 then return some got
        else
          bread x.dev addr
          let d ← bdata x.dev addr
          brelse x.dev addr
          let m := min (n - got.length) (bsize - off % bsize)
          if dst got.length m then
            readLoop ip dst n fuel (got ++ (List.range m).map fun j => d.byte (off % bsize + j))
              (off + m)
          else return none
      else pure (some got)

/-- `readi`: the bytes read; `none` is the result -1. -/
def readi (ip : Slot) (dst : Dest) (off n : ℕ) : F (Option (List Byte)) := do
  let x ← inode ip
  if off > x.din.size ∨ uint (off + n) < off then return some []
  else
    let n := if uint (off + n) > x.din.size then x.din.size - off else n
    readLoop ip dst n n [] off

end Xv6
