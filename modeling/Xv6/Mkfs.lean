import Xv6.Directory

/-! `mkfs`: it lays out an empty file system in `fs.img`, a file on the host, and copies its
arguments into the root directory. -/
namespace Xv6.Mkfs

open Program

def fssize : ℕ := 2000

def ninodes : ℕ := 200

def nbitmap : ℕ := fssize / bpb + 1

def ninodeblocks : ℕ := ninodes / ipb + 1

def nlog : ℕ := logSize

def nmeta : ℕ := 2 + nlog + ninodeblocks + nbitmap

def sb : Superblock where
  size := fssize
  nblocks := fssize - nmeta
  ninodes := ninodes
  nlog := nlog
  logstart := 2
  inodestart := 2 + nlog
  bmapstart := 2 + nlog + ninodeblocks

def sbWords : List ℕ :=
  [fsmagic, sb.size, sb.nblocks, sb.ninodes, sb.nlog, sb.logstart, sb.inodestart, sb.bmapstart]

def sbBlock : Block := fun i =>
  if i.val < 4 * sbWords.length then
    Block.byteOf (BitVec.ofNat 32 (sbWords.getD (i.val / 4) 0)) (i.val % 4)
  else 0

/-- The state of `mkfs`: the blocks of `fs.img` and how many it has, and the counters. -/
structure Image where
  disk : ℕ → Block
  size : ℕ
  freeinode : ℕ
  freeblock : ℕ

inductive Exit
  | assert
  | die
  deriving DecidableEq, Repr

abbrev W : Type → Type := Prog Image Exit

def sector (sec : ℕ) : ℕ := sec % 2 ^ 22

def wsect (sec : ℕ) (buf : Block) : W PUnit :=
  modify fun s =>
    { s with disk := Function.update s.disk (sector sec) buf, size := max s.size (sector sec + 1) }

def rsect (sec : ℕ) : W Block := do
  let s ← get
  if sector sec < s.size then return s.disk (sector sec) else throw .die

def winode (inum : ℕ) (ip : Dinode) : W PUnit := do
  let buf ← rsect (sb.iblock inum)
  wsect (sb.iblock inum) (buf.putDinode inum ip)

def rinode (inum : ℕ) : W Dinode := do
  let buf ← rsect (sb.iblock inum)
  return buf.getDinode inum

def ialloc (type : Short) : W ℕ := do
  let inum := (← get).freeinode
  modify fun s => { s with freeinode := s.freeinode + 1 }
  winode inum { Dinode.zero with type := type, nlink := 1 }
  return inum

def nextBlock : W ℕ := do
  let b := (← get).freeblock
  modify fun s => { s with freeblock := s.freeblock + 1 }
  return b

/-- The part of the loop of `iappend` that finds block `fbn` of the file. -/
def iappendBlock (din : Dinode) (fbn : ℕ) : W (Dinode × ℕ) := do
  if fbn < ndirect then
    let a : Fin (ndirect + 1) := @Fin.ofNat _ neZero_addrs fbn
    if din.addrs a = 0 then
      let b ← nextBlock
      return ({ din with addrs := Function.update din.addrs a b }, b)
    else return (din, din.addrs a)
  else
    let din ← iappendIndirect din
    let indirect ← rsect (din.addrs (Fin.last ndirect))
    if indirect.word (fbn - ndirect) = 0 then
      let b ← nextBlock
      wsect (din.addrs (Fin.last ndirect)) (indirect.setWord (fbn - ndirect) b)
      return (din, b)
    else return (din, indirect.word (fbn - ndirect))
where
  /-- The indirect block. -/
  iappendIndirect (din : Dinode) : W Dinode := do
    if din.addrs (Fin.last ndirect) = 0 then
      let b ← nextBlock
      return { din with addrs := Function.update din.addrs (Fin.last ndirect) b }
    else return din

def iappendFrom : ℕ → Dinode → ℕ → List Byte → W (Dinode × ℕ)
  | 0, din, off, _ => return (din, off)
  | fuel + 1, din, off, p =>
      if 0 < p.length then
        if off / bsize < maxFile then do
          let (din, x) ← iappendBlock din (off / bsize)
          let n1 := min p.length ((off / bsize + 1) * bsize - off)
          let buf ← rsect x
          wsect x (buf.splice (off - off / bsize * bsize) n1 fun j => p.getD j 0)
          iappendFrom fuel din (off + n1) (p.drop n1)
        else throw .assert
      else return (din, off)

def iappend (inum : ℕ) (p : List Byte) : W PUnit := do
  let din ← rinode inum
  let (din, off) ← iappendFrom p.length din din.size p
  winode inum { din with size := off }

def bitmap (used : ℕ) : Block := (List.range used).foldl Block.setBit fun _ => 0

def balloc (used : ℕ) : W PUnit :=
  if used < bpb then wsect sb.bmapstart (bitmap used) else throw .assert

/-- An argument of `mkfs`: the path, without a NUL, and what the calls of `read` give until one
gives nothing, if the file can be opened. -/
structure Input where
  path : List Byte
  reads : Option (List (List Byte))
  nonul : (0 : Byte) ∉ path
  sized : ∀ bufs ∈ reads, ∀ buf ∈ bufs, 0 < buf.length ∧ buf.length ≤ bsize

def Input.base (f : Input) : List Byte :=
  if f.path.take 5 = [117, 115, 101, 114, 47] then f.path.drop 5 else f.path

def Input.shortname (f : Input) : List Byte :=
  if f.base.head? = some 95 then f.base.tail else f.base

def Input.bytes (f : Input) : List Byte := (f.reads.getD []).flatten

def direntBytes (inum : ℕ) (name : List Byte) : List Byte :=
  (List.range direntSize).map (direntByte ⟨inum % 2 ^ 16, nameOf name⟩)

def addFile (rootino : ℕ) (f : Input) : W PUnit :=
  if (47 : Byte) ∈ f.base then throw .assert
  else
    match f.reads with
    | none => throw .die
    | some bufs =>
        if dirsiz < f.shortname.length then throw .assert
        else do
          let inum ← ialloc tFile
          iappend rootino (direntBytes inum f.shortname)
          forM bufs (iappend inum)

def fixRoot (rootino : ℕ) : W PUnit := do
  let din ← rinode rootino
  winode rootino { din with size := (din.size / bsize + 1) * bsize }

@[irreducible]
def main (files : List Input) : W PUnit := do
  forM (List.range fssize) fun i => wsect i fun _ => 0
  wsect 1 sbBlock
  let rootino ← ialloc tDir
  if rootino = rootIno then
    iappend rootino (direntBytes rootino [46])
    iappend rootino (direntBytes rootino [46, 46])
    forM files (addFile rootino)
    fixRoot rootino
    balloc (← get).freeblock
  else throw .assert

def start : Image := ⟨fun _ _ => 0, 0, 1, nmeta⟩

def outcome (x : W PUnit) (s : Image) : Option Image :=
  match x.run s with
  | (.ok _, s') => some s'
  | (.error _, _) => none

def mkfs (files : List Input) : Option Image := outcome (main files) start

end Xv6.Mkfs
