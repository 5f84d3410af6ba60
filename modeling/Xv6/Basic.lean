import Mathlib

/-! Constants of `param.h` and `fs.h`, process states and the kernel's panics. -/
namespace Xv6

def maxOpBlocks : ℕ := 10

def logSize : ℕ := maxOpBlocks * 3

def nbuf : ℕ := maxOpBlocks * 3

def bsize : ℕ := 1024

def pgsize : ℕ := 4096

def rootDev : ℕ := 1

inductive ProcState
  | unused
  | used
  | sleeping
  | runnable
  | running
  | zombie
  deriving DecidableEq, Repr

inductive Panic
  | tooBigTransaction
  | logWriteOutsideOfTrans
  | logCommitting
  | bgetNoBuffers
  | bwrite
  | brelse
  | freeingFreeBlock
  | igetNoInodes
  | ilock
  | ilockNoType
  | iunlock
  | bmapOutOfRange
  | dirlookupNotDir
  | dirlookupRead
  | dirlinkRead
  | isdiremptyReadi
  | unlinkNlink
  | unlinkWritei
  | filedup
  | fileclose
  | fileread
  | filewrite
  | initExiting
  | invalidFileSystem
  deriving DecidableEq, Repr

lemma neZero_two : NeZero 2 := inferInstance

lemma neZero_three : NeZero 3 := inferInstance

lemma neZero_ptes : NeZero 512 := inferInstance

end Xv6
