import Xv6.Vm

/-! `exec` and `sys_exec`: the program file is its bytes, and what `sys_exec` finds at the
user's argument vector is given as a list. -/
namespace Xv6.Vm

open Program

/-- `readi` of a file into kernel memory: the bytes it delivers. `off` and `n` are `uint`s. -/
def readi (file : List Byte) (off n : ℕ) : List Byte :=
  if file.length < off ∨ (off + n) % 2 ^ 32 < off then [] else (file.drop off).take n

def le (bs : List Byte) (off k : ℕ) : ℕ :=
  ((bs.drop off).take k).foldr (fun b acc => b.toNat + 256 * acc) 0

def bytes64 (x : ℕ) : List Byte := (List.range 8).map fun k => BitVec.ofNat 8 (x / 256 ^ k)

def sub64 (a b : ℕ) : ℕ := (a + 2 ^ 64 - b % 2 ^ 64) % 2 ^ 64

def elfMagic : ℕ := 0x464C457F

def elfProgLoad : ℕ := 1

def maxarg : ℕ := 32

def userstack : ℕ := 1

structure Elfhdr where
  magic : ℕ
  entry : ℕ
  phoff : ℕ
  phnum : ℕ
  deriving DecidableEq

structure Proghdr where
  type : ℕ
  flags : ℕ
  off : ℕ
  vaddr : ℕ
  filesz : ℕ
  memsz : ℕ
  deriving DecidableEq

def sizeofElfhdr : ℕ := 64

def sizeofProghdr : ℕ := 56

def elfhdr (bs : List Byte) : Elfhdr := ⟨le bs 0 4, le bs 24 8, le bs 32 8, le bs 56 2⟩

def proghdr (bs : List Byte) : Proghdr :=
  ⟨le bs 0 4, le bs 4 4, le bs 8 8, le bs 16 8, le bs 32 8, le bs 40 8⟩

def flags2perm (flags : ℕ) : Word :=
  (if flags % 2 = 1 then pteX else 0) ||| (if flags / 2 % 2 = 1 then pteW else 0)

def loadsegFrom (pagetable va : ℕ) (file : List Byte) (offset sz : ℕ) : ℕ → ℕ → M Bool
  | 0, _ => return true
  | n + 1, i => do
      let pa ← walkaddr pagetable ((va + i) % 2 ^ 64)
      if pa = 0 then throw .loadsegAddressShouldExist
      else
        let cnt := if sz - i < pgsize then sz - i else pgsize
        let bs := readi file ((offset + i) % 2 ^ 32) cnt
        let d ← page pa
        setPage pa (d.write 0 bs)
        if bs.length = cnt then loadsegFrom pagetable va file offset sz n (i + pgsize)
        else return false

/-- `loadseg`; `offset` and `sz` are `uint`s. The loop stops at `walkaddr` long before `i`
could wrap. -/
def loadseg (pagetable va : ℕ) (file : List Byte) (offset sz : ℕ) : M Bool :=
  loadsegFrom pagetable va file offset sz (turns 0 sz) 0

section exec
variable [Image]

/-- The loop of `exec` over the program headers, with `n` left: whether all were loaded, and
the size of the image so far. `off` is an `int` that `readi` takes as a `uint`. -/
def loadProgram (file : List Byte) (pagetable : ℕ) : ℕ → ℕ → ℕ → M (Bool × ℕ)
  | 0, _, sz => return (true, sz)
  | n + 1, off, sz =>
      let bs := readi file off sizeofProghdr
      let ph := proghdr bs
      if bs.length ≠ sizeofProghdr then return (false, sz)
      else if ph.type ≠ elfProgLoad then
        loadProgram file pagetable n ((off + sizeofProghdr) % 2 ^ 32) sz
      else if ph.memsz < ph.filesz then return (false, sz)
      else if (ph.vaddr + ph.memsz) % 2 ^ 64 < ph.vaddr then return (false, sz)
      else if ph.vaddr % pgsize ≠ 0 then return (false, sz)
      else do
        let sz1 ← uvmalloc pagetable sz ((ph.vaddr + ph.memsz) % 2 ^ 64) (flags2perm ph.flags)
        if sz1 = 0 then return (false, sz)
        else if ← loadseg pagetable ph.vaddr file (ph.off % 2 ^ 32) (ph.filesz % 2 ^ 32) then
          loadProgram file pagetable n ((off + sizeofProghdr) % 2 ^ 32) sz1
        else return (false, sz1)

end exec

/-- The loop of `exec` that pushes the argument strings; `ustack` has the pointers so far. -/
def pushArgs (pagetable stackbase : ℕ) : List (List Byte) → ℕ → List ℕ → M (Option (ℕ × List ℕ))
  | [], sp, ustack => return some (sp, ustack)
  | arg :: argv, sp, ustack =>
      if maxarg ≤ ustack.length then return none
      else
        let sp := sub64 sp (arg.length + 1)
        let sp := sp - sp % 16
        if sp < stackbase then return none
        else do
          if ← copyout pagetable sp (arg ++ [0]) then
            pushArgs pagetable stackbase argv sp (ustack ++ [sp])
          else return none

/-- The array of `argv[]` pointers below the strings; gives the final stack pointer. There is
no room for the null pointer in a full `ustack`. -/
def pushPointers (pagetable stackbase sp : ℕ) (ustack : List ℕ) : M (Option ℕ) :=
  let sp := sub64 sp ((ustack.length + 1) * 8)
  let sp := sp - sp % 16
  if maxarg ≤ ustack.length then throw .ustackOverflow
  else if sp < stackbase then return none
  else do
    if ← copyout pagetable sp ((ustack ++ [0]).flatMap bytes64) then return some sp
    else return none

section exec
variable [Image]

/-- The stack of the new image: the stack pointer, unless something failed, and the size. -/
def buildStack (pagetable sz : ℕ) (argv : List (List Byte)) : M (Option ℕ × ℕ) := do
  let sz := pgroundup sz
  let sz1 ← uvmalloc pagetable sz ((sz + (userstack + 1) * pgsize) % 2 ^ 64) pteW
  if sz1 = 0 then return (none, sz)
  else
    uvmclear pagetable (sz1 - (userstack + 1) * pgsize)
    match ← pushArgs pagetable (sz1 - userstack * pgsize) argv sz1 [] with
    | none => return (none, sz1)
    | some (sp, ustack) =>
        let sp ← pushPointers pagetable (sz1 - userstack * pgsize) sp ustack
        return (sp, sz1)

def setTrapframe (tf : ℕ) (i : Fin 512) (x : ℕ) : M PUnit := storePte ⟨tf, i⟩ (BitVec.ofNat 64 x)

/-- The fields of `struct proc` that `exec` works on; the trapframe is in page `tf`. -/
structure Proc where
  pagetable : ℕ
  sz : ℕ
  tf : ℕ
  name : List Byte

/-- A process in `exec`: the machine, its own fields, how many of its transactions are open, and
its lock on the inode of the program and references to it. -/
structure Exe where
  mach : Mach
  proc : Proc
  ops : ℕ
  locked : Bool
  refs : ℕ

abbrev X : Type → Type := Prog Exe Halt

def mem {α : Type} (x : M α) : X α := zoom Exe.mach (fun s m => { s with mach := m }) x

def beginOp : X PUnit := modify fun s => { s with ops := s.ops + 1 }

def endOp : X PUnit := modify fun s => { s with ops := s.ops - 1 }

def namei : X PUnit := modify fun s => { s with refs := s.refs + 1 }

def ilock : X PUnit := do
  let s ← get
  if s.refs < 1 ∨ s.locked then throw .ilock else set { s with locked := true }

def iunlockput : X PUnit := do
  let s ← get
  if s.refs < 1 ∨ ¬ s.locked then throw .iunlock
  else set { s with locked := false, refs := s.refs - 1 }

/-- The name of the program without its directories, as `safestrcpy` cuts it to fit. -/
def lastName (path : List Byte) : List Byte :=
  ((path.reverse.takeWhile (· ≠ 47)).reverse).take 15

def freeImage (pagetable : Option ℕ) (sz : ℕ) : X PUnit :=
  match pagetable with
  | some pagetable => mem (procFreepagetable pagetable sz)
  | none => pure ⟨⟩

/-- The label `bad` of `exec`; `ip` says whether the inode is still held. -/
def bad (pagetable : Option ℕ) (sz : ℕ) (ip : Bool) : X (Option ℕ) := do
  freeImage pagetable sz
  if ip then do
    iunlockput
    endOp
    return none
  else return none

attribute [local instance] neZero_ptes in
def commit (path : List Byte) (pagetable sz entry sp argc : ℕ) : X (Option ℕ) := do
  let p := (← get).proc
  mem (setTrapframe p.tf 15 sp)
  modify fun s => { s with proc := { p with name := lastName path, pagetable := pagetable, sz := sz } }
  mem (setTrapframe p.tf 3 entry)
  mem (setTrapframe p.tf 6 sp)
  mem (procFreepagetable p.pagetable p.sz)
  return some argc

/-- `exec`, by a process that finds `file` at `path`; none is the result -1. -/
def exec (path : List Byte) (file : Option (List Byte)) (argv : List (List Byte)) :
    X (Option ℕ) := do
  beginOp
  match file with
  | none =>
      endOp
      return none
  | some file =>
      namei
      ilock
      let bs := readi file 0 sizeofElfhdr
      let elf := elfhdr bs
      if bs.length ≠ sizeofElfhdr then bad none 0 true
      else if elf.magic ≠ elfMagic then bad none 0 true
      else
        match ← mem (procPagetable (← get).proc.tf) with
        | none => bad none 0 true
        | some pagetable =>
            let (ok, sz) ← mem (loadProgram file pagetable elf.phnum (elf.phoff % 2 ^ 32) 0)
            if !ok then bad (some pagetable) sz true
            else
              iunlockput
              endOp
              match ← mem (buildStack pagetable sz argv) with
              | (none, sz) => bad (some pagetable) sz false
              | (some sp, sz) => commit path pagetable sz elf.entry sp argv.length

end exec

end Xv6.Vm
