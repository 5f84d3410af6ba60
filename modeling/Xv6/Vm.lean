import Xv6.Page
import Xv6.Program

/-! Physical memory and user page tables: `kalloc.c`, the user half of `vm.c`, and the page
table routines of `proc.c`. A page, and so a `pagetable_t`, is named by its number; `uint64`
values are natural numbers below `2 ^ 64`. -/
namespace Xv6.Vm

open Program (Prog)

def maxva : ℕ := 2 ^ 38

def trampoline : ℕ := maxva - pgsize

def trapframe : ℕ := trampoline - pgsize

def kernbase : ℕ := 0x80000000

def phystop : ℕ := kernbase + 128 * 1024 * 1024

def pgroundup (sz : ℕ) : ℕ := (sz + pgsize - 1) % 2 ^ 64 / pgsize * pgsize

def pgrounddown (a : ℕ) : ℕ := a / pgsize * pgsize

/-- What the linker decides: `end`, the first address after the kernel, and the page that
holds the trampoline code. -/
class Image where
  kend : ℕ
  trampolinePage : ℕ
  kernbase_le : kernbase ≤ kend

/-- How the code stops: its panics, a use of a null pointer, and a page table deeper than
the recursion of `freewalk` is followed here. -/
inductive Halt
  | kfree
  | walk
  | mappagesVaNotAligned
  | mappagesSizeNotAligned
  | mappagesSize
  | mappagesRemap
  | uvmunmapNotAligned
  | uvmunmapWalk
  | uvmunmapNotMapped
  | uvmunmapNotALeaf
  | uvmfirstMoreThanAPage
  | freewalkLeaf
  | uvmcopyPteShouldExist
  | uvmcopyPageNotPresent
  | uvmclear
  | loadsegAddressShouldExist
  | ilock
  | iunlock
  | ustackOverflow
  | filedup
  | fileclose
  | initExiting
  | argraw
  | acquire
  | release
  | nullPointer
  | tooDeep
  deriving DecidableEq, Repr

/-- Physical memory and the allocator. `oom` says of the coming calls of `kalloc` which find
no page, as when other processors have taken the last ones. -/
structure Mach where
  mem : ℕ → Page
  freelist : List ℕ
  oom : List Bool

abbrev M : Type → Type := Prog Mach Halt

def page (p : ℕ) : M Page := do
  let m ← get
  return m.mem p

def setPage (p : ℕ) (d : Page) : M PUnit :=
  modify fun m => { m with mem := Function.update m.mem p d }

structure PteRef where
  page : ℕ
  index : Fin 512
  deriving DecidableEq

def loadPte (pte : PteRef) : M Word := do
  let d ← page pte.page
  return d.get64 pte.index

def storePte (pte : PteRef) (w : Word) : M PUnit := do
  let d ← page pte.page
  setPage pte.page (d.put64 pte.index w)

section alloc
variable [Image]

def kfree (pa : ℕ) : M PUnit :=
  if pa * pgsize < Image.kend ∨ phystop ≤ pa * pgsize then throw .kfree
  else do
    -- junk, to catch dangling references
    setPage pa (.fill 1)
    modify fun m => { m with freelist := pa :: m.freelist }

end alloc

def kalloc : M (Option ℕ) := do
  let m ← get
  set { m with oom := m.oom.tail }
  if m.oom.headD false then return none
  else
    match m.freelist with
    | [] => return none
    | r :: next =>
        modify fun m => { m with freelist := next }
        setPage r (.fill 5)
        return some r

def px (level va : ℕ) : Fin 512 := Fin.ofNat 512 (va / 2 ^ (12 + 9 * level))

def walkFrom (va : ℕ) (alloc : Bool) : ℕ → ℕ → M (Option ℕ)
  | 0, pagetable => return some pagetable
  | level + 1, pagetable => do
      let pte : PteRef := ⟨pagetable, px (level + 1) va⟩
      let w ← loadPte pte
      if hasFlag w pteV then walkFrom va alloc level (ptePage w)
      else if alloc then
        match ← kalloc with
        | none => return none
        | some child =>
            setPage child (.fill 0)
            storePte pte (mkPte child 0)
            walkFrom va alloc level child
      else return none

def walk (pagetable va : ℕ) (alloc : Bool) : M (Option PteRef) :=
  if maxva ≤ va then throw .walk
  else do
    let leaf ← walkFrom va alloc 2 pagetable
    return leaf.map fun p => ⟨p, px 0 va⟩

def walkaddr (pagetable va : ℕ) : M ℕ :=
  if maxva ≤ va then return 0
  else do
    match ← walk pagetable va false with
    | none => return 0
    | some pte =>
        let w ← loadPte pte
        if hasFlag w pteV ∧ hasFlag w pteU then return ptePage w else return 0

def mappagesFrom (pagetable : ℕ) (perm : Word) : ℕ → ℕ → ℕ → M Bool
  | n, a, pa => do
      match ← walk pagetable a true with
      | none => return false
      | some pte =>
          let w ← loadPte pte
          if hasFlag w pteV then throw .mappagesRemap
          else
            storePte pte (mkPte pa perm)
            match n with
            | 0 => return true
            | n + 1 => mappagesFrom pagetable perm n (a + pgsize) (pa + 1)

/-- `mappages`; the addresses cannot wrap, since `walk` stops at `MAXVA`. -/
def mappages (pagetable va size pa : ℕ) (perm : Word) : M Bool :=
  if va % pgsize ≠ 0 then throw .mappagesVaNotAligned
  else if size % pgsize ≠ 0 then throw .mappagesSizeNotAligned
  else if size = 0 then throw .mappagesSize
  else mappagesFrom pagetable perm (size / pgsize - 1) va pa

/-- The turns of `for(; a < b; a += PGSIZE)`. In every such loop an `a` beyond `MAXVA` stops
at `walk`, so `a` does not wrap. -/
def turns (a b : ℕ) : ℕ := (b - a + pgsize - 1) / pgsize

def signExtend32 (x : ℕ) : ℕ := if x % 2 ^ 32 < 2 ^ 31 then x % 2 ^ 32 else x % 2 ^ 32 + (2 ^ 64 - 2 ^ 32)

section user
variable [Image]

def freeIf (doFree : Bool) (pa : ℕ) : M PUnit := if doFree then kfree pa else return ⟨⟩

def uvmunmapFrom (pagetable : ℕ) (doFree : Bool) : ℕ → ℕ → M PUnit
  | 0, _ => return ⟨⟩
  | n + 1, a => do
      match ← walk pagetable a false with
      | none => throw .uvmunmapWalk
      | some pte =>
          let w ← loadPte pte
          if ¬ hasFlag w pteV then throw .uvmunmapNotMapped
          else if pteFlags w = pteV then throw .uvmunmapNotALeaf
          else
            freeIf doFree (ptePage w)
            storePte pte 0
            uvmunmapFrom pagetable doFree n (a + pgsize)

def uvmunmap (pagetable va npages : ℕ) (doFree : Bool) : M PUnit :=
  if va % pgsize ≠ 0 then throw .uvmunmapNotAligned
  else uvmunmapFrom pagetable doFree (turns va ((va + npages * pgsize) % 2 ^ 64)) va

def uvmcreate : M (Option ℕ) := do
  match ← kalloc with
  | none => return none
  | some pagetable =>
      setPage pagetable (.fill 0)
      return some pagetable

def uvmdealloc (pagetable oldsz newsz : ℕ) : M ℕ :=
  if oldsz ≤ newsz then return oldsz
  else if pgroundup newsz < pgroundup oldsz then do
    let npages := signExtend32 ((pgroundup oldsz - pgroundup newsz) / pgsize)
    uvmunmap pagetable (pgroundup newsz) npages true
    return newsz
  else return newsz

/-- The loop of `uvmalloc`, with `n` turns left; false when it has given up. -/
def uvmallocFrom (pagetable oldsz : ℕ) (xperm : Word) : ℕ → ℕ → M Bool
  | 0, _ => return true
  | n + 1, a => do
      match ← kalloc with
      | none =>
          let _ ← uvmdealloc pagetable a oldsz
          return false
      | some mem =>
          setPage mem (.fill 0)
          if ← mappages pagetable a pgsize mem (pteR ||| pteU ||| xperm) then
            uvmallocFrom pagetable oldsz xperm n (a + pgsize)
          else
            kfree mem
            let _ ← uvmdealloc pagetable a oldsz
            return false

def uvmalloc (pagetable oldsz newsz : ℕ) (xperm : Word) : M ℕ :=
  if newsz < oldsz then return oldsz
  else do
    let oldsz := pgroundup oldsz
    if ← uvmallocFrom pagetable oldsz xperm (turns oldsz newsz) oldsz then return newsz
    else return 0

@[irreducible] def entries : List (Fin 512) := List.finRange 512

def freeEntry (free : ℕ → M PUnit) (pagetable : ℕ) (i : Fin 512) : M PUnit := do
  let w ← loadPte ⟨pagetable, i⟩
  if hasFlag w pteV ∧ ¬ hasFlag w (pteR ||| pteW ||| pteX) then
    -- this entry points to a lower-level page table
    free (ptePage w)
    storePte ⟨pagetable, i⟩ 0
  else if hasFlag w pteV then throw .freewalkLeaf
  else return ⟨⟩

def freewalk : ℕ → ℕ → M PUnit
  | 0, _ => throw .tooDeep
  | fuel + 1, pagetable => do
      forM entries (freeEntry (freewalk fuel) pagetable)
      kfree pagetable

def uvmfree (pagetable sz : ℕ) : M PUnit :=
  if 0 < sz then do
    uvmunmap pagetable 0 (pgroundup sz / pgsize) true
    freewalk 3 pagetable
  else freewalk 3 pagetable

def uvmcopyFrom (old new : ℕ) : ℕ → ℕ → M Bool
  | 0, _ => return true
  | n + 1, i => do
      match ← walk old i false with
      | none => throw .uvmcopyPteShouldExist
      | some pte =>
          let w ← loadPte pte
          if ¬ hasFlag w pteV then throw .uvmcopyPageNotPresent
          else
            match ← kalloc with
            | none =>
                uvmunmap new 0 (i / pgsize) true
                return false
            | some mem =>
                let d ← page (ptePage w)
                setPage mem d
                if ← mappages new i pgsize mem (pteFlags w) then
                  uvmcopyFrom old new n (i + pgsize)
                else
                  kfree mem
                  uvmunmap new 0 (i / pgsize) true
                  return false

def uvmcopy (old new sz : ℕ) : M Bool := uvmcopyFrom old new (turns 0 sz) 0

end user

def uvmclear (pagetable va : ℕ) : M PUnit := do
  match ← walk pagetable va false with
  | none => throw .uvmclear
  | some pte =>
      let w ← loadPte pte
      storePte pte (w &&& ~~~pteU)

/-- The loop of `copyout`. Every turn copies a byte at least, so `src.length` turns will do. -/
def copyoutFrom (pagetable : ℕ) : ℕ → ℕ → List Byte → M Bool
  | 0, _, _ => return true
  | n + 1, dstva, src =>
      if src = [] then return true
      else if maxva ≤ pgrounddown dstva then return false
      else do
        match ← walk pagetable (pgrounddown dstva) false with
        | none => return false
        | some pte =>
            let w ← loadPte pte
            if hasFlag w pteV ∧ hasFlag w pteU ∧ hasFlag w pteW then
              let off := dstva - pgrounddown dstva
              let d ← page (ptePage w)
              setPage (ptePage w) (d.write off (src.take (pgsize - off)))
              copyoutFrom pagetable n (pgrounddown dstva + pgsize) (src.drop (pgsize - off))
            else return false

def copyout (pagetable dstva : ℕ) (src : List Byte) : M Bool :=
  copyoutFrom pagetable src.length dstva src

/-- The loop of `copyin`, with the bytes copied so far; every turn copies one at least. -/
def copyinFrom (pagetable : ℕ) : ℕ → ℕ → ℕ → List Byte → M (Option (List Byte))
  | 0, _, _, dst => return some dst
  | fuel + 1, srcva, len, dst =>
      if len = 0 then return some dst
      else do
        let pa0 ← walkaddr pagetable (pgrounddown srcva)
        if pa0 = 0 then return none
        else
          let off := srcva - pgrounddown srcva
          let n := min (pgsize - off) len
          let d ← page pa0
          copyinFrom pagetable fuel (pgrounddown srcva + pgsize) (len - n) (dst ++ d.read off n)

def copyin (pagetable srcva len : ℕ) : M (Option (List Byte)) :=
  copyinFrom pagetable len srcva len []

/-- The inner loop of `copyinstr`: the bytes up to a NUL, and whether there is one. -/
def untilNul : List Byte → List Byte × Bool
  | [] => ([], false)
  | b :: p => if b = 0 then ([0], true) else (b :: (untilNul p).1, (untilNul p).2)

def copyinstrFrom (pagetable : ℕ) : ℕ → ℕ → ℕ → List Byte → M (Option (List Byte))
  | 0, _, _, _ => return none
  | fuel + 1, srcva, max, dst =>
      if max = 0 then return none
      else do
        let pa0 ← walkaddr pagetable (pgrounddown srcva)
        if pa0 = 0 then return none
        else
          let off := srcva - pgrounddown srcva
          let n := min (pgsize - off) max
          let d ← page pa0
          let p := untilNul (d.read off n)
          if p.2 then return some (dst ++ p.1)
          else copyinstrFrom pagetable fuel (pgrounddown srcva + pgsize) (max - n) (dst ++ p.1)

def copyinstr (pagetable srcva max : ℕ) : M (Option (List Byte)) :=
  copyinstrFrom pagetable max srcva max []

section proc
variable [Image]

def procPagetable (tf : ℕ) : M (Option ℕ) := do
  match ← uvmcreate with
  | none => return none
  | some pagetable =>
      if ← mappages pagetable trampoline pgsize Image.trampolinePage (pteR ||| pteX) then
        if ← mappages pagetable trapframe pgsize tf (pteR ||| pteW) then return some pagetable
        else
          uvmunmap pagetable trampoline 1 false
          uvmfree pagetable 0
          return none
      else
        uvmfree pagetable 0
        return none

def procFreepagetable (pagetable sz : ℕ) : M PUnit := do
  uvmunmap pagetable trampoline 1 false
  uvmunmap pagetable trapframe 1 false
  uvmfree pagetable sz

end proc

end Xv6.Vm
