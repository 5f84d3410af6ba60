import Xv6.Program
import Xv6.CircularList

/-! The allocator of user programs: `malloc`, `free` and `morecore` over the headers of the blocks.
A pointer is an address; `sizeof(Header)` is 16. `sbrk` is the caller's. -/
namespace Xv6.Malloc

open Program Circular

def headerSize : ℕ := 16

structure Header where
  ptr : ℕ
  size : ℕ
  deriving DecidableEq, Repr

structure Heap where
  hdr : ℕ → Header
  freep : ℕ

section
variable (h : Heap)

def Heap.next (p : ℕ) : ℕ := (h.hdr p).ptr

def Heap.size (p : ℕ) : ℕ := (h.hdr p).size

def Heap.setHdr (p : ℕ) (x : Header) : Heap :=
  { h with hdr := Function.update h.hdr p x }

/-- Where the loop of `free` stops: between its neighbours, or at the wrap point. -/
def between (bp p : ℕ) : Bool :=
  decide (p < bp ∧ bp < h.next p) || decide (h.next p ≤ p ∧ (p < bp ∨ bp < h.next p))

def joinUpper (bp p : ℕ) : Heap :=
  if bp + headerSize * h.size bp = h.next p then
    h.setHdr bp ⟨h.next (h.next p), (h.size bp + h.size (h.next p)) % 2 ^ 32⟩
  else h.setHdr bp ⟨h.next p, h.size bp⟩

def joinLower (bp p : ℕ) : Heap :=
  if p + headerSize * h.size p = bp then
    h.setHdr p ⟨h.next bp, (h.size p + h.size bp) % 2 ^ 32⟩
  else h.setHdr p ⟨bp, h.size p⟩

end

/-- `free`; `none` if the loop does not end in `fuel` turns. -/
def free (fuel ap : ℕ) (h : Heap) : Option Heap :=
  let bp := ap - headerSize
  (walk (between h bp) h.next fuel h.freep).map fun p =>
    { joinLower (joinUpper h bp p) bp p with freep := p }

/-- What `malloc` does with a block that is large enough: take it out of the list, or its tail. -/
def carve (h : Heap) (nunits prevp p : ℕ) : ℕ × Heap :=
  if h.size p = nunits then
    (p + headerSize, { h.setHdr prevp ⟨h.next p, h.size prevp⟩ with freep := prevp })
  else
    let h := h.setHdr p ⟨h.next p, h.size p - nunits⟩
    let p := p + headerSize * h.size p
    (p + headerSize, { h.setHdr p ⟨h.next p, nunits⟩ with freep := prevp })

section
variable {σ ε : Type} (base : ℕ) (stuck : ε) (sbrk : BitVec 32 → Prog σ ε (Option ℕ))

def coreUnits (nu : ℕ) : ℕ := if nu < 4096 then 4096 else nu

def morecore (fuel nu : ℕ) : Prog (Heap × σ) ε (Option ℕ) := do
  let nu := coreUnits nu
  match ← zoom Prod.snd (fun s e => (s.1, e)) (sbrk (BitVec.ofNat 32 (nu * headerSize))) with
  | none => return none
  | some hp =>
      let h := (← get).1
      match free fuel (hp + headerSize) (h.setHdr hp ⟨h.next hp, nu⟩) with
      | none => throw stuck
      | some h =>
          modify fun s => (h, s.2)
          return some h.freep

def mallocLoop (fuel nunits : ℕ) : ℕ → ℕ → Prog (Heap × σ) ε (Option ℕ)
  | 0, _ => throw stuck
  | turns + 1, prevp => do
      let h := (← get).1
      let p := h.next prevp
      if nunits ≤ h.size p then
        modify fun s => ((carve h nunits prevp p).2, s.2)
        return some (carve h nunits prevp p).1
      else if p = h.freep then
        match ← morecore stuck sbrk fuel nunits with
        | none => return none
        | some p => mallocLoop fuel nunits turns p
      else mallocLoop fuel nunits turns p

def units (nbytes : ℕ) : ℕ := ((nbytes + headerSize - 1) / headerSize + 1) % 2 ^ 32

def Heap.start (h : Heap) : Heap :=
  if h.freep = 0 then { h.setHdr base ⟨base, 0⟩ with freep := base } else h

def malloc (fuel nbytes : ℕ) : Prog (Heap × σ) ε (Option ℕ) := do
  modify fun s => (s.1.start base, s.2)
  mallocLoop stuck sbrk fuel (units nbytes) fuel (← get).1.freep

end

end Xv6.Malloc
