import Xv6.Fs

/-! The directory and path layers of `fs.c`, and `create` of `sysfile.c`. A name stands for
the array `char name[DIRSIZ]`, with zeros after its end. -/
namespace Xv6

open Program

def strncmp : List Byte → List Byte → ℤ
  | p :: ps, q :: qs => if p ≠ 0 ∧ p = q then strncmp ps qs else (p.toNat : ℤ) - q.toNat
  | _, _ => 0

def namecmp (s t : List Byte) : ℤ := strncmp (s.take dirsiz) (t.take dirsiz)

def nameOf (s : List Byte) : List Byte := s.take dirsiz ++ List.replicate (dirsiz - s.length) 0

/-- `readi` of one entry into `de`; the caller panics with `p` if it is cut short. -/
def readDirent (p : Panic) (dp : Slot) (off : ℕ) : F Dirent := do
  let r ← readi dp (fun _ _ => true) off direntSize
  match r with
  | some bytes => if bytes.length = direntSize then return direntOf bytes else throw (.panic p)
  | none => throw (.panic p)

def writeDirent (dp : Slot) (off : ℕ) (de : Dirent) : F Bool := do
  let r ← writei dp (.kernel (direntByte de)) off direntSize
  return r = direntSize

/-- The loop of `dirlookup`, at `off` with `n` turns left; returns the entry's offset too. -/
def dirlookupFrom (dp : Slot) (name : List Byte) : ℕ → ℕ → F (Option (Slot × ℕ))
  | 0, _ => pure none
  | n + 1, off => do
      let x ← inode dp
      if off < x.din.size then
        let de ← readDirent .dirlookupRead dp off
        if de.inum ≠ 0 ∧ namecmp name de.name = 0 then
          let ip ← iget x.dev de.inum
          return some (ip, off)
        else dirlookupFrom dp name n (off + direntSize)
      else return none

def turns (size off : ℕ) : ℕ := (size - off + (direntSize - 1)) / direntSize

def dirlookup (dp : Slot) (name : List Byte) : F (Option (Slot × ℕ)) := do
  let x ← inode dp
  if x.din.type ≠ tDir then throw (.panic .dirlookupNotDir)
  else dirlookupFrom dp name (turns x.din.size 0) 0

/-- The loop of `dirlink`: the offset of the first empty entry, or of the end. -/
def emptyDirentFrom (dp : Slot) : ℕ → ℕ → F ℕ
  | 0, off => pure off
  | n + 1, off => do
      let x ← inode dp
      if off < x.din.size then
        let de ← readDirent .dirlinkRead dp off
        if de.inum = 0 then return off else emptyDirentFrom dp n (off + direntSize)
      else return off

def dirlink (dp : Slot) (name : List Byte) (inum : ℕ) : F Bool := do
  let r ← dirlookup dp name
  match r with
  | some (ip, _) =>
      iput ip
      return false
  | none =>
      let x ← inode dp
      let off ← emptyDirentFrom dp (turns x.din.size 0) 0
      writeDirent dp off ⟨inum, nameOf (name.takeWhile (· ≠ 0))⟩

def skipelem (path : List Byte) : Option (List Byte × List Byte) :=
  match path.dropWhile (· = 47) with
  | [] => none
  | c :: s =>
      some (nameOf ((c :: s).takeWhile (· ≠ 47)),
        ((c :: s).dropWhile (· ≠ 47)).dropWhile (· = 47))

/-- The loop of `namex`, with a turn for every character left. `name` is the last element
copied. -/
def namexFrom (parent : Bool) : ℕ → Slot → List Byte → List Byte → F (Option (Slot × List Byte))
  | 0, ip, name, _ => namexEnd parent ip name
  | n + 1, ip, name, path =>
      match skipelem path with
      | none => namexEnd parent ip name
      | some (name, path) => do
          ilock ip
          let x ← inode ip
          if x.din.type ≠ tDir then
            iunlockput ip
            return none
          else if parent ∧ path = [] then
            iunlock ip
            return some (ip, name)
          else
            let next ← dirlookup ip name
            match next with
            | none =>
                iunlockput ip
                return none
            | some (next, _) =>
                iunlockput ip
                namexFrom parent n next name path
where
  /-- What follows the loop. -/
  namexEnd (parent : Bool) (ip : Slot) (name : List Byte) : F (Option (Slot × List Byte)) :=
    if parent then do
      iput ip
      return none
    else return some (ip, name)

section
variable (cwd : Slot) (path : List Byte)

def namexStart : F Slot :=
  if path.head? = some 47 then iget rootDev rootIno else idup cwd

def namex (parent : Bool) : F (Option (Slot × List Byte)) := do
  let ip ← namexStart cwd path
  namexFrom parent path.length ip [] path

def namei : F (Option Slot) := do
  let r ← namex cwd path false
  return r.map Prod.fst

def nameiparent : F (Option (Slot × List Byte)) :=
  namex cwd path true

end

end Xv6
