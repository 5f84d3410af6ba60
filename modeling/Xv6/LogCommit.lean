import Xv6.BioSpec

/-! `commit` and `recover_from_log` of `log.c`, with every block they read and write passing
through the buffer cache. -/
namespace Xv6

open Program

def headerN (d : Block) : ℤ := (d.get32 0).toInt

def headerBlock (d : Block) (i : ℕ) : ℕ := (d.get32 (4 + 4 * i)).toNat

def putBlocks (d : Block) (i : ℕ) : List ℕ → Block
  | [] => d
  | b :: lh => putBlocks (d.put32 (4 + 4 * i) (BitVec.ofNat 32 b)) (i + 1) lh

def putHeader (d : Block) (lh : List ℕ) : Block :=
  putBlocks (d.put32 0 (BitVec.ofNat 32 lh.length)) 0 lh

def setLh (lh : List ℕ) : K PUnit := modify fun k => { k with log := { k.log with lh := lh } }

/-- One turn of the loop of `write_log`: the cached block `src` to the log block `dst`. -/
def writeLogBlock (dev src dst : ℕ) : K PUnit := do
  bread dev dst
  bread dev src
  let d ← bdata dev src
  setData dev dst d
  bwrite dev dst
  brelse dev src
  brelse dev dst

def writeLog : K PUnit := do
  let k ← get
  forM (List.range k.log.n) fun tail =>
    writeLogBlock k.log.dev (k.log.lh.getD tail 0) (k.log.start + tail + 1)

def unpinInstalled (recovering : Bool) (dev b : ℕ) : K PUnit :=
  if recovering then pure ⟨⟩ else bunpin dev b

/-- One turn of the loop of `install_trans`: the log block `src` to its home `dst`. -/
def installBlock (recovering : Bool) (dev src dst : ℕ) : K PUnit := do
  bread dev src
  bread dev dst
  let d ← bdata dev src
  setData dev dst d
  bwrite dev dst
  unpinInstalled recovering dev dst
  brelse dev src
  brelse dev dst

def installTrans (recovering : Bool) : K PUnit := do
  let k ← get
  forM (List.range k.log.n) fun tail =>
    installBlock recovering k.log.dev (k.log.start + tail + 1) (k.log.lh.getD tail 0)

def readHead : K PUnit := do
  let k ← get
  bread k.log.dev k.log.start
  let d ← bdata k.log.dev k.log.start
  setLh ((List.range (headerN d).toNat).map (headerBlock d))
  brelse k.log.dev k.log.start

def writeHead : K PUnit := do
  let k ← get
  bread k.log.dev k.log.start
  let d ← bdata k.log.dev k.log.start
  setData k.log.dev k.log.start (putHeader d k.log.lh)
  bwrite k.log.dev k.log.start
  brelse k.log.dev k.log.start

def recoverFromLog : K PUnit := do
  readHead
  installTrans true
  setLh []
  writeHead

def commit : K PUnit := do
  let k ← get
  if 0 < k.log.n then
    writeLog
    writeHead
    installTrans false
    setLh []
    writeHead

def pinNew (log : Log) (b : ℕ) : K PUnit :=
  if b ∈ log.lh then pure ⟨⟩ else bpin log.dev b

def logWrite (b : ℕ) : K PUnit := do
  let k ← get
  match k.log.logWrite b with
  | .error p => throw (.panic p)
  | .ok log =>
      pinNew k.log b
      modify fun k => { k with log := log }

section header
variable {d : Block} {lh : List ℕ}

lemma putBlocks_get32_of_le {i off : ℕ} (h : off + 4 ≤ 4 + 4 * i) :
    (putBlocks d i lh).get32 off = d.get32 off := by
  induction lh generalizing d i with
  | nil => rfl
  | cons b lh ih =>
    rw [putBlocks, ih (by omega), Block.get32_put32_of_disjoint _ _ (by omega)]

lemma headerBlock_putBlocks {i j : ℕ} (hj : j < lh.length)
    (hroom : 4 + 4 * (i + lh.length) ≤ bsize) (hb : ∀ b ∈ lh, b < 2 ^ 32) :
    headerBlock (putBlocks d i lh) (i + j) = lh.getD j 0 := by
  induction lh generalizing d i j with
  | nil => simp at hj
  | cons b lh ih =>
    rw [List.length_cons] at hroom hj
    cases j with
    | zero =>
      rw [putBlocks, headerBlock, show 4 + 4 * (i + 0) = 4 + 4 * i by omega,
        putBlocks_get32_of_le (by omega), Block.get32_put32 _ _ (by omega)]
      have hlt := hb b (by simp)
      rw [BitVec.toNat_ofNat, Nat.mod_eq_of_lt hlt]
      rfl
    | succ j =>
      rw [putBlocks, show i + (j + 1) = i + 1 + j by omega,
        ih (by omega) (by omega) fun b hb' => hb b (by simp [hb'])]
      simp

theorem headerN_putHeader (h : lh.length < 2 ^ 31) : headerN (putHeader d lh) = lh.length := by
  unfold headerN putHeader
  rw [putBlocks_get32_of_le (by omega), Block.get32_put32 _ _ (by decide)]
  have hn : (BitVec.ofNat 32 lh.length).toNat = lh.length := by
    exact Nat.mod_eq_of_lt (by omega)
  rw [BitVec.toInt_eq_toNat_of_lt (by omega), hn]

theorem readBack_putHeader (hlen : lh.length ≤ logSize) (hb : ∀ b ∈ lh, b < 2 ^ 32) :
    (List.range (headerN (putHeader d lh)).toNat).map (headerBlock (putHeader d lh)) = lh := by
  have hls : logSize = 30 := rfl
  have hbs : bsize = 1024 := rfl
  rw [headerN_putHeader (by omega)]
  apply List.ext_getElem
  · simp
  · intro i h1 h2
    rw [List.getElem_map, List.getElem_range]
    have hget := headerBlock_putBlocks (d := d.put32 0 (BitVec.ofNat 32 lh.length)) (i := 0) h2
      (by omega) hb
    rw [Nat.zero_add] at hget
    rw [putHeader, hget, List.getD_eq_getElem _ _ h2]

end header

def beginOp : K PUnit := do
  let k ← get
  if k.log.mustWait then throw .deadlock
  else modify fun k => { k with log := { k.log with outstanding := k.log.outstanding + 1 } }

end Xv6
