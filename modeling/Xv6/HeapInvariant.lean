import Xv6.MallocSpec

/-! The heap over whole runs of `malloc` and `free`, with an `sbrk` that grows the memory at its end or
fails. -/
namespace Xv6.Malloc

open Program Circular List

structure Brk where
  brk : ℕ
  calls : ℕ
  deriving DecidableEq, Repr

/-- An `sbrk` that succeeds where `grants` says so, by the number of the call, the end of the memory
and the bytes wanted. -/
def growing (grants : ℕ → ℕ → ℕ → Bool) (n : BitVec 32) : Prog Brk Unit (Option ℕ) := do
  let e ← get
  if grants e.calls e.brk n.toNat then
    modify fun e => ⟨e.brk + n.toNat, e.calls + 1⟩
    return some e.brk
  else
    modify fun e => ⟨e.brk, e.calls + 1⟩
    return none

/-- A program with its heap: `live` are the pointers it has from `malloc` and has not freed, with the
sizes it asked for. -/
structure Sys where
  heap : Heap
  env : Brk
  live : List (ℕ × ℕ)

inductive Op
  | malloc (nbytes : ℕ)
  | free (ap nbytes : ℕ)
  deriving DecidableEq, Repr

def Op.Valid (s : Sys) : Op → Prop
  | .malloc nbytes => nbytes < 2 ^ 31 - 2 ^ 17
  | .free ap nbytes => (ap, nbytes) ∈ s.live

instance (s : Sys) : (op : Op) → Decidable (op.Valid s)
  | .malloc nbytes => inferInstanceAs (Decidable (nbytes < 2 ^ 31 - 2 ^ 17))
  | .free ap nbytes => inferInstanceAs (Decidable ((ap, nbytes) ∈ s.live))

section
variable (base lo : ℕ) (grants : ℕ → ℕ → ℕ → Bool) (fuel : ℕ)

def Sys.malloc (s : Sys) (nbytes : ℕ) : Except Unit (Option ℕ) × Heap × Brk :=
  (Malloc.malloc base () (growing grants) fuel nbytes).run (s.heap, s.env)

def Sys.step (s : Sys) : Op → Option Sys
  | .malloc nbytes =>
      match s.malloc base grants fuel nbytes with
      | (.error _, _) => none
      | (.ok none, t) => some ⟨t.1, t.2, s.live⟩
      | (.ok (some ap), t) => some ⟨t.1, t.2, (ap, nbytes) :: s.live⟩
  | .free ap nbytes => (free fuel ap s.heap).map fun h => ⟨h, s.env, s.live.erase (ap, nbytes)⟩

/-- The states of a program that makes valid calls only; before the first one `freep` is null. -/
inductive Reachable : Sys → Prop
  | init (hdr : ℕ → Header) : Reachable ⟨⟨hdr, 0⟩, ⟨lo, 0⟩, []⟩
  | step {s t : Sys} {op : Op} (fuel : ℕ) : Reachable s → op.Valid s →
      s.step base grants fuel op = some t → Reachable t

end

section
variable (base lo : ℕ) (s : Sys) (bs : List Block)

/-- The invariant of the runs: the row, with the exact sizes of the allocated blocks. -/
structure Sound : Prop where
  ready : Ready base s.heap lo s.env.brk bs
  bounded : s.env.brk < lo + 2 ^ 36
  live : ((allocated bs).map fun b => (b.addr + headerSize, b.size)).Perm
    (s.live.map fun x => (x.1, units x.2))
  small : ∀ x ∈ s.live, x.2 < 2 ^ 31 - 2 ^ 17

end

lemma coreBytes_lt {nbytes : ℕ} (hn : nbytes < 2 ^ 31 - 2 ^ 17) :
    coreUnits (units nbytes) * headerSize < 2 ^ 31 := by
  rw [units_of_lt (by omega)]
  unfold coreUnits headerSize
  split_ifs <;> omega

section run
variable {base lo fuel nbytes : ℕ} {grants : ℕ → ℕ → ℕ → Bool} {s t : Sys} {bs : List Block} {op : Op}

section
variable (grants : ℕ → ℕ → ℕ → Bool) (e : Brk) (n : ℕ) (e' : Brk)

def Refused : Prop := e' = ⟨e.brk, e.calls + 1⟩ ∧ grants e.calls e.brk n = false

def Granted : Prop := e' = ⟨e.brk + n, e.calls + 1⟩ ∧ grants e.calls e.brk n = true

end

lemma growing_spec (grants : ℕ → ℕ → ℕ → Bool) (n : BitVec 32) (e : Brk) {E : Unit → Brk → Prop} :
    wp (growing grants n)
      (Answers e.brk (Refused grants e n.toNat) (Granted grants e n.toNat)) E e := by
  refine wp_bind (wp_get ?_)
  by_cases hg : grants e.calls e.brk n.toNat = true
  · rw [if_pos hg]
    exact wp_bind (wp_modify (wp_pure ⟨rfl, rfl, hg⟩))
  · rw [if_neg hg]
    exact wp_bind (wp_modify (wp_pure ⟨rfl, by simpa using hg⟩))

variable (hbase : 0 < base) (hlo : base < lo)

include hlo

lemma free_returns (hs : Sound base lo s bs) {ap : ℕ} (hmem : (ap, nbytes) ∈ s.live)
    (hfuel : bs.length < fuel) : ∃ h bs', free fuel ap s.heap = some h ∧
      Sound base lo ⟨h, s.env, s.live.erase (ap, nbytes)⟩ bs' := by
  have hin := hs.live.symm.subset (mem_map_of_mem (f := fun x : ℕ × ℕ => (x.1, units x.2)) hmem)
  obtain ⟨b, hb, heq⟩ := mem_map.mp hin
  obtain ⟨rfl, hsize⟩ := Prod.mk.inj heq
  obtain ⟨hbs, hfree⟩ := mem_filter.mp hb
  have hfree : b.free = false := by simpa using hfree
  obtain ⟨l, r, rfl⟩ := append_of_mem hbs
  have hinv : Inv base s.heap lo s.env.brk (l ++ b :: r) :=
    hs.ready.resolve_right fun h => by simpa using h.2.1
  obtain ⟨h, bs', hrun, hinv', -, halloc, -⟩ := free_spec hlo hinv hfree hs.bounded hfuel
  refine ⟨h, bs', hrun, .inl hinv', hs.bounded, ?_, fun x hx => hs.small x (mem_of_mem_erase hx)⟩
  have hlive := hs.live.trans ((perm_cons_erase hmem).map _)
  rw [allocated_append, allocated_cons_of_not hfree, map_append, map_cons, map_cons,
    heq] at hlive
  rw [halloc, map_append]
  exact (perm_middle.symm.trans hlive).cons_inv

include hbase

section
variable (hgrants : ∀ i b n, grants i b n = true → b + n < lo + 2 ^ 36) (hs : Sound base lo s bs)
include hgrants hs

lemma malloc_returns (hn : nbytes < 2 ^ 31 - 2 ^ 17) (hfuel : 2 * bs.length + 3 ≤ fuel) :
    ∃ r h e, s.malloc base grants fuel nbytes = (.ok r, h, e) ∧
      (r = none → ∃ n, grants s.env.calls s.env.brk n = false) ∧
      ∃ bs', Sound base lo ⟨h, e, r.elim s.live fun ap => (ap, nbytes) :: s.live⟩ bs' := by
  have hcore := coreBytes_lt hn
  have hword : (BitVec.ofNat 32 (coreUnits (units nbytes) * headerSize)).toNat =
      headerSize * coreUnits (units nbytes) := by
    rw [BitVec.toNat_ofNat, Nat.mod_eq_of_lt (by omega), Nat.mul_comm]
  have hpos : 0 < units nbytes := by
    rw [units_of_lt (by omega)]
    omega
  have hsbrk := growing_spec (E := fun _ _ => False) grants
    (BitVec.ofNat 32 (coreUnits (units nbytes) * headerSize)) s.env
  rw [hword] at hsbrk
  have hspec : wp (Malloc.malloc base () (growing grants) fuel nbytes)
      (Handed base lo s.env.brk (units nbytes) bs s.env (Refused grants s.env _) (Granted grants s.env _))
      (fun _ _ => False) (s.heap, s.env) :=
    malloc_spec hbase hlo hs.ready hpos hsbrk (fun e hg => hgrants _ _ _ hg.2) hfuel
  obtain ⟨r, ⟨h, e⟩, hrun, hres⟩ := exists_run_of_wp hspec
  refine ⟨r, h, e, hrun, ?_⟩
  cases r with
  | none =>
    obtain ⟨hinv, rfl, hg⟩ := hres
    exact ⟨fun _ => ⟨_, hg⟩, bs, .inl hinv, hs.bounded, hs.live, hs.small⟩
  | some ap =>
    refine ⟨fun hnone => (by cases hnone), ?_⟩
    obtain ⟨hi', bs', c, hinv, rfl, hsize, hperm, -, hbrk⟩ := hres
    have hbrk' : e.brk = hi' ∧ e.brk < lo + 2 ^ 36 := by
      rcases hbrk with ⟨rfl, rfl⟩ | ⟨rfl, rfl, hg⟩
      · exact ⟨rfl, hs.bounded⟩
      · exact ⟨rfl, hgrants _ _ _ hg⟩
    refine ⟨bs', .inl (hbrk'.1 ▸ hinv), hbrk'.2, ?_, ?_⟩
    · refine (hperm.map _).trans ?_
      rw [map_cons, hsize]
      exact hs.live.cons _
    · intro x hx
      rcases mem_cons.mp hx with rfl | hx
      · exact hn
      · exact hs.small x hx

lemma Sound.step (hvalid : op.Valid s) (hstep : s.step base grants fuel op = some t) :
    ∃ bs', Sound base lo t bs' := by
  have hfuel : fuel ≤ max fuel (2 * bs.length + 3) := le_max_left _ _
  cases op with
  | malloc nbytes =>
    obtain ⟨r, h, e, hrun, -, hsound⟩ := malloc_returns hbase hlo hgrants hs hvalid
      (le_max_right fuel (2 * bs.length + 3))
    unfold Sys.step at hstep
    dsimp only at hstep
    rcases hres : s.malloc base grants fuel nbytes with ⟨_ | r', t'⟩
    · rw [hres] at hstep
      cases hstep
    · have hsame := malloc_approx hfuel nbytes _ _ _ hres
      obtain ⟨rfl, rfl⟩ : r = r' ∧ (h, e) = t' := by simpa using hrun.symm.trans hsame
      rw [hres] at hstep
      cases r with
      | none => cases hstep; exact hsound
      | some ap => cases hstep; exact hsound
  | free ap nbytes =>
    obtain ⟨h, bs', hrun, hsound⟩ := free_returns hlo hs hvalid
      (show bs.length < max fuel (2 * bs.length + 3) from by omega)
    obtain ⟨h', hres, rfl⟩ := Option.map_eq_some_iff.mp hstep
    obtain rfl : h' = h := Option.some.inj ((free_mono hfuel hres).symm.trans hrun)
    exact ⟨bs', hsound⟩

end

end run

section wrap

def Sys.run (base : ℕ) (grants : ℕ → ℕ → ℕ → Bool) (fuel : ℕ) : Sys → List Op → Option Sys
  | s, [] => some s
  | s, op :: ops =>
      if op.Valid s then (s.step base grants fuel op).bind fun t => t.run base grants fuel ops else none

lemma Reachable.run {base lo fuel : ℕ} {grants : ℕ → ℕ → ℕ → Bool} {s t : Sys} {ops : List Op}
    (hs : Reachable base lo grants s) (hrun : s.run base grants fuel ops = some t) :
    Reachable base lo grants t := by
  induction ops generalizing s with
  | nil => exact Option.some.inj hrun ▸ hs
  | cons op ops ih =>
    rw [Sys.run] at hrun
    split_ifs at hrun with hvalid
    obtain ⟨u, hstep, hrest⟩ := Option.bind_eq_some_iff.mp hrun
    exact ih (.step fuel hs hvalid hstep) hrest

/-- A program before its first call, with `base` at 16 and the heap from 32 on. -/
def fresh : Sys := ⟨⟨fun _ => ⟨0, 0⟩, 0⟩, ⟨32, 0⟩, []⟩

end wrap

end Xv6.Malloc
