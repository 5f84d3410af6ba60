import Xv6.CopyUser
import Xv6.Process

/-! `copyinstr` with the kernel buffer it writes to, and the string arguments of system calls that
are fetched with it. -/
namespace Xv6.Vm

open Program Function List

abbrev Buffer := ℕ → Byte

/-- The inner loop of `copyinstr` over the bytes `p` of a page, with `dst` at place `i` of the
buffer: the buffer, the new `dst`, and whether there was a NUL. -/
def copyChars : List Byte → ℕ → Buffer → Buffer × ℕ × Bool
  | [], i, buf => (buf, i, false)
  | c :: p, i, buf =>
      if c = 0 then (update buf i 0, i, true)
      else copyChars p (i + 1) (update buf i c)

/-- The outer loop of `copyinstr`, which copies a byte at least in every turn. -/
def copyinstrToFrom (pagetable : ℕ) : ℕ → ℕ → ℕ → ℕ → Buffer → M (Bool × Buffer)
  | 0, _, _, _, buf => return (false, buf)
  | fuel + 1, srcva, max, i, buf =>
      if max = 0 then return (false, buf)
      else do
        let pa0 ← walkaddr pagetable (pgrounddown srcva)
        if pa0 = 0 then return (false, buf)
        else
          let off := srcva - pgrounddown srcva
          let n := min (pgsize - off) max
          let d ← page pa0
          let r := copyChars (d.read off n) i buf
          if r.2.2 then return (true, r.1)
          else copyinstrToFrom pagetable fuel (pgrounddown srcva + pgsize) (max - n) r.2.1 r.1

def copyinstrTo (pagetable : ℕ) (dst : Buffer) (srcva max : ℕ) : M (Bool × Buffer) :=
  copyinstrToFrom pagetable max srcva max 0 dst

/-- `strlen` of a string in a buffer of `size` bytes; `none` if its loop leaves the buffer. -/
def strlen (s : Buffer) (size : ℕ) : Option ℕ := (range size).find? fun n => s n = 0

/-- `fetchstr` into a buffer of `max` bytes: the value it returns, and the buffer. -/
def fetchstr (pagetable addr : ℕ) (buf : Buffer) (max : ℕ) : M (Option ℤ × Buffer) := do
  let r ← copyinstrTo pagetable buf addr max
  if r.1 then return ((strlen r.2 max).map Int.ofNat, r.2) else return (some (-1), r.2)

attribute [local instance] neZero_ptes in
def argraw (tf n : ℕ) : M Word :=
  if n ≤ 5 then do
    let m ← get
    return m.cell tf (Fin.ofNat 512 (Process.a0.val + n))
  else throw .argraw

def argstr (pagetable tf n : ℕ) (buf : Buffer) (max : ℕ) : M (Option ℤ × Buffer) := do
  let addr ← argraw tf n
  fetchstr pagetable addr.toNat buf max

/-- The first `k` bytes of `p` are in the buffer from `i` on, and nothing else has changed. -/
structure CharsCopied (p : ℕ → Byte) (i k : ℕ) (buf buf' : Buffer) : Prop where
  copied : ∀ j < k, buf' (i + j) = p j
  frame : ∀ j, (j < i ∨ i + k ≤ j) → buf' j = buf j

/-- There is a string of `k` bytes at `va` whose NUL is among the first `max` bytes, all of them
in pages of the user. -/
structure UserStringAt (m : Mach) (f : ℕ → Word) (va max k : ℕ) : Prop where
  lt : k < max
  readable : ∀ i ≤ k, Readable f (va + i)
  nul : m.load f (va + k) = 0
  first : ∀ i < k, m.load f (va + i) ≠ 0

variable {m m' : Mach} {f : ℕ → Word} {root va max k n i : ℕ} {X : Multiset ℕ}
  {buf buf' buf'' : Buffer} {p q : ℕ → Byte}

lemma CharsCopied.nil (p : ℕ → Byte) (i : ℕ) (buf : Buffer) : CharsCopied p i 0 buf buf :=
  ⟨fun _ h => absurd h (Nat.not_lt_zero _), fun _ _ => rfl⟩

lemma CharsCopied.trans (h : CharsCopied p i n buf buf') (h' : CharsCopied q (i + n) k buf' buf'')
    (hq : ∀ j < k, q j = p (n + j)) : CharsCopied p i (n + k) buf buf'' := by
  refine ⟨fun j hj => ?_, fun j hj => ?_⟩
  · rcases lt_or_ge j n with hlt | hge
    · rw [h'.frame _ (.inl (by omega)), h.copied j hlt]
    · obtain ⟨l, rfl⟩ := Nat.exists_eq_add_of_le hge
      rw [← add_assoc, h'.copied l (by omega), hq l (by omega)]
  · rw [h'.frame j (by omega), h.frame j (by omega)]

lemma charsCopied_update (c : Byte) (i : ℕ) (buf : Buffer) :
    CharsCopied (fun _ => c) i 1 buf (update buf i c) := by
  refine ⟨fun j hj => ?_, fun j hj => update_of_ne (by omega) _ _⟩
  obtain rfl : j = 0 := by omega
  exact update_self ..

/-- The inner loop stops at the first NUL, which it has copied, or copies all of the bytes. -/
lemma copyChars_spec (p : List Byte) (i : ℕ) (buf : Buffer) :
    (∃ k < p.length, p.getD k 0 = 0 ∧ (∀ j < k, p.getD j 0 ≠ 0) ∧
      (copyChars p i buf).2.2 = true ∧ CharsCopied (p.getD · 0) i (k + 1) buf (copyChars p i buf).1) ∨
    (∀ j < p.length, p.getD j 0 ≠ 0) ∧ (copyChars p i buf).2 = (i + p.length, false) ∧
      CharsCopied (p.getD · 0) i p.length buf (copyChars p i buf).1 := by
  induction p generalizing i buf with
  | nil => exact .inr ⟨fun _ h => absurd h (Nat.not_lt_zero _), rfl, CharsCopied.nil _ _ _⟩
  | cons c p ih =>
    by_cases hc : c = 0
    · refine .inl ⟨0, Nat.succ_pos _, hc, fun _ h => absurd h (Nat.not_lt_zero _), ?_⟩
      unfold copyChars
      rw [if_pos hc]
      refine ⟨rfl, ⟨fun j hj => ?_, (charsCopied_update 0 i buf).frame⟩⟩
      obtain rfl : j = 0 := by omega
      exact (update_self ..).trans hc.symm
    · have hstep : copyChars (c :: p) i buf = copyChars p (i + 1) (update buf i c) := by
        rw [copyChars, if_neg hc]
      have hhead : CharsCopied ((c :: p).getD · 0) i 1 buf (update buf i c) := by
        refine ⟨fun j hj => ?_, (charsCopied_update c i buf).frame⟩
        obtain rfl : j = 0 := by omega
        exact update_self ..
      rw [hstep]
      obtain ⟨k, hk, hnul, hfirst, hgot, hcopied⟩ | ⟨hnone, hend, hcopied⟩ :=
        ih (i + 1) (update buf i c)
      · refine .inl ⟨k + 1, Nat.succ_lt_succ hk, hnul, fun j hj => ?_, hgot, ?_⟩
        · cases j with
          | zero => exact hc
          | succ j => exact hfirst j (by omega)
        · rw [add_comm (k + 1) 1]
          exact hhead.trans hcopied fun j _ => by rw [add_comm 1 j, getD_cons_succ]
      · refine .inr ⟨fun j hj => ?_, ?_, ?_⟩
        · cases j with
          | zero => exact hc
          | succ j => exact hnone j (Nat.lt_of_succ_lt_succ hj)
        · rw [hend, length_cons, add_assoc, add_comm 1]
        · rw [length_cons, add_comm p.length 1]
          exact hhead.trans hcopied fun j _ => by rw [add_comm 1 j, getD_cons_succ]

lemma getD_read (hk : n ≤ pgsize - va % pgsize) (hi : i < n) :
    ((m.mem (framePage f va)).read (va % pgsize) n).getD i 0 = m.load f (va + i) := by
  have hdiv : (va + i) / pgsize = va / pgsize := div_of_lt (lt_of_lt_of_le hi hk)
  have hmod : (va + i) % pgsize = va % pgsize + i := mod_of_lt (lt_of_lt_of_le hi hk)
  unfold Page.read Mach.load framePage
  rw [getD_eq_getElem _ _ (by simpa using hi), getElem_map, getElem_range, hdiv,
    ← hmod, ofNat_mod]

lemma stringAt_add_iff (hread : ∀ i < n, Readable f (va + i))
    (hne : ∀ i < n, m.load f (va + i) ≠ 0) (hn : n ≤ max) :
    UserStringAt m f va max (n + k) ↔ UserStringAt m f (va + n) (max - n) k := by
  constructor
  · intro h
    exact ⟨by have := h.lt; omega, fun i hi => by rw [add_assoc]; exact h.readable _ (by omega),
      by rw [add_assoc]; exact h.nul, fun i hi => by rw [add_assoc]; exact h.first _ (by omega)⟩
  · intro h
    refine ⟨by have := h.lt; omega, fun i hi => ?_, by rw [← add_assoc]; exact h.nul, fun i hi => ?_⟩
    · rcases lt_or_ge i n with hlt | hge
      · exact hread i hlt
      · obtain ⟨j, rfl⟩ := Nat.exists_eq_add_of_le hge
        rw [← add_assoc]
        exact h.readable j (by omega)
    · rcases lt_or_ge i n with hlt | hge
      · exact hne i hlt
      · obtain ⟨j, rfl⟩ := Nat.exists_eq_add_of_le hge
        rw [← add_assoc]
        exact h.first j (by omega)

lemma UserStringAt.ge (h : UserStringAt m f va max k) (hne : ∀ i < n, m.load f (va + i) ≠ 0) : n ≤ k := by
  by_contra hlt
  exact hne k (not_le.mp hlt) h.nul

lemma UserStringAt.unique {k' : ℕ} (h : UserStringAt m f va max k) (h' : UserStringAt m f va max k') :
    k = k' := by
  have hle := h.ge h'.first
  have hge := h'.ge h.first
  omega

/-- What `copyinstr` does: it succeeds if there is a string, which is then in the buffer from place
`i` on, and it writes to `max` places at most. -/
structure StringCopied (m : Mach) (f : ℕ → Word) (va max i : ℕ) (buf : Buffer) (r : Bool × Buffer) :
    Prop where
  ok : r.1 = true ↔ ∃ k, UserStringAt m f va max k
  copied : ∀ k, UserStringAt m f va max k → ∀ j ≤ k, r.2 (i + j) = m.load f (va + j)
  frame : ∀ j, (j < i ∨ i + max ≤ j) → r.2 j = buf j

lemma StringCopied.fail (h : ∀ k, ¬ UserStringAt m f va max k) :
    StringCopied m f va max i buf (false, buf) :=
  ⟨iff_of_false Bool.false_ne_true fun ⟨k, hk⟩ => h k hk, fun k hk => absurd hk (h k),
    fun _ _ => rfl⟩

lemma StringCopied.skip {r : Bool × Buffer} (hread : ∀ i < n, Readable f (va + i))
    (hne : ∀ i < n, m.load f (va + i) ≠ 0) (hn : n ≤ max)
    (hc : CharsCopied (fun j => m.load f (va + j)) i n buf buf')
    (h : StringCopied m f (va + n) (max - n) (i + n) buf' r) :
    StringCopied m f va max i buf r := by
  refine ⟨h.ok.trans ⟨?_, ?_⟩, ?_, ?_⟩
  · rintro ⟨k, hk⟩
    exact ⟨n + k, (stringAt_add_iff hread hne hn).mpr hk⟩
  · rintro ⟨k, hk⟩
    obtain ⟨l, rfl⟩ := Nat.exists_eq_add_of_le (hk.ge hne)
    exact ⟨l, (stringAt_add_iff hread hne hn).mp hk⟩
  · intro k hk j hj
    obtain ⟨l, rfl⟩ := Nat.exists_eq_add_of_le (hk.ge hne)
    rcases lt_or_ge j n with hlt | hge
    · rw [h.frame _ (.inl (by omega)), hc.copied j hlt]
    · obtain ⟨j', rfl⟩ := Nat.exists_eq_add_of_le hge
      rw [← add_assoc, h.copied l ((stringAt_add_iff hread hne hn).mp hk) j' (by omega), add_assoc]
  · intro j hj
    rw [h.frame j (by omega), hc.frame j (by omega)]

lemma copyinstrToFrom_spec {fuel : ℕ} (hm : Maps m root f X) (hX : ∀ p ∈ X, p < maxPage)
    (hpa : ∀ va, Readable f va → framePage f va ≠ 0) (hfuel : max ≤ fuel) :
    wp (copyinstrToFrom root fuel va max i buf) (fun r m' => m' = m ∧
      StringCopied m f va max i buf r) never m := by
  induction fuel generalizing va max i buf with
  | zero =>
    obtain rfl : max = 0 := by omega
    exact wp_pure ⟨rfl, .fail fun k h => absurd h.lt (Nat.not_lt_zero k)⟩
  | succ fuel ih =>
    unfold copyinstrToFrom
    split_ifs with hmax
    · subst hmax
      exact wp_pure ⟨rfl, .fail fun k h => absurd h.lt (Nat.not_lt_zero k)⟩
    refine wp_seq (walkaddr_find hm hX) ?_
    rintro p m1 ⟨rfl, rfl⟩
    by_cases hread : Readable f va
    swap
    · simp only [if_neg hread, if_true]
      exact wp_pure ⟨rfl, .fail fun k h => hread (h.readable 0 (Nat.zero_le k))⟩
    simp only [if_pos hread, if_neg (hpa va hread), offset_eq]
    refine wp_bind (wp_page ?_)
    have hmod : va % pgsize < pgsize := Nat.mod_lt _ (by decide)
    obtain ⟨n, hn⟩ : ∃ n, n = min (pgsize - va % pgsize) max := ⟨_, rfl⟩
    rw [← hn]
    have hpage : ∀ j < n, ((m1.mem (framePage f va)).read (va % pgsize) n).getD j 0 =
        m1.load f (va + j) := fun j hj => getD_read (by omega) hj
    have hlen : ((m1.mem (framePage f va)).read (va % pgsize) n).length = n := by
      simp [Page.read]
    have hreadable : ∀ j < n, Readable f (va + j) := fun j hj =>
      hread.of_page (div_of_lt (by omega))
    have hspec := copyChars_spec ((m1.mem (framePage f va)).read (va % pgsize) n) i buf
    generalize copyChars ((m1.mem (framePage f va)).read (va % pgsize) n) i buf = r at hspec ⊢
    rw [hlen] at hspec
    obtain ⟨k, hk, hnul, hfirst, hgot, hc⟩ | ⟨hnone, hend, hc⟩ := hspec
    · -- the NUL is in this page
      have hat : UserStringAt m1 f va max k :=
        ⟨by omega, fun j hj => hreadable j (by omega), by rw [← hpage k hk, hnul],
          fun j hj => by rw [← hpage j (by omega)]; exact hfirst j hj⟩
      rw [if_pos hgot]
      refine wp_pure ⟨rfl, iff_of_true rfl ⟨k, hat⟩, ?_, fun j hj => hc.frame j (by omega)⟩
      intro k' hk' j hj
      obtain rfl := hat.unique hk'
      rw [← hpage j (by omega)]
      exact hc.copied j (by omega)
    · have hgot : r.2.2 ≠ true := by
        rw [hend]
        exact Bool.false_ne_true
      have hnext : r.2.1 = i + n := by rw [hend]
      rw [if_neg hgot, hnext]
      refine wp_post (ih (by omega)) ?_
      rintro r' m' ⟨rfl, h⟩
      refine ⟨rfl, StringCopied.skip hreadable (fun j hj => by rw [← hpage j hj]; exact hnone j hj)
        (by omega) ⟨fun j hj => by rw [hc.copied j hj, hpage j hj], hc.frame⟩ ?_⟩
      rcases le_total (pgsize - va % pgsize) max with hle | hle
      · rwa [hn, Nat.min_eq_left hle, next_page, ← Nat.min_eq_left hle, ← hn]
      · -- nothing is left to read
        have hzero : max - n = 0 := by omega
        rw [hzero] at h ⊢
        have hnot (q : ℕ) : ¬∃ k, UserStringAt m' f q 0 k := by
          rintro ⟨k, hk⟩
          exact absurd hk.lt (Nat.not_lt_zero k)
        exact ⟨h.ok.trans (iff_of_false (hnot _) (hnot _)),
          fun k hk => absurd hk.lt (Nat.not_lt_zero k), h.frame⟩

/-- What `fetchstr` returns: the length of the string, which is in the buffer with its NUL, or -1 if
there is none. -/
structure Fetched (m : Mach) (f : ℕ → Word) (va max : ℕ) (buf : Buffer) (r : Option ℤ × Buffer) :
    Prop where
  string : ∀ k, UserStringAt m f va max k →
    r.1 = some (k : ℤ) ∧ r.2 k = 0 ∧ ∀ j < k, r.2 j ≠ 0 ∧ r.2 j = m.load f (va + j)
  none : (∀ k, ¬ UserStringAt m f va max k) → r.1 = some (-1)
  frame : ∀ j, max ≤ j → r.2 j = buf j

lemma strlen_eq (hk : k < max) (hnul : buf k = 0) (hfirst : ∀ j < k, buf j ≠ 0) :
    strlen buf max = some k := by
  unfold strlen
  rw [find?_range_eq_some]
  refine ⟨decide_eq_true hnul, mem_range.mpr hk, fun j hj => ?_⟩
  simpa using hfirst j hj

section
variable (hm : Maps m root f X) (hX : ∀ p ∈ X, p < maxPage)
  (hpa : ∀ va, Readable f va → framePage f va ≠ 0)
include hm hX hpa

lemma copyinstrTo_spec :
    wp (copyinstrTo root buf va max) (fun r m' => m' = m ∧ StringCopied m f va max 0 buf r)
      never m :=
  copyinstrToFrom_spec hm hX hpa le_rfl

lemma fetchstr_spec :
    wp (fetchstr root va buf max) (fun r m' => m' = m ∧ Fetched m f va max buf r) never m := by
  refine wp_seq (copyinstrTo_spec hm hX hpa) ?_
  rintro r m1 ⟨rfl, h⟩
  have hframe : ∀ j, max ≤ j → r.2 j = buf j := fun j hj => h.frame j (.inr (by omega))
  have hbyte : ∀ k, UserStringAt m1 f va max k → ∀ j ≤ k, r.2 j = m1.load f (va + j) := by
    intro k hk j hj
    simpa using h.copied k hk j hj
  split_ifs with hok
  · obtain ⟨k, hk⟩ := h.ok.mp hok
    have hnul : r.2 k = 0 := (hbyte k hk k le_rfl).trans hk.nul
    have hfirst : ∀ j < k, r.2 j ≠ 0 := fun j hj => by
      rw [hbyte k hk j hj.le]
      exact hk.first j hj
    refine wp_pure ⟨rfl, ?_, fun hno => absurd hk (hno k), hframe⟩
    intro k' hk'
    obtain rfl := hk.unique hk'
    rw [strlen_eq hk.lt hnul hfirst]
    exact ⟨rfl, hnul, fun j hj => ⟨hfirst j hj, hbyte k hk j hj.le⟩⟩
  · exact wp_pure ⟨rfl, fun k hk => absurd (h.ok.mpr ⟨k, hk⟩) hok, fun _ => rfl, hframe⟩

end

/-- `copyinstr` succeeds exactly if there is a string with its NUL among the first `max` bytes, in
pages of the user; the buffer then begins with it, and no byte after the first `max` is written.
So `fetchstr` and `argstr` return the length of the string, which lies in the buffer with its
terminator, or -1. -/
theorem copyinstr_argstr (hm : Maps m root f X) (hX : ∀ p ∈ X, p < maxPage)
    (hpa : ∀ va, Readable f va → framePage f va ≠ 0) (buf : Buffer) (va : ℕ) {max : ℕ}
    (_hmax : 1 ≤ max) :
    wp (copyinstrTo root buf va max) (fun r m' => m' = m ∧ StringCopied m f va max 0 buf r)
      never m ∧
    wp (fetchstr root va buf max) (fun r m' => m' = m ∧ Fetched m f va max buf r) never m ∧
    ∀ tf n, n ≤ 5 → wp (argstr root tf n buf max) (fun r m' => m' = m ∧
      Fetched m f (m.cell tf (Fin.ofNat 512 (14 + n))).toNat max buf r) never m := by
  refine ⟨copyinstrTo_spec hm hX hpa, fetchstr_spec hm hX hpa, fun tf n hn => ?_⟩
  unfold argstr argraw
  rw [if_pos hn]
  exact wp_bind (wp_bind (wp_get (wp_pure (fetchstr_spec hm hX hpa))))

theorem copyinstr_argstr_page : ∃ (m : Mach) (root : ℕ) (f : ℕ → Word) (X : Multiset ℕ),
    Maps m root f X ∧
    wp (copyinstrTo root (fun _ => 7) 4090 20)
      (fun r m' => m' = m ∧ StringCopied m f 4090 20 0 (fun _ => 7) r) never m := by
  obtain ⟨m, root, f, X, hs, hd⟩ := exists_onePage
  have hm := @Space.maps smallImage _ _ _ _ _ _ hs
  exact ⟨m, root, f, X, hm, (copyinstr_argstr hm (@lt_maxPage_of_le smallImage _ _ _ hd)
    (fun va h => @Readable.page_ne_zero smallImage _ _ _ _ _ _ _ h hs hd) _ 4090 (by decide)).1⟩

end Xv6.Vm
