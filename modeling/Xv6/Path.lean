import Xv6.DirectorySpec

/-! Path names: `namex` walks from directory to directory as its path says. -/
namespace Xv6

open Program Dinode List

variable {sb : Superblock} {c : ℕ → Block} {loose : Set ℕ} {T : Prop} {rc rc' : ℕ → ℕ}
  {L : Finset ℕ} {t t' : Slot → Inode} {s : Fs} {ip cwd : Slot} {i j n : ℕ} {D : Set ℕ}
  {path p q rest name : List Byte}

/-- The elements of a path: the pieces between slashes, cut to `DIRSIZ` bytes. -/
def elements (path : List Byte) : List (List Byte) :=
  ((path.splitOn 47).filter (· ≠ [])).map nameOf

section elements

lemma elements_nil : elements [] = [] := by simp [elements]

lemma splitOn_piece (hp : 47 ∉ p) : (p ++ 47 :: q).splitOn 47 = p :: q.splitOn 47 := by
  have hno : ∀ x ∈ p, (x == 47) = false := by
    intro x hx
    exact beq_false_of_ne fun hxe => hp (hxe ▸ hx)
  exact splitOnP_append_cons_of_forall_mem hno 47 (by decide) q

lemma elements_slash : elements (47 :: p) = elements p := by
  have hsplit : (47 :: p).splitOn 47 = [] :: p.splitOn 47 := splitOn_piece (p := []) (by simp)
  unfold elements
  rw [hsplit, filter_cons_of_neg (by simp)]

lemma elements_piece (hp : 47 ∉ p) (hne : p ≠ []) : elements p = [nameOf p] := by
  unfold elements
  rw [splitOn_eq_singleton hp, filter_cons_of_pos (by simpa using hne), filter_nil,
    map_singleton]

lemma elements_piece_slash (hp : 47 ∉ p) (hne : p ≠ []) :
    elements (p ++ 47 :: q) = nameOf p :: elements q := by
  unfold elements
  rw [splitOn_piece hp, filter_cons_of_pos (by simpa using hne), map_cons]

lemma elements_dropWhile (p : List Byte) : elements (p.dropWhile (· = 47)) = elements p := by
  induction p with
  | nil => rfl
  | cons x p ih =>
    by_cases hx : x = 47
    · rw [hx, dropWhile_cons_of_pos (by simp), ih, elements_slash]
    · rw [dropWhile_cons_of_neg (by simpa using hx)]

lemma head_of_dropWhile {f : Byte → Bool} {x : Byte} (h : p.dropWhile f = x :: q) :
    f x = false := by
  have hne : p.dropWhile f ≠ [] := by
    rw [h]
    exact cons_ne_nil _ _
  have hhead := head_dropWhile_not f hne
  simpa only [h, head_cons] using hhead

lemma exists_piece {x : Byte} (hx : x ≠ 47) (p : List Byte) :
    47 ∉ (x :: p).takeWhile (· ≠ 47) ∧ (x :: p).takeWhile (· ≠ 47) ≠ [] ∧
      elements (x :: p) =
        nameOf ((x :: p).takeWhile (· ≠ 47)) :: elements ((x :: p).dropWhile (· ≠ 47)) := by
  have hpiece : 47 ∉ (x :: p).takeWhile (· ≠ 47) := by
    intro hm
    have hne := mem_takeWhile_imp hm
    simp at hne
  have hne : (x :: p).takeWhile (· ≠ 47) ≠ [] := by
    rw [takeWhile_cons_of_pos (by simpa using hx)]
    exact cons_ne_nil _ _
  refine ⟨hpiece, hne, ?_⟩
  nth_rewrite 1 [← takeWhile_append_dropWhile (p := (· ≠ 47)) (l := x :: p)]
  cases hr : (x :: p).dropWhile (· ≠ 47) with
  | nil => rw [append_nil, elements_piece hpiece hne, elements_nil]
  | cons y r =>
    have hy : y = 47 := by simpa using head_of_dropWhile hr
    rw [hy, elements_piece_slash hpiece hne, elements_slash]

lemma skipelem_none (h : skipelem path = none) : elements path = [] := by
  unfold skipelem at h
  rw [← elements_dropWhile]
  cases hd : path.dropWhile (· = 47) with
  | nil => exact elements_nil
  | cons x p =>
    rw [hd] at h
    cases h

theorem skipelem_some (h : skipelem path = some (name, rest)) :
    elements path = name :: elements rest ∧ rest.length < path.length ∧
      (elements rest = [] ↔ rest = []) := by
  unfold skipelem at h
  have hlen := length_dropWhile_le (· = 47) path
  rw [← elements_dropWhile]
  cases hd : path.dropWhile (· = 47) with
  | nil =>
    rw [hd] at h
    cases h
  | cons x p =>
    rw [hd] at h hlen
    have hx : x ≠ 47 := by simpa using head_of_dropWhile hd
    obtain ⟨-, -, hel⟩ := exists_piece hx p
    have hshort : ((x :: p).dropWhile (· ≠ 47)).length ≤ p.length := by
      rw [dropWhile_cons_of_pos (by simpa using hx)]
      exact length_dropWhile_le _ _
    have htail := length_dropWhile_le (· = 47) ((x :: p).dropWhile (· ≠ 47))
    rw [length_cons] at hlen
    obtain ⟨rfl, rfl⟩ := Prod.mk.inj (Option.some.inj h)
    refine ⟨by rw [hel, elements_dropWhile], by omega, fun hnil => ?_, fun hnil => ?_⟩
    · cases hr : ((x :: p).dropWhile (· ≠ 47)).dropWhile (· = 47) with
      | nil => rfl
      | cons y r =>
        have hy : y ≠ 47 := by simpa using head_of_dropWhile hr
        rw [hr, (exists_piece hy r).2.2] at hnil
        cases hnil
    · rw [hnil, elements_nil]

theorem elements_slashes : elements (p ++ 47 :: 47 :: q) = elements (p ++ 47 :: q) ∧
    elements (p ++ [47]) = elements p := by
  have hfirst : ∀ q : List Byte, elements (p ++ 47 :: q) = elements p ++ elements q := by
    intro q
    unfold elements
    rw [← map_append, ← filter_append]
    congr 2
    exact splitOnP_append_cons _ _ (by decide)
  constructor
  · rw [hfirst, hfirst, elements_slash]
  · rw [hfirst, elements_nil, append_nil]

end elements

section walk

section
variable (sb : Superblock) (c : ℕ → Block) (i : ℕ)

def child (name : List Byte) : Option ℕ :=
  if (dinodeAt sb c i).type = tDir then
    ((dinodeAt sb c i).lookup c name).map fun e => ((dinodeAt sb c i).direntAt c e).inum
  else none

def resolve (es : List (List Byte)) : Option ℕ :=
  es.foldlM (child sb c) i

def resolveParent (es : List (List Byte)) : Option (ℕ × List Byte) := do
  let name ← es.getLast?
  let d ← resolve sb c i es.dropLast
  if (dinodeAt sb c d).type = tDir then some (d, name) else none

end

theorem resolve_cons (i : ℕ) (a : List Byte) (es : List (List Byte)) :
    resolve sb c i (a :: es) = (child sb c i a).bind fun j => resolve sb c j es := rfl

lemma resolveParent_one (i : ℕ) (a : List Byte) : resolveParent sb c i [a] =
    if (dinodeAt sb c i).type = tDir then some (i, a) else none := rfl

lemma resolveParent_cons {es : List (List Byte)} (i : ℕ) (a : List Byte) (hne : es ≠ []) :
    resolveParent sb c i (a :: es) = (child sb c i a).bind fun j => resolveParent sb c j es := by
  obtain ⟨b, es, rfl⟩ := exists_cons_of_ne_nil hne
  unfold resolveParent
  rw [dropLast_cons_cons, resolve_cons, getLast?_cons_cons]
  cases hlast : (b :: es).getLast? with
  | none => simp at hlast
  | some name =>
    cases child sb c i a with
    | none => rfl
    | some j => rfl

section
variable (sb : Superblock) (c : ℕ → Block) (rc : ℕ → ℕ)

/-- Inode `i` is allocated, and will not be freed when the references that `rc` does not count are
given back. -/
structure InUse (i : ℕ) : Prop where
  lt : i < sb.ninodes
  type : (dinodeAt sb c i).type ≠ 0
  kept : (dinodeAt sb c i).nlink ≠ 0 ∨ 0 < rc i

structure Tree (D : Set ℕ) : Prop where
  inUse : ∀ i ∈ D, InUse sb c rc i
  whole : ∀ i ∈ D, (dinodeAt sb c i).type = tDir → direntSize ∣ (dinodeAt sb c i).size
  closed : ∀ i ∈ D, (dinodeAt sb c i).type = tDir →
    ∀ e < (dinodeAt sb c i).size / direntSize, ((dinodeAt sb c i).direntAt c e).inum ≠ 0 →
      ((dinodeAt sb c i).direntAt c e).inum ∈ D

end

lemma Tree.child (h : Tree sb c rc D) (hi : i ∈ D) (hc : child sb c i name = some j) : j ∈ D := by
  unfold Xv6.child at hc
  split_ifs at hc with ht
  obtain ⟨e, he, rfl⟩ := Option.map_eq_some_iff.mp hc
  have hm := find?_some he
  exact h.closed i hi ht e (mem_range.mp (mem_of_find?_eq_some he))
    (of_decide_eq_true hm).1

lemma Retains.mono (h : Retains rc t t') (hle : ∀ i, 0 < rc' i → 0 < rc i) : Retains rc' t t' :=
  fun ip i hi hp => h ip i hi (hle i hp)

lemma pos_gain {j : ℕ} (h : 0 < rc j) : 0 < gain rc i j := lt_of_lt_of_le h (le_gain j)

lemma lose_gain_gain (rc : ℕ → ℕ) (i j : ℕ) : lose (gain (gain rc i) j) i = gain rc j := by
  funext k
  unfold lose gain
  by_cases hk : k = i
  · subst hk
    by_cases hj : k = j
    · subst hj
      simp
    · simp [hj]
  · by_cases hj : k = j
    · subst hj
      simp [hk]
    · simp [hk, hj]

/-- What `namex` leaves when it fails or returns an inode: `rc`, and one more reference to the
inode. -/
def Walked (sb : Superblock) (T : Prop) (c : ℕ → Block) (loose : Set ℕ) (rc : ℕ → ℕ) (s : Fs)
    (want : Option (ℕ × List Byte)) (r : Option (Slot × List Byte)) (s' : Fs) : Prop :=
  match want with
  | none => r = none ∧ Steady sb T c loose rc ∅ s' ∧ Retains rc s.itable s'.itable
  | some (i, name) => ∃ q, r = some (q, name) ∧ Has s'.itable q i ∧
      Steady sb T c loose (gain rc i) ∅ s' ∧ Retains rc s.itable s'.itable

lemma Walked.retains {s1 s' : Fs} {want : Option (ℕ × List Byte)}
    {r : Option (Slot × List Byte)} (hk : Retains rc s.itable s1.itable)
    (h : Walked sb T c loose rc s1 want r s') : Walked sb T c loose rc s want r s' := by
  cases want with
  | none => exact ⟨h.1, h.2.1, hk.trans h.2.2 fun _ hp => hp⟩
  | some w =>
    obtain ⟨q, hr, hq, hs, hk'⟩ := h
    exact ⟨q, hr, hq, hs, hk.trans hk' fun _ hp => hp⟩

lemma iunlockput_walk {E : Stop → Fs → Prop} {rc1 : ℕ → ℕ} (h : Steady sb T c loose rc1 {i} s)
    (hi : Has s.itable ip i) (hD : InUse sb c rc i) (hrc : ∀ j, gain rc i j ≤ rc1 j) :
    wp (iunlockput ip) (fun _ s' => Steady sb T c loose (lose rc1 i) ∅ s' ∧
      Retains (lose rc1 i) s.itable s'.itable) E s := by
  have h1 := hrc i
  rw [gain_self] at h1
  have hkeep : rc1 i ≠ 1 ∨ (dinodeAt sb c i).nlink ≠ 0 := by
    rcases hD.kept with hn | hp
    · exact .inr hn
    · exact .inl (by omega)
  refine wp_post (iunlockput_spec h hi (Finset.mem_singleton_self i) hkeep) ?_
  rintro _ s' ⟨h', hk, -⟩
  rw [Finset.erase_singleton] at h'
  exact ⟨h', hk⟩

def walk (sb : Superblock) (c : ℕ → Block) (parent : Bool) :
    ℕ → List Byte → List (List Byte) → Option (ℕ × List Byte)
  | i, name, [] => if parent then none else some (i, name)
  | i, _, a :: es =>
      if (dinodeAt sb c i).type ≠ tDir then none
      else if parent ∧ es = [] then some (i, a)
      else (child sb c i a).bind fun j => walk sb c parent j a es

lemma namexFrom_spec {parent : Bool} (h : Steady sb T c loose (gain rc i) ∅ s)
    (hi : Has s.itable ip i) (hT : Tree sb c rc D) (hD : i ∈ D) (hn : path.length ≤ n) :
    wp (namexFrom parent n ip name path)
      (Walked sb T c loose rc s (walk sb c parent i name (elements path))) Starved s := by
  have hend : ∀ {s : Fs} {ip : Slot} {i : ℕ} {name : List Byte},
      Steady sb T c loose (gain rc i) ∅ s → Has s.itable ip i → i ∈ D →
      wp (namexFrom.namexEnd parent ip name)
        (Walked sb T c loose rc s (if parent then none else some (i, name))) Starved s := by
    intro s ip i name h hi hD
    cases parent with
    | false => exact wp_pure ⟨ip, rfl, hi, h, Retains.refl⟩
    | true =>
      have hkeep : gain rc i i ≠ 1 ∨ (dinodeAt sb c i).nlink ≠ 0 := by
        rw [gain_self]
        rcases (hT.inUse i hD).kept with hn | hp
        · exact .inr hn
        · exact .inl (by omega)
      refine wp_seq (iput_spec h hi (fun hm => absurd hm (Finset.notMem_empty i))
        (hkeep.imp_right .inr)) ?_
      rintro _ s' ⟨h', hk, -⟩
      rw [lose_gain] at h' hk
      exact wp_pure ⟨rfl, h', hk⟩
  induction n generalizing s ip i name path with
  | zero =>
    rw [length_eq_zero_iff.mp (Nat.le_zero.mp hn)]
    exact hend h hi hD
  | succ n ih =>
    unfold namexFrom
    cases hskip : skipelem path with
    | none =>
      rw [skipelem_none hskip]
      exact hend h hi hD
    | some r =>
      obtain ⟨a, rest⟩ := r
      obtain ⟨hel, hlen, hlast⟩ := skipelem_some hskip
      rw [hel]
      have hU := hT.inUse i hD
      have hpos : 0 < gain rc i i := by rw [gain_self]; omega
      refine wp_seq (ilock_spec h hi hU.lt hU.type (Finset.notMem_empty i)) ?_
      rintro _ s1 ⟨h1, hk1, -⟩
      rw [insert_empty_eq] at h1
      have hi1 := hk1 ip i hi hpos
      have hk1' : Retains rc s.itable s1.itable := hk1.mono fun _ hp => pos_gain hp
      refine wp_bind (wp_inode ?_)
      rw [(h1.work hi1 (Finset.mem_singleton_self i) hU.type).mem, walk]
      by_cases htype : (dinodeAt sb c i).type ≠ tDir
      · rw [if_pos htype, if_pos htype]
        refine wp_seq (iunlockput_walk h1 hi1 hU fun _ => le_rfl) ?_
        rintro _ s2 ⟨h2, hk2⟩
        rw [lose_gain] at h2 hk2
        exact wp_pure ⟨rfl, h2, hk1'.trans hk2 fun _ hp => hp⟩
      rw [if_neg htype, if_neg htype]
      by_cases hpar : parent ∧ rest = []
      · have hpar' : parent ∧ elements rest = [] := ⟨hpar.1, hlast.mpr hpar.2⟩
        rw [if_pos hpar, if_pos hpar']
        refine wp_seq (iunlock_spec h1 hi1 (Finset.mem_singleton_self i)) ?_
        rintro _ s2 ⟨h2, hk2, -⟩
        rw [Finset.erase_singleton] at h2
        have hk2' : Retains rc s1.itable s2.itable := hk2.mono fun _ hp => pos_gain hp
        exact wp_pure ⟨ip, rfl, hk2 ip i hi1 hpos, h2, hk1'.trans hk2' fun _ hp => hp⟩
      have hpar' : ¬ (parent ∧ elements rest = []) := fun hp => hpar ⟨hp.1, hlast.mp hp.2⟩
      rw [if_neg hpar, if_neg hpar']
      push Not at htype
      refine wp_seq (dirlookup_spec h1 hi1 (Finset.mem_singleton_self i) htype
        (hT.whole i hD htype) a) ?_
      intro r s2 hr
      unfold LookedUp at hr
      cases hf : (dinodeAt sb c i).lookup c a with
      | none =>
        have hchild : child sb c i a = none := by
          unfold child
          rw [if_pos htype, hf]
          rfl
        rw [hf] at hr
        obtain ⟨rfl, h2, hk2⟩ := hr
        have hk2' : Retains rc s1.itable s2.itable := hk2.mono fun _ hp => pos_gain hp
        refine wp_seq (iunlockput_walk h2 (hk2 ip i hi1 hpos) hU fun _ => le_rfl) ?_
        rintro _ s3 ⟨h3, hk3⟩
        rw [lose_gain] at h3 hk3
        rw [hchild]
        exact wp_pure ⟨rfl, h3, (hk1'.trans hk2' fun _ hp => hp).trans hk3 fun _ hp => hp⟩
      | some e =>
        have hchild : child sb c i a = some ((dinodeAt sb c i).direntAt c e).inum := by
          unfold child
          rw [if_pos htype, hf]
          rfl
        rw [hf] at hr
        obtain ⟨q, rfl, hq, h2, hk2, -⟩ := hr
        generalize ((dinodeAt sb c i).direntAt c e).inum = j at hchild hq h2 hk2
        have hk2' : Retains rc s1.itable s2.itable := hk2.mono fun _ hp => pos_gain (pos_gain hp)
        have hi2 := hk2 ip i hi1 (pos_gain hpos)
        refine wp_seq (iunlockput_walk h2 hi2 hU le_gain) ?_
        rintro _ s3 ⟨h3, hk3⟩
        rw [lose_gain_gain] at h3 hk3
        have hq3 := hk3 q j hq (by rw [gain_self]; omega)
        have hk3' : Retains rc s2.itable s3.itable := hk3.mono fun _ hp => pos_gain hp
        rw [hchild]
        refine wp_post (ih h3 hq3 (hT.child hD hchild) (by omega)) ?_
        intro r s4 hw
        exact hw.retains ((hk1'.trans hk2' fun _ hp => hp).trans hk3' fun _ hp => hp)

theorem walk_false (i : ℕ) (name : List Byte) (es : List (List Byte)) :
    (walk sb c false i name es).map Prod.fst = resolve sb c i es := by
  induction es generalizing i name with
  | nil => rfl
  | cons a es ih =>
    rw [walk, resolve_cons]
    by_cases ht : (dinodeAt sb c i).type = tDir
    · rw [if_neg (by simpa using ht)]
      cases child sb c i a with
      | none => rfl
      | some j => exact ih j a
    · rw [if_pos ht]
      unfold child
      rw [if_neg ht]
      rfl

theorem walk_true (i : ℕ) (name : List Byte) (es : List (List Byte)) :
    walk sb c true i name es = resolveParent sb c i es := by
  induction es generalizing i name with
  | nil => rfl
  | cons a es ih =>
    rw [walk]
    by_cases hes : es = []
    · subst hes
      rw [resolveParent_one]
      by_cases ht : (dinodeAt sb c i).type = tDir
      · rw [if_neg (by simpa using ht), if_pos (by simp), if_pos ht]
      · rw [if_pos ht, if_neg ht]
    · rw [resolveParent_cons i a hes]
      by_cases ht : (dinodeAt sb c i).type = tDir
      · rw [if_neg (by simpa using ht), if_neg (by simp [hes])]
        cases child sb c i a with
        | none => rfl
        | some j => exact ih j a
      · rw [if_pos ht]
        unfold child
        rw [if_neg ht]
        rfl

def pathStart (d : ℕ) (path : List Byte) : ℕ := if path.head? = some 47 then rootIno else d

theorem namex_spec {parent : Bool} {d : ℕ} (h : Steady sb T c loose rc ∅ s)
    (hcwd : Has s.itable cwd d) (hT : Tree sb c rc D) (hroot : rootIno ∈ D) (hd : d ∈ D)
    (path : List Byte) :
    wp (namex cwd path parent) (Walked sb T c loose rc s
      (walk sb c parent (pathStart d path) [] (elements path))) Starved s := by
  unfold namex namexStart pathStart
  by_cases hslash : path.head? = some 47
  · rw [if_pos hslash, if_pos hslash]
    refine wp_seq (iget_spec h rootIno) ?_
    rintro ip s1 ⟨hi, h1, hk, -⟩
    refine wp_post (namexFrom_spec h1 hi hT hroot le_rfl) ?_
    intro r s2 hw
    exact hw.retains (hk.mono fun _ hp => pos_gain hp)
  · rw [if_neg hslash, if_neg hslash]
    refine wp_seq (idup_spec h hcwd) ?_
    rintro _ s1 ⟨rfl, hi, h1, hk, -⟩
    refine wp_post (namexFrom_spec h1 hi hT hd le_rfl) ?_
    intro r s2 hw
    exact hw.retains (hk.mono fun _ hp => pos_gain hp)

end walk

end Xv6
