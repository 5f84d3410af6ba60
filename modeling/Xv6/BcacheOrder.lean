import Xv6.Bcache

/-! The order of the buffer cache: one circle of all buffers, sorted by the time of the last
release, with one buffer for each block. -/
namespace Xv6.Bcache

open Linked Function Transition List Option

variable {ι : Type} {c c' : Cache ι} {p : ι} {b b' : Fin nbuf} {dev blockno : BitVec 32}
  {l : List (Fin nbuf)}

def one (b b' : Fin nbuf) : ℕ := if b = b' then 1 else 0

def Pc.uses (b : Fin nbuf) : Pc → ℕ
  | .acquiring b' | .releasing b' => one b' b
  | .idle => 0

def Cache.users [Fintype ι] (c : Cache ι) (b : Fin nbuf) : ℕ :=
  (c.lock b).toList.length + ∑ p, (c.pc p).uses b

structure Order (c : Cache ι) (l : List (Fin nbuf)) : Prop where
  forms : c.links.Forms l
  all : ∀ b, b ∈ l
  sorted : l.Pairwise fun x y => c.released y ≤ c.released x

def Distinct (c : Cache ι) : Prop :=
  ∀ b b', b ≠ b' → (c.buf b).dev ≠ 0 → (c.buf b').is (c.buf b).dev (c.buf b).blockno = false

structure Inv [Fintype ι] (c : Cache ι) : Prop where
  order : ∃ l, Order c l
  past : ∀ b, c.released b < c.time
  distinct : Distinct c
  counts : ∀ b, (c.buf b).refcnt = BitVec.ofNat 32 (c.users b + c.pins b)

lemma Order.length (h : Order c l) : l.length = nbuf := by
  have hcard := toFinset_card_of_nodup h.forms.nodup
  have huniv : l.toFinset = Finset.univ := Finset.eq_univ_of_forall fun b => by simp [h.all b]
  rw [← hcard, huniv, Finset.card_univ, Fintype.card_fin]

lemma Order.find (h : Order c l) (dev blockno : BitVec 32) : c.find dev blockno =
    match l.find? fun b => (c.buf b).is dev blockno with
    | some b => some (.cached b)
    | none =>
        match l.reverse.find? fun b => (c.buf b).refcnt = 0 with
        | some b => some (.recycled b)
        | none => some .noBuffers := by
  have hlen := h.length
  have h1 : search c.links.next (fun b => (c.buf b).is dev blockno) nbuf (c.links.next none) = _ :=
    search_path h.forms.next _ (by omega)
  have h2 : search c.links.prev (fun b => (c.buf b).refcnt = 0) nbuf (c.links.prev none) = _ :=
    search_path h.forms.prev _ (by rw [length_reverse]; omega)
  unfold Cache.find
  rw [h1, h2]
  cases l.find? fun b => (c.buf b).is dev blockno with
  | some b => rfl
  | none => cases l.reverse.find? fun b => (c.buf b).refcnt = 0 <;> rfl

lemma Order.oldest (h : Order c l) {P : Fin nbuf → Bool} (hb : l.reverse.find? P = some b) :
    P b = true ∧ ∀ b', P b' = true → c.released b ≤ c.released b' := by
  obtain ⟨hPb, l2, l1, hl, hno⟩ := find?_eq_some_iff_append.mp hb
  refine ⟨hPb, fun b' hb' => ?_⟩
  have hsplit : l = l1.reverse ++ b :: l2.reverse := by
    have hrev := congrArg reverse hl
    simpa using hrev
  have hsorted := h.sorted
  rw [hsplit, pairwise_append] at hsorted
  have hmem := h.all b'
  rw [hsplit, mem_append, mem_cons] at hmem
  rcases hmem with h₁ | rfl | h₂
  · exact hsorted.2.2 b' h₁ b (by simp)
  · exact le_rfl
  · have hn := hno b' (mem_reverse.mp h₂)
    rw [hb'] at hn
    cases hn

structure Finds (c : Cache ι) : Prop where
  ends : ∀ dev blockno, c.find dev blockno ≠ none
  hit : ∀ dev blockno b, (c.buf b).is dev blockno = true →
    ∃ b', c.find dev blockno = some (.cached b') ∧ (c.buf b').is dev blockno = true ∧
      (dev ≠ 0 → b' = b)
  cached : ∀ dev blockno b, c.find dev blockno = some (.cached b) →
    (c.buf b).is dev blockno = true
  recycled : ∀ dev blockno b, c.find dev blockno = some (.recycled b) →
    (∀ b', (c.buf b').is dev blockno = false) ∧ (c.buf b).refcnt = 0 ∧
      ∀ b', (c.buf b').refcnt = 0 → c.released b ≤ c.released b'
  full : ∀ dev blockno, c.find dev blockno = some .noBuffers → ∀ b, (c.buf b).refcnt ≠ 0

lemma Order.finds (h : Order c l) (hd : Distinct c) : Finds c := by
  refine ⟨?_, ?_, ?_, ?_, ?_⟩
  · intro dev blockno
    rw [h.find]
    split
    · simp
    · split <;> simp
  · intro dev blockno b hb
    have hsome : (l.find? fun b => (c.buf b).is dev blockno).isSome = true :=
      find?_isSome.mpr ⟨b, h.all b, hb⟩
    obtain ⟨b', hb'⟩ := isSome_iff_exists.mp hsome
    have his := find?_some hb'
    refine ⟨b', by rw [h.find, hb'], his, fun hdev => ?_⟩
    by_contra hne
    have hkey : (c.buf b').dev = dev ∧ (c.buf b').blockno = blockno := by simpa [Buf.is] using his
    have hno := hd b' b hne (by rw [hkey.1]; exact hdev)
    rw [hkey.1, hkey.2, hb] at hno
    cases hno
  · intro dev blockno b hb
    rw [h.find] at hb
    split at hb
    next b' hb' =>
      cases hb
      have his := find?_some hb'
      exact his
    next => split at hb <;> cases hb
  · intro dev blockno b hb
    rw [h.find] at hb
    split at hb
    next => cases hb
    next hnone =>
      split at hb
      next b' hb' =>
        cases hb
        obtain ⟨hzero, hold⟩ := h.oldest hb'
        refine ⟨?_, by simpa using hzero, fun b' hb' => hold b' (by simpa using hb')⟩
        intro b'
        simpa using find?_eq_none.mp hnone b' (h.all b')
      next => cases hb
  · intro dev blockno hfull b
    rw [h.find] at hfull
    split at hfull
    next => cases hfull
    next =>
      split at hfull
      next => cases hfull
      next hnone => simpa using find?_eq_none.mp hnone b (by simpa using h.all b)

/-! What each step keeps. -/

lemma Order.keep (h : Order c l) (hlinks : c'.links = c.links)
    (hreleased : c'.released = c.released) : Order c' l :=
  ⟨hlinks ▸ h.forms, h.all, hreleased ▸ h.sorted⟩

lemma Order.moveToFront (h : Order c l) (hpast : ∀ b, c.released b < c.time) (b : Fin nbuf) :
    Order (c.moveToFront b) (b :: l.erase b) := by
  obtain ⟨l1, l2, hb1, hl, herase⟩ := exists_erase_eq (h.all b)
  have hforms := h.forms
  rw [hl] at hforms
  have hb : b ∉ l.erase b := h.forms.nodup.not_mem_erase
  have hreleased : ∀ x ∈ l.erase b, (c.moveToFront b).released x = c.released x := by
    intro x hx
    refine update_of_ne ?_ _ _
    rintro rfl
    exact hb hx
  refine ⟨?_, ?_, pairwise_cons.mpr ⟨?_, ?_⟩⟩
  · rw [herase] at hb ⊢
    exact hforms.unlink.pushFront hb
  · intro x
    by_cases hx : x = b
    · exact hx ▸ mem_cons_self
    · exact mem_cons_of_mem _ ((mem_erase_of_ne hx).mpr (h.all x))
  · intro x hx
    rw [hreleased x hx]
    change c.released x ≤ update c.released b c.time b
    rw [update_self]
    exact (hpast x).le
  · refine (h.sorted.sublist erase_sublist).imp_of_mem ?_
    intro x y hx hy hxy
    rw [hreleased x hx, hreleased y hy]
    exact hxy

lemma past_moveToFront (h : ∀ b, c.released b < c.time) (b b' : Fin nbuf) :
    (c.moveToFront b).released b' < (c.moveToFront b).time := by
  have htime : (c.time : WithBot ℕ) < (c.moveToFront b).time := by
    exact_mod_cast Nat.lt_succ_self c.time
  by_cases hb : b' = b
  · subst hb
    simpa [Cache.moveToFront] using htime
  · have hsame : (c.moveToFront b).released b' = c.released b' := update_of_ne hb _ _
    rw [hsame]
    exact (h b').trans htime

lemma Distinct.keep (h : Distinct c)
    (hkey : ∀ b, (c'.buf b).dev = (c.buf b).dev ∧ (c'.buf b).blockno = (c.buf b).blockno) :
    Distinct c' := by
  intro b b' hne hdev
  have hno := h b b' hne (by rw [← (hkey b).1]; exact hdev)
  simpa [Buf.is, (hkey b).1, (hkey b).2, (hkey b').1, (hkey b').2] using hno

lemma Distinct.recycle (h : Distinct c) (hno : ∀ b, (c.buf b).is dev blockno = false) (x : Buf)
    (hx : x.dev = dev ∧ x.blockno = blockno) : Distinct (c.setBuf b x) := by
  intro d d' hne hdev
  have hbuf : ∀ e, (c.setBuf b x).buf e = if e = b then x else c.buf e := by
    intro e
    by_cases he : e = b
    · simp [Cache.setBuf, he]
    · simp [Cache.setBuf, he]
  rw [hbuf] at hdev
  rw [hbuf, hbuf]
  by_cases hd : d = b
  · rw [if_pos hd, if_neg (fun he => hne (hd.trans he.symm)), hx.1, hx.2]
    exact hno d'
  · rw [if_neg hd] at hdev ⊢
    by_cases hd' : d' = b
    · rw [if_pos hd']
      have hn := hno d
      simp only [Buf.is, decide_eq_false_iff_not] at hn ⊢
      rintro ⟨h1, h2⟩
      exact hn ⟨h1.symm.trans hx.1, h2.symm.trans hx.2⟩
    · rw [if_neg hd']
      exact h d d' hne hdev

lemma refcnt_addRef (c : Cache ι) (b b' : Fin nbuf) :
    ((c.addRef b).buf b').refcnt = (c.buf b').refcnt + BitVec.ofNat 32 (one b b') := by
  by_cases hb : b = b'
  · subst hb
    simp [Cache.addRef, Cache.setBuf, one]
  · simp [Cache.addRef, Cache.setBuf, one, hb, update_of_ne (Ne.symm hb)]

lemma refcnt_dropRef (c : Cache ι) (b b' : Fin nbuf) :
    ((c.dropRef b).buf b').refcnt + BitVec.ofNat 32 (one b b') = (c.buf b').refcnt := by
  by_cases hb : b = b'
  · subst hb
    simp [Cache.dropRef, Cache.setBuf, one]
  · simp [Cache.dropRef, Cache.setBuf, one, hb, update_of_ne (Ne.symm hb)]

lemma key_setBuf (c : Cache ι) (b : Fin nbuf) (x : Buf)
    (hx : x.dev = (c.buf b).dev ∧ x.blockno = (c.buf b).blockno) (b' : Fin nbuf) :
    ((c.setBuf b x).buf b').dev = (c.buf b').dev ∧
      ((c.setBuf b x).buf b').blockno = (c.buf b').blockno := by
  by_cases hb : b' = b
  · subst hb
    simpa [Cache.setBuf] using hx
  · simp [Cache.setBuf, hb]

lemma key_addRef (c : Cache ι) (b b' : Fin nbuf) :
    ((c.addRef b).buf b').dev = (c.buf b').dev ∧
      ((c.addRef b).buf b').blockno = (c.buf b').blockno :=
  key_setBuf c b { c.buf b with refcnt := (c.buf b).refcnt + 1 } ⟨rfl, rfl⟩ b'

lemma key_dropRef (c : Cache ι) (b b' : Fin nbuf) :
    ((c.dropRef b).buf b').dev = (c.buf b').dev ∧
      ((c.dropRef b).buf b').blockno = (c.buf b').blockno :=
  key_setBuf c b { c.buf b with refcnt := (c.buf b).refcnt - 1 } ⟨rfl, rfl⟩ b'

section counts
variable [Fintype ι]

lemma Inv.of_counts {n m : Fin nbuf → ℕ} (h : Inv c) (horder : ∃ l, Order c' l)
    (hpast : ∀ b, c'.released b < c'.time) (hdistinct : Distinct c')
    (hcount : ∀ b, c'.users b + c'.pins b + n b = c.users b + c.pins b + m b)
    (hrefcnt : ∀ b, (c'.buf b).refcnt + BitVec.ofNat 32 (n b) =
      (c.buf b).refcnt + BitVec.ofNat 32 (m b)) : Inv c' := by
  refine ⟨horder, hpast, hdistinct, fun b => ?_⟩
  have hsum := congrArg (BitVec.ofNat 32) (hcount b)
  have hr := hrefcnt b
  rw [h.counts b, ← BitVec.ofNat_add, ← hsum, BitVec.ofNat_add] at hr
  exact (BitVec.add_left_inj _).mp hr

variable [DecidableEq ι]

lemma users_goto (c : Cache ι) (p : ι) (x : Pc) (b : Fin nbuf) :
    (c.goto p x).users b + (c.pc p).uses b = c.users b + x.uses b := by
  have hsum := sum_update_add (Pc.uses b) c.pc p x
  simp only [Cache.users, Cache.goto]
  omega

omit [DecidableEq ι] in
lemma users_setLock (c : Cache ι) (b : Fin nbuf) (x : Option ι) (b' : Fin nbuf) :
    (c.setLock b x).users b' + (c.lock b).toList.length * one b b' =
      c.users b' + x.toList.length * one b b' := by
  by_cases hb : b = b'
  · subst hb
    simp only [Cache.users, Cache.setLock, update_self, one, if_true]
    omega
  · simp [Cache.users, Cache.setLock, one, hb, update_of_ne (Ne.symm hb)]

lemma Inv.bget (h : Inv c) (hp : c.pc p = .idle) (ht : c.bget p dev blockno = some c') :
    Inv c' := by
  obtain ⟨l, hord⟩ := h.order
  have huses : ∀ b', (c.pc p).uses b' = 0 := fun b' => by rw [hp]; rfl
  unfold Cache.bget at ht
  split at ht
  next b hb =>
    cases ht
    refine h.of_counts (n := fun _ => 0) (m := one b) ⟨l, hord.keep rfl rfl⟩ h.past
      (h.distinct.keep (key_addRef c b)) ?_ ?_
    · intro b'
      have hu := users_goto (c.addRef b) p (.acquiring b) b'
      rw [show (c.addRef b).pc p = c.pc p from rfl, huses b'] at hu
      change _ + c.pins b' + 0 = _
      have hsame : (c.addRef b).users b' = c.users b' := rfl
      simp only [Pc.uses] at hu
      omega
    · intro b'
      exact (BitVec.add_zero _).trans (refcnt_addRef c b b')
  next b hb =>
    cases ht
    obtain ⟨hno, hzero, _⟩ := (hord.finds h.distinct).recycled dev blockno b hb
    refine h.of_counts (n := fun _ => 0) (m := one b) ⟨l, hord.keep rfl rfl⟩ h.past
      (h.distinct.recycle hno _ ⟨rfl, rfl⟩) ?_ ?_
    · intro b'
      have hu := users_goto (c.setBuf b ⟨false, dev, blockno, 1⟩) p (.acquiring b) b'
      rw [show (c.setBuf b ⟨false, dev, blockno, 1⟩).pc p = c.pc p from rfl, huses b'] at hu
      change _ + c.pins b' + 0 = _
      have hsame : (c.setBuf b ⟨false, dev, blockno, 1⟩).users b' = c.users b' := rfl
      simp only [Pc.uses] at hu
      omega
    · intro b'
      by_cases hbb : b = b'
      · subst hbb
        simp [Cache.goto, Cache.setBuf, one, hzero]
      · simp [Cache.goto, Cache.setBuf, one, hbb, update_of_ne (Ne.symm hbb)]
  next => cases ht
  next => cases ht

lemma Inv.acquiresleep (h : Inv c) (hp : c.pc p = .acquiring b) (hl : c.lock b = none) :
    Inv ((c.setLock b (some p)).goto p .idle) := by
  obtain ⟨l, hord⟩ := h.order
  refine h.of_counts (n := fun _ => 0) (m := fun _ => 0) ⟨l, hord.keep rfl rfl⟩ h.past
    (h.distinct.keep fun _ => ⟨rfl, rfl⟩) ?_ fun _ => rfl
  intro b'
  have hu := users_goto (c.setLock b (some p)) p .idle b'
  have hlock := users_setLock c b (some p) b'
  rw [show (c.setLock b (some p)).pc p = c.pc p from rfl, hp] at hu
  rw [hl] at hlock
  simp only [Pc.uses, toList_none, toList_some, length_nil,
    length_singleton] at hu hlock
  change _ + c.pins b' + 0 = _
  omega

lemma Inv.brelse (h : Inv c) (hp : c.pc p = .idle) (hl : c.lock b = some p) :
    Inv ((c.setLock b none).goto p (.releasing b)) := by
  obtain ⟨l, hord⟩ := h.order
  refine h.of_counts (n := fun _ => 0) (m := fun _ => 0) ⟨l, hord.keep rfl rfl⟩ h.past
    (h.distinct.keep fun _ => ⟨rfl, rfl⟩) ?_ fun _ => rfl
  intro b'
  have hu := users_goto (c.setLock b none) p (.releasing b) b'
  have hlock := users_setLock c b none b'
  rw [show (c.setLock b none).pc p = c.pc p from rfl, hp] at hu
  rw [hl] at hlock
  simp only [Pc.uses, toList_none, toList_some, length_nil,
    length_singleton] at hu hlock
  change _ + c.pins b' + 0 = _
  omega

lemma Inv.unref (h : Inv c) (hp : c.pc p = .releasing b) : Inv (c.unref p b) := by
  obtain ⟨l, hord⟩ := h.order
  have hdrop : Order (c.dropRef b) l := hord.keep rfl rfl
  have hkeep : Distinct (c.dropRef b) := h.distinct.keep (key_dropRef c b)
  have hcount : ∀ (d : Cache ι), d.pc = c.pc → d.lock = c.lock → ∀ b',
      (d.goto p .idle).users b' + one b b' = c.users b' := by
    intro d hpc hlock b'
    have hu := users_goto d p .idle b'
    have hsame : d.users b' = c.users b' := by simp only [Cache.users, hpc, hlock]
    rw [hpc, hp] at hu
    simp only [Pc.uses] at hu
    omega
  unfold Cache.unref
  dsimp only
  split
  next hzero =>
    refine h.of_counts (n := one b) (m := fun _ => 0)
      ⟨b :: l.erase b, (hdrop.moveToFront h.past b).keep rfl rfl⟩ ?_
      (hkeep.keep fun _ => ⟨rfl, rfl⟩) ?_ ?_
    · exact past_moveToFront h.past b
    · intro b'
      have hc := hcount ((c.dropRef b).moveToFront b) rfl rfl b'
      change _ + c.pins b' + one b b' = c.users b' + c.pins b' + 0
      omega
    · intro b'
      exact (refcnt_dropRef c b b').trans (BitVec.add_zero _).symm
  next hzero =>
    refine h.of_counts (n := one b) (m := fun _ => 0) ⟨l, hdrop.keep rfl rfl⟩ h.past
      (hkeep.keep fun _ => ⟨rfl, rfl⟩) ?_ ?_
    · intro b'
      have hc := hcount (c.dropRef b) rfl rfl b'
      change _ + c.pins b' + one b b' = c.users b' + c.pins b' + 0
      omega
    · intro b'
      exact (refcnt_dropRef c b b').trans (BitVec.add_zero _).symm

omit [DecidableEq ι] in
lemma Inv.bpin (h : Inv c) (b : Fin nbuf) :
    Inv { c.addRef b with pins := update c.pins b (c.pins b + 1) } := by
  obtain ⟨l, hord⟩ := h.order
  refine h.of_counts (n := fun _ => 0) (m := one b) ⟨l, hord.keep rfl rfl⟩ h.past
    (h.distinct.keep (key_addRef c b)) ?_ ?_
  · intro b'
    change c.users b' + update c.pins b (c.pins b + 1) b' + 0 = _
    by_cases hb : b = b'
    · subst hb
      simp [one, add_assoc]
    · simp [one, hb, update_of_ne (Ne.symm hb)]
  · intro b'
    exact (BitVec.add_zero _).trans (refcnt_addRef c b b')

omit [DecidableEq ι] in
lemma Inv.bunpin (h : Inv c) (hb : 0 < c.pins b) :
    Inv { c.dropRef b with pins := update c.pins b (c.pins b - 1) } := by
  obtain ⟨l, hord⟩ := h.order
  refine h.of_counts (n := one b) (m := fun _ => 0) ⟨l, hord.keep rfl rfl⟩ h.past
    (h.distinct.keep (key_dropRef c b)) ?_ ?_
  · intro b'
    change c.users b' + update c.pins b (c.pins b - 1) b' + one b b' = _
    by_cases hbb : b = b'
    · subst hbb
      simp only [update_self, one, if_true]
      omega
    · simp [one, hbb, update_of_ne (Ne.symm hbb)]
  · intro b'
    exact (refcnt_dropRef c b b').trans (BitVec.add_zero _).symm

lemma Inv.next {e : Event ι} (h : Inv c) (hg : Protocol c e) (ht : c.next e = some c') :
    Inv c' := by
  cases e with
  | bget p dev blockno =>
    simp only [Cache.next, ite_none_right_eq_some] at ht
    exact h.bget ht.1 ht.2
  | acquiresleep p =>
    simp only [Cache.next] at ht
    split at ht
    next b hp =>
      split_ifs at ht with hl
      cases ht
      exact h.acquiresleep hp hl
    next => cases ht
  | brelse p b =>
    simp only [Cache.next, ite_none_right_eq_some, some.injEq] at ht
    obtain ⟨⟨hp, hl⟩, rfl⟩ := ht
    exact h.brelse hp hl
  | unref p =>
    simp only [Cache.next] at ht
    split at ht
    next b hp =>
      cases ht
      exact h.unref hp
    next => cases ht
  | bpin p b =>
    simp only [Cache.next, ite_none_right_eq_some, some.injEq] at ht
    obtain ⟨_, rfl⟩ := ht
    exact h.bpin b
  | bunpin p b =>
    simp only [Cache.next, ite_none_right_eq_some, some.injEq] at ht
    obtain ⟨_, rfl⟩ := ht
    exact h.bunpin hg.1

omit [DecidableEq ι] in
lemma inv_boot : Inv (boot : Cache ι) := by
  have hforms : binit.Forms ((finRange nbuf).reverse ++ []) :=
    Links.forms_empty.foldl (nodup_finRange nbuf) fun _ _ => not_mem_nil
  refine ⟨⟨_, hforms, ?_, ?_⟩, ?_, ?_, ?_⟩
  · intro b
    simp [mem_finRange]
  · exact pairwise_of_forall fun _ _ => le_rfl
  · intro b
    exact WithBot.bot_lt_coe 0
  · intro b b' _ hdev
    exact absurd rfl hdev
  · intro b
    simp [boot, Cache.users, Pc.uses]

/-- In every run that keeps to the protocol: the links form one circle of all buffers; no block of
a device has two; `bget` finds the buffer of a cached block, and recycles only an unused one, the
one that `brelse` released longest ago; and `refcnt` counts the references to a buffer. -/
theorem cache_in_order {es : List (Event ι)}
    (h : Run (Guarded Cache.next Protocol) boot es c) :
    (∃ l, c.links.Forms l ∧ ∀ b, b ∈ l) ∧ Distinct c ∧ Finds c ∧
      ∀ b, (c.buf b).refcnt = BitVec.ofNat 32 (c.users b + c.pins b) := by
  have hinv : Inv c := by
    refine h.invariant (I := Inv) ?_ inv_boot
    rintro c e c' hc ⟨hg, ht⟩
    exact hc.next hg ht
  obtain ⟨l, hord⟩ := hinv.order
  exact ⟨⟨l, hord.forms, hord.all⟩, hinv.distinct, hord.finds hinv.distinct, hinv.counts⟩

end counts

instance (c : Cache (Fin 2)) (e : Event (Fin 2)) : Decidable (Protocol c e) :=
  match e with
  | .bunpin p b => inferInstanceAs (Decidable (0 < c.pins b ∧ c.lock b = some p))
  | .bget _ _ _ | .acquiresleep _ | .brelse _ _ | .unref _ | .bpin _ _ => isTrue trivial

/-- Process 0 gets block 5, pins and unpins it, and releases it; process 1 gets block 6 and
keeps it. -/
def twoBlocks : List (Event (Fin 2)) :=
  [.bget 0 1 5, .acquiresleep 0, .bpin 0 0, .bget 1 1 6, .bunpin 0 0, .brelse 0 0,
    .acquiresleep 1, .unref 0]

theorem cache_in_order_two : ∃ c : Cache (Fin 2),
    Run (Guarded Cache.next Protocol) boot twoBlocks c ∧
    ((c.buf 0).is 1 5 = true ∧ (c.buf 0).refcnt = 0 ∧ (c.buf 1).is 1 6 = true ∧
      (c.buf 1).refcnt = 1 ∧ c.links.next none = some 0) ∧
    (∃ l, c.links.Forms l ∧ ∀ b, b ∈ l) ∧ Distinct c ∧ Finds c ∧
      ∀ b, (c.buf b).refcnt = BitVec.ofNat 32 (c.users b + c.pins b) := by
  obtain ⟨c, hrun, hc⟩ := exists_run_of_replay
    (f := Cache.next) (G := Protocol)
    (P := fun c : Cache (Fin 2) => (c.buf 0).is 1 5 = true ∧ (c.buf 0).refcnt = 0 ∧
      (c.buf 1).is 1 6 = true ∧ (c.buf 1).refcnt = 1 ∧ c.links.next none = some 0)
    (s := boot) (l := twoBlocks) (by decide +kernel)
  exact ⟨c, hrun, of_decide_eq_true hc, cache_in_order hrun⟩

end Xv6.Bcache
