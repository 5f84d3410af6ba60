import Xv6.Bio

/-! What the operations of `bio.c` do, in terms of the buffer found for each block. -/
namespace Xv6

open Program Function List

variable {dev b dev' b' : ℕ} {l l' : List Buf} {k : Kernel}

def Buf.recycled (x : Buf) (dev b : ℕ) : Buf :=
  { x with dev := dev, blockno := b, valid := false, refcnt := 1, locked := true }

theorem recycle_shape (h : recycle dev b l = some l') :
    ∃ p x q, l = p ++ x :: q ∧ x.refcnt = 0 ∧ l' = p ++ x.recycled dev b :: q := by
  induction l generalizing l' with
  | nil => simp [recycle] at h
  | cons y l ih =>
    simp only [recycle] at h
    split at h
    next r hr =>
      cases h
      obtain ⟨p, x, q, rfl, hx, rfl⟩ := ih hr
      exact ⟨y :: p, x, q, rfl, hx, rfl⟩
    next =>
      split at h
      next hy =>
        cases h
        exact ⟨[], y, l, rfl, hy, rfl⟩
      next => cases h

lemma recycle_isSome (h : ∃ x ∈ l, x.refcnt = 0) : ∃ l', recycle dev b l = some l' := by
  induction l with
  | nil => simp at h
  | cons y l ih =>
    simp only [recycle]
    cases hr : recycle dev b l with
    | some r => exact ⟨y :: r, rfl⟩
    | none =>
      obtain ⟨x, hx, h0⟩ := h
      rcases mem_cons.mp hx with rfl | hx
      · simp [h0]
      · obtain ⟨r, hr'⟩ := ih ⟨x, hx, h0⟩
        rw [hr] at hr'
        cases hr'

section
variable (h : recycle dev b l = some l')
include h

lemma find_recycle (hn : l.find? (Buf.is dev b) = none) :
    ∃ x : Buf, x.refcnt = 0 ∧ l'.find? (Buf.is dev b) = some (x.recycled dev b) := by
  obtain ⟨p, x, q, rfl, hx, rfl⟩ := recycle_shape h
  rw [find?_append] at hn ⊢
  have hp : p.find? (Buf.is dev b) = none := by
    cases hf : p.find? (Buf.is dev b) with
    | none => rfl
    | some y => simp [hf] at hn
  have hfresh : Buf.is dev b (x.recycled dev b) = true := by simp [Buf.recycled]
  exact ⟨x, hx, by rw [hp, find?_cons_of_pos hfresh]; rfl⟩

/-- Recycling keeps the other blocks, except that it may drop one nobody refers to. -/
lemma find_recycle_of_ne (hd : Distinct l) (hdev : dev' ≠ 0) (hne : dev' ≠ dev ∨ b' ≠ b) :
    l'.find? (Buf.is dev' b') = l.find? (Buf.is dev' b') ∨
      l'.find? (Buf.is dev' b') = none ∧
        ∃ x, l.find? (Buf.is dev' b') = some x ∧ x.refcnt = 0 := by
  obtain ⟨p, x, q, rfl, hx, rfl⟩ := recycle_shape h
  have hfresh : ¬ Buf.is dev' b' (x.recycled dev b) = true := by
    simp only [Buf.recycled, Buf.is_iff]
    omega
  rw [find?_append, find?_append, find?_cons_of_neg hfresh]
  by_cases hxk : Buf.is dev' b' x = true
  · have hq : q.find? (Buf.is dev' b') = none := by
      rw [find?_eq_none]
      intro y hy hyk
      have hpair := (pairwise_cons.mp (pairwise_append.mp hd).2.1).1 y hy
      simp only [Buf.is_iff] at hxk hyk
      exact hpair (by omega) (by omega) (by omega)
    have hp : p.find? (Buf.is dev' b') = none := by
      rw [find?_eq_none]
      intro y hy hyk
      have hpair := (pairwise_append.mp hd).2.2 y hy x (by simp)
      simp only [Buf.is_iff] at hxk hyk
      exact hpair (by omega) (by omega) (by omega)
    right
    rw [hp, hq, find?_cons_of_pos hxk]
    exact ⟨rfl, x, rfl, hx⟩
  · left
    rw [find?_cons_of_neg hxk]

lemma distinct_recycle (hd : Distinct l) (hn : l.find? (Buf.is dev b) = none) : Distinct l' := by
  obtain ⟨p, x, q, rfl, _, rfl⟩ := recycle_shape h
  rw [find?_eq_none] at hn
  obtain ⟨hp, hxq, hpx⟩ := pairwise_append.mp hd
  obtain ⟨_, hq⟩ := pairwise_cons.mp hxq
  refine pairwise_append.mpr ⟨hp, pairwise_cons.mpr ⟨?_, hq⟩, ?_⟩
  · intro y hy _ hdev hb
    exact hn y (by simp [hy]) (by simpa [Buf.recycled] using ⟨hdev, hb⟩)
  · intro y hy z hz
    rcases mem_cons.mp hz with rfl | hz
    · intro _ hdev hb
      exact hn y (by simp [hy]) (by simpa [Buf.recycled] using ⟨hdev.symm, hb.symm⟩)
    · exact hpx y hy z (by simp [hz])

lemma length_recycle : l'.length = l.length := by
  obtain ⟨p, x, q, rfl, _, rfl⟩ := recycle_shape h
  simp

end

lemma distinct_moveToFront (h : Distinct l) : Distinct (moveToFront dev b l) := by
  unfold moveToFront
  split
  next x hx =>
    split
    · refine pairwise_cons.mpr ⟨?_, h.sublist eraseP_sublist⟩
      obtain ⟨hk, p, q, rfl, hp⟩ := find?_eq_some_iff_append.mp hx
      have hpn : ∀ y ∈ p, ¬ Buf.is dev b y = true := by
        intro y hy hyk
        have hpy := hp y hy
        rw [hyk] at hpy
        cases hpy
      rw [eraseP_append_right _ hpn, eraseP_cons_of_pos hk]
      intro y hy hdev hyd hyb
      rcases mem_append.mp hy with hy | hy
      · have hpair := (pairwise_append.mp h).2.2 y hy x (by simp)
        exact hpair (by omega) hyd.symm hyb.symm
      · have hpair := (pairwise_cons.mp (pairwise_append.mp h).2.1).1 y hy
        exact hpair hdev hyd hyb
    · exact h
  next => exact h

lemma length_moveToFront : (moveToFront dev b l).length = l.length := by
  unfold moveToFront
  split
  next x hx =>
    split
    · have hmem := mem_of_find?_eq_some hx
      have hpos := length_pos_of_mem hmem
      rw [length_cons, length_eraseP_of_mem hmem (find?_some hx)]
      omega
    · rfl
  next => rfl

def Kernel.content (k : Kernel) (dev b : ℕ) : Block :=
  match k.buf dev b with
  | some x => if x.valid then x.data else k.disk b
  | none => k.disk b

structure Cache (dev : ℕ) (l : List Buf) : Prop where
  distinct : Distinct l
  size : l.length = nbuf
  only : ∀ x ∈ l, x.dev = dev ∨ x.dev = 0 ∧ x.refcnt = 0

/-- The buffer of block `b`, if there is one, has `r b` references and lock state `lk b`;
a locked buffer is referenced and has been read. -/
structure View (dev : ℕ) (k : Kernel) (r : ℕ → ℕ) (lk : ℕ → Bool) : Prop where
  cache : Cache dev k.bufs
  found : ∀ b x, k.buf dev b = some x → x.refcnt = r b ∧ x.locked = lk b
  absent : ∀ b, k.buf dev b = none → r b = 0 ∧ lk b = false
  valid : ∀ b x, k.buf dev b = some x → lk b = true → x.valid = true
  held : ∀ b, lk b = true → 0 < r b

lemma find_of_mem (hd : Distinct l) {x : Buf} (hx : x ∈ l) (h0 : x.dev ≠ 0) :
    l.find? (Buf.is x.dev x.blockno) = some x := by
  obtain ⟨p, q, rfl⟩ := append_of_mem hx
  rw [find?_append]
  have hp : p.find? (Buf.is x.dev x.blockno) = none := by
    rw [find?_eq_none]
    intro y hy hyk
    have hpair := (pairwise_append.mp hd).2.2 y hy x (by simp)
    rw [Buf.is_iff] at hyk
    exact hpair (by omega) hyk.1.symm hyk.2.symm
  rw [hp, find?_cons_of_pos (by simp)]
  rfl

lemma View.exists_free {r : ℕ → ℕ} {lk : ℕ → Bool} (h : View dev k r lk) (h0 : dev ≠ 0)
    {L : List ℕ} (hL : ∀ b, 0 < r b → b ∈ L) (hlen : L.length < nbuf) :
    ∃ x ∈ k.bufs, x.refcnt = 0 := by
  by_contra hno
  push Not at hno
  have hdev : ∀ x ∈ k.bufs, x.dev = dev := by
    intro x hx
    rcases h.cache.only x hx with hd | ⟨_, hz⟩
    · exact hd
    · exact absurd hz (hno x hx)
  have hsub : k.bufs.map Buf.blockno ⊆ L := by
    intro b hb
    obtain ⟨x, hx, rfl⟩ := mem_map.mp hb
    have hd := hdev x hx
    have hfind := find_of_mem h.cache.distinct hx (by omega)
    rw [hd] at hfind
    have hr := (h.found x.blockno x hfind).1
    have hpos := hno x hx
    exact hL x.blockno (by omega)
  have hnodup : (k.bufs.map Buf.blockno).Nodup := by
    unfold List.Nodup
    rw [pairwise_map]
    have hd := h.cache.distinct
    unfold Distinct at hd
    refine (List.Pairwise.and_mem.mp hd).imp ?_
    rintro x y ⟨hx, hy, hxy⟩ he
    exact hxy (by rw [hdev x hx]; exact h0) (by rw [hdev x hx, hdev y hy]) he.symm
  have hle := (hnodup.subperm hsub).length_le
  rw [length_map, h.cache.size] at hle
  omega

lemma cache_updateBuf {f : Buf → Buf} (h : Cache dev l)
    (hf : ∀ x, (f x).dev = x.dev ∧ (f x).blockno = x.blockno) :
    Cache dev (updateBuf dev b f l) := by
  refine ⟨distinct_updateBuf hf h.distinct, by simp [updateBuf, h.size], ?_⟩
  intro y hy
  obtain ⟨x, hx, rfl⟩ := mem_map.mp hy
  split
  next hxk =>
    rw [Buf.is_iff] at hxk
    exact .inl (by rw [(hf x).1, hxk.1])
  next => exact h.only x hx

lemma cache_moveToFront (h : Cache dev l) : Cache dev (moveToFront dev b l) := by
  refine ⟨distinct_moveToFront h.distinct, by rw [length_moveToFront, h.size], ?_⟩
  intro y hy
  unfold moveToFront at hy
  split at hy
  next x hx =>
    split at hy
    · rcases mem_cons.mp hy with rfl | hy
      · exact h.only _ (mem_of_find?_eq_some hx)
      · exact h.only y (mem_of_mem_eraseP hy)
    · exact h.only y hy
  next => exact h.only y hy

lemma cache_recycle (h : Cache dev l) (hn : l.find? (Buf.is dev b) = none)
    (hr : recycle dev b l = some l') : Cache dev l' := by
  refine ⟨distinct_recycle hr h.distinct hn, by rw [length_recycle hr, h.size], ?_⟩
  obtain ⟨p, x, q, rfl, _, rfl⟩ := recycle_shape hr
  intro y hy
  rcases mem_append.mp hy with hy | hy
  · exact h.only y (by simp [hy])
  · rcases mem_cons.mp hy with rfl | hy
    · exact .inl rfl
    · exact h.only y (by simp [hy])

section update
variable {r : ℕ → ℕ} {lk : ℕ → Bool} {f : Buf → Buf}

section
variable (hf : ∀ x, (f x).dev = x.dev ∧ (f x).blockno = x.blockno)
include hf

lemma buf_update :
    (k.update dev b f).buf dev b = (k.buf dev b).map f := find_updateBuf hf

lemma buf_update_of_ne (hne : b' ≠ b) : (k.update dev b f).buf dev b' = k.buf dev b' :=
  find_updateBuf_of_ne hf (.inr hne)

lemma content_update_of_ne (hne : b' ≠ b) :
    (k.update dev b f).content dev b' = k.content dev b' := by
  unfold Kernel.content
  rw [buf_update_of_ne hf hne]
  rfl

end

/-- The view after a step that concerns block `b`: other blocks keep their buffers, except
that one nobody refers to may lose its own. -/
lemma View.of_buf {k' : Kernel} {y : Buf} (h : View dev k r lk) (hc : Cache dev k'.bufs)
    (hy : k'.buf dev b = some y) (hv : y.locked = true → y.valid = true ∧ 0 < y.refcnt)
    (ho : ∀ b', b' ≠ b → k'.buf dev b' = k.buf dev b' ∨
      k'.buf dev b' = none ∧ ∃ x, k.buf dev b' = some x ∧ x.refcnt = 0) :
    View dev k' (Function.update r b y.refcnt) (Function.update lk b y.locked) := by
  refine ⟨hc, ?_, ?_, ?_, ?_⟩
  · intro b' z hz
    by_cases hne : b' = b
    · subst hne
      rw [hy] at hz
      cases hz
      simp
    · rcases ho b' hne with he | ⟨he, _⟩
      · rw [he] at hz
        simpa [hne] using h.found b' z hz
      · rw [he] at hz
        cases hz
  · intro b' hz
    have hne : b' ≠ b := by
      rintro rfl
      rw [hy] at hz
      cases hz
    rw [update_of_ne hne, update_of_ne hne]
    rcases ho b' hne with he | ⟨_, x, hx, h0⟩
    · rw [he] at hz
      exact h.absent b' hz
    · have hr : r b' = 0 := by rw [← (h.found b' x hx).1, h0]
      refine ⟨hr, ?_⟩
      by_contra hl
      have hpos := h.held b' (by simpa using hl)
      omega
  · intro b' z hz hl
    by_cases hne : b' = b
    · subst hne
      rw [hy] at hz
      cases hz
      exact (hv (by simpa using hl)).1
    · rcases ho b' hne with he | ⟨he, _⟩
      · rw [he] at hz
        exact h.valid b' z hz (by simpa [hne] using hl)
      · rw [he] at hz
        cases hz
  · intro b' hl
    by_cases hne : b' = b
    · subst hne
      simpa using (hv (by simpa using hl)).2
    · rw [update_of_ne hne] at hl ⊢
      exact h.held b' hl

lemma View.update (h : View dev k r lk)
    (hf : ∀ x, (f x).dev = x.dev ∧ (f x).blockno = x.blockno) {x : Buf}
    (hx : k.buf dev b = some x)
    (hv : (f x).locked = true → (f x).valid = true ∧ 0 < (f x).refcnt) :
    View dev (k.update dev b f) (Function.update r b (f x).refcnt)
      (Function.update lk b (f x).locked) := by
  refine h.of_buf (cache_updateBuf h.cache hf) ?_ hv ?_
  · rw [buf_update hf, hx]
    rfl
  · intro b' hne
    exact .inl (buf_update_of_ne hf hne)

theorem View.exists_buf (h : View dev k r lk) (hb : lk b = true ∨ 0 < r b) :
    ∃ x, k.buf dev b = some x := by
  cases hx : k.buf dev b with
  | some x => exact ⟨x, rfl⟩
  | none =>
    have ha := h.absent b hx
    rcases hb with hb | hb
    · rw [ha.2] at hb
      cases hb
    · omega

end update

section specs
variable {r : ℕ → ℕ} {lk : ℕ → Bool} {E : Stop → Kernel → Prop}

structure SameDisk (k k' : Kernel) : Prop where
  disk : k'.disk = k.disk
  writes : k'.writes = k.writes
  log : k'.log = k.log

def Keeps (dev : ℕ) (r : ℕ → ℕ) (k k' : Kernel) : Prop :=
  ∀ b, k'.content dev b = k.content dev b ∨ r b = 0 ∧ k'.content dev b = k.disk b

lemma Keeps.of_eq {k' : Kernel} (h : ∀ b, k'.content dev b = k.content dev b) :
    Keeps dev r k k' := fun b => .inl (h b)

section
variable (d : ℕ → Block) (x : Buf)
include d x

lemma fill_key : (fill d x).dev = x.dev ∧ (fill d x).blockno = x.blockno := by
  unfold fill
  split <;> exact ⟨rfl, rfl⟩

lemma fill_valid : (fill d x).valid = true := by
  unfold fill
  split
  · assumption
  · rfl

lemma fill_use : (fill d x).refcnt = x.refcnt ∧ (fill d x).locked = x.locked := by
  unfold fill
  split <;> exact ⟨rfl, rfl⟩

end

theorem blockno_of_buf {x : Buf} (h : k.buf dev b = some x) : x.blockno = b := by
  have hk := find?_some h
  rw [Buf.is_iff] at hk
  exact hk.2

lemma content_fill {x : Buf} (h : k.buf dev b = some x) :
    (k.update dev b (fill k.disk)).content dev b = k.content dev b := by
  have hb := blockno_of_buf h
  unfold Kernel.content
  rw [buf_update (fill_key k.disk), h]
  by_cases hv : x.valid = true
  · simp [fill, hv]
  · simp [fill, hv, hb]

def hold (x : Buf) : Buf := { x with refcnt := x.refcnt + 1, locked := true }

lemma hold_key (x : Buf) : (hold x).dev = x.dev ∧ (hold x).blockno = x.blockno := ⟨rfl, rfl⟩

lemma content_hold {x : Buf} (h : k.buf dev b = some x) :
    (k.update dev b hold).content dev b = k.content dev b := by
  unfold Kernel.content
  rw [buf_update hold_key, h]
  rfl

section
variable (h : View dev k r lk)
include h

theorem bread_cached {x : Buf} (hx : k.buf dev b = some x) (hl : lk b = false) :
    wp (bread dev b) (fun _ k' =>
      View dev k' (Function.update r b (r b + 1)) (Function.update lk b true) ∧
      SameDisk k k' ∧ Keeps dev r k k' ∧ k'.content dev b = k.content dev b) E k := by
  obtain ⟨hxr, hxl⟩ := h.found b x hx
  have hxl' : x.locked = false := by rw [hxl, hl]
  have h1 : (k.update dev b hold).buf dev b = some (hold x) := by
    rw [buf_update hold_key, hx]
    rfl
  have hcont : ∀ b', ((k.update dev b hold).update dev b (fill k.disk)).content dev b' =
      k.content dev b' := by
    intro b'
    by_cases hne : b' = b
    · subst hne
      have hfill := content_fill (k := k.update dev b' hold) h1
      exact hfill.trans (content_hold hx)
    · rw [content_update_of_ne (fill_key k.disk) hne, content_update_of_ne hold_key hne]
  have hview : View dev ((k.update dev b hold).update dev b (fill k.disk))
      (Function.update r b (r b + 1)) (Function.update lk b true) := by
    have huse := fill_use k.disk (hold x)
    have hr : (fill k.disk (hold x)).refcnt = r b + 1 := by rw [huse.1, ← hxr]; rfl
    have hlk : (fill k.disk (hold x)).locked = true := by rw [huse.2]; rfl
    rw [← hr, ← hlk]
    refine h.of_buf (cache_updateBuf (cache_updateBuf h.cache hold_key) (fill_key k.disk)) ?_ ?_ ?_
    · rw [buf_update (fill_key k.disk), h1]
      rfl
    · intro _
      exact ⟨fill_valid _ _, by omega⟩
    · intro b' hne
      rw [buf_update_of_ne (fill_key k.disk) hne, buf_update_of_ne hold_key hne]
      exact .inl rfl
  unfold bread bget
  refine wp_bind (wp_bind (wp_get ?_))
  rw [hx]
  simp only [hxl', Bool.false_eq_true, if_false]
  refine wp_modify (wp_modify ?_)
  exact ⟨hview, ⟨rfl, rfl, rfl⟩, Keeps.of_eq hcont, hcont b⟩

theorem bread_uncached (hdev : dev ≠ 0) (hx : k.buf dev b = none)
    (hfree : ∃ x ∈ k.bufs, x.refcnt = 0) :
    wp (bread dev b) (fun _ k' =>
      View dev k' (Function.update r b (r b + 1)) (Function.update lk b true) ∧
      SameDisk k k' ∧ Keeps dev r k k' ∧ k'.content dev b = k.content dev b) E k := by
  obtain ⟨l, hl⟩ : ∃ l, recycle dev b k.bufs = some l := recycle_isSome hfree
  obtain ⟨x, _, hfind⟩ := find_recycle hl hx
  have hr0 := (h.absent b hx).1
  have h1 : (k.setBufs l).buf dev b = some (x.recycled dev b) := hfind
  have hother : ∀ b', b' ≠ b → ((k.setBufs l).update dev b (fill k.disk)).buf dev b' =
      k.buf dev b' ∨ ((k.setBufs l).update dev b (fill k.disk)).buf dev b' = none ∧
        ∃ y, k.buf dev b' = some y ∧ y.refcnt = 0 := by
    intro b' hne
    rw [buf_update_of_ne (fill_key k.disk) hne]
    exact find_recycle_of_ne hl h.cache.distinct hdev (.inr hne)
  have hbuf : ((k.setBufs l).update dev b (fill k.disk)).buf dev b =
      some (fill k.disk (x.recycled dev b)) := by
    rw [buf_update (fill_key k.disk), h1]
    rfl
  have hhere : ((k.setBufs l).update dev b (fill k.disk)).content dev b = k.content dev b := by
    have hfill := content_fill (k := k.setBufs l) h1
    refine hfill.trans ?_
    unfold Kernel.content
    rw [h1, hx]
    rfl
  have hkeep : Keeps dev r k ((k.setBufs l).update dev b (fill k.disk)) := by
    intro b'
    by_cases hne : b' = b
    · subst hne
      exact .inl hhere
    · unfold Kernel.content
      rcases hother b' hne with he | ⟨he, y, hy, h0⟩
      · rw [he]
        exact .inl rfl
      · rw [he]
        exact .inr ⟨by rw [← (h.found b' y hy).1, h0], rfl⟩
  have hview : View dev ((k.setBufs l).update dev b (fill k.disk))
      (Function.update r b (r b + 1)) (Function.update lk b true) := by
    have huse := fill_use k.disk (x.recycled dev b)
    have hr : (fill k.disk (x.recycled dev b)).refcnt = r b + 1 := by rw [huse.1, hr0]; rfl
    have hlk : (fill k.disk (x.recycled dev b)).locked = true := by rw [huse.2]; rfl
    rw [← hr, ← hlk]
    refine h.of_buf (cache_updateBuf (cache_recycle h.cache hx hl) (fill_key k.disk)) hbuf ?_ hother
    intro _
    exact ⟨fill_valid _ _, by omega⟩
  unfold bread bget
  refine wp_bind (wp_bind (wp_get ?_))
  rw [hx]
  simp only [hl]
  refine wp_modify (wp_modify ?_)
  exact ⟨hview, ⟨rfl, rfl, rfl⟩, hkeep, hhere⟩

/-- `bread` of an unlocked block, when the block is cached or a buffer is free. -/
theorem bread_spec (hdev : dev ≠ 0) (hl : lk b = false) {L : List ℕ} (hL : ∀ b', 0 < r b' → b' ∈ L)
    (hlen : 0 < r b ∨ L.length < nbuf) :
    wp (bread dev b) (fun _ k' =>
      View dev k' (Function.update r b (r b + 1)) (Function.update lk b true) ∧
      SameDisk k k' ∧ Keeps dev r k k' ∧ k'.content dev b = k.content dev b) E k := by
  cases hx : k.buf dev b with
  | some x => exact bread_cached h hx hl
  | none =>
    rcases hlen with hr | hlen
    · obtain ⟨y, hy⟩ := h.exists_buf (.inr hr)
      rw [hx] at hy
      cases hy
    · exact bread_uncached h hdev hx (h.exists_free hdev hL hlen)

lemma bdata_eq (hl : lk b = true) :
    ((k.buf dev b).map Buf.data).getD (fun _ => 0) = k.content dev b := by
  obtain ⟨x, hx⟩ := h.exists_buf (.inl hl)
  unfold Kernel.content
  rw [hx]
  simp [h.valid b x hx hl]

theorem bdata_spec (hl : lk b = true) {Q : Block → Kernel → Prop} (hQ : Q (k.content dev b) k) :
    wp (bdata dev b) Q E k := by
  unfold bdata
  refine wp_bind (wp_get (wp_pure ?_))
  rw [bdata_eq h hl]
  exact hQ

theorem setData_spec (hl : lk b = true) (d : Block) :
    wp (setData dev b d) (fun _ k' => View dev k' r lk ∧ SameDisk k k' ∧
      k'.content dev b = d ∧ ∀ b', b' ≠ b → k'.content dev b' = k.content dev b') E k := by
  obtain ⟨x, hx⟩ := h.exists_buf (.inl hl)
  obtain ⟨hxr, hxl⟩ := h.found b x hx
  let f : Buf → Buf := fun x => { x with data := d }
  have hf : ∀ x, (f x).dev = x.dev ∧ (f x).blockno = x.blockno := fun _ => ⟨rfl, rfl⟩
  have hv := h.valid b x hx hl
  have hview := h.update hf hx fun _ => ⟨hv, by
    have hpos := h.held b hl
    change 0 < x.refcnt
    omega⟩
  have e1 : Function.update r b (f x).refcnt = r := by
    rw [show (f x).refcnt = r b from hxr]
    exact update_eq_self b r
  have e2 : Function.update lk b (f x).locked = lk := by
    rw [show (f x).locked = lk b from hxl]
    exact update_eq_self b lk
  rw [e1, e2] at hview
  refine wp_modify ⟨hview, ⟨rfl, rfl, rfl⟩, ?_, ?_⟩
  · unfold Kernel.content
    rw [buf_update hf, hx]
    simp [f, hv]
  · intro b' hne
    exact content_update_of_ne hf hne

lemma holdingsleep_of_locked (hl : lk b = true) : holdingsleep k dev b = true := by
  obtain ⟨x, hx⟩ := h.exists_buf (.inl hl)
  simp [holdingsleep, hx, (h.found b x hx).2, hl]

/-- `bwrite` puts the contents of the buffer on the disk; nobody reads anything else for it. -/
theorem bwrite_spec (hl : lk b = true) :
    wp (bwrite dev b) (fun _ k' => View dev k' r lk ∧ k'.log = k.log ∧
      k'.disk = Function.update k.disk b (k.content dev b) ∧
      k'.writes = k.writes ++ [(b, k.content dev b)] ∧
      ∀ b', k'.content dev b' = k.content dev b') E k := by
  unfold bwrite
  refine wp_bind (wp_get ?_)
  rw [if_pos (holdingsleep_of_locked h hl)]
  refine wp_bind (bdata_spec h hl (wp_modify ?_))
  refine ⟨⟨h.cache, h.found, h.absent, h.valid, h.held⟩, rfl, rfl, rfl, ?_⟩
  intro b'
  by_cases hne : b' = b
  · subst hne
    obtain ⟨x, hx⟩ := h.exists_buf (.inl hl)
    unfold Kernel.content
    simp only [Kernel.buf] at hx ⊢
    rw [hx]
    simp [h.valid b' x hx hl]
  · unfold Kernel.content
    simp only [Kernel.buf, update_of_ne hne]

end

def drop (x : Buf) : Buf := { x with locked := false, refcnt := x.refcnt - 1 }

lemma drop_key (x : Buf) : (drop x).dev = x.dev ∧ (drop x).blockno = x.blockno := ⟨rfl, rfl⟩

lemma content_congr {k' : Kernel} (hb : k'.buf dev b = k.buf dev b)
    (hd : k'.disk = k.disk) : k'.content dev b = k.content dev b := by
  unfold Kernel.content
  rw [hb, hd]

section
variable (h : View dev k r lk) (hl : lk b = true)
include h hl

theorem brelse_spec :
    wp (brelse dev b) (fun _ k' =>
      View dev k' (Function.update r b (r b - 1)) (Function.update lk b false) ∧
      SameDisk k k' ∧ ∀ b', k'.content dev b' = k.content dev b') E k := by
  obtain ⟨x, hx⟩ := h.exists_buf (.inl hl)
  obtain ⟨hxr, _⟩ := h.found b x hx
  have hmove : ∀ b', ((k.update dev b drop).setBufs
      (moveToFront dev b (k.update dev b drop).bufs)).buf dev b' =
      (k.update dev b drop).buf dev b' := by
    intro b'
    by_cases hne : b' = b
    · subst hne
      exact find_moveToFront
    · exact find_moveToFront_of_ne (.inr hne)
  have hview := h.update drop_key hx fun hd => by cases hd
  rw [show (drop x).refcnt = r b - 1 by rw [← hxr]; rfl,
    show (drop x).locked = false from rfl] at hview
  unfold brelse
  refine wp_bind (wp_get ?_)
  rw [if_pos (holdingsleep_of_locked h hl)]
  refine wp_bind (wp_modify (wp_modify ⟨?_, ⟨rfl, rfl, rfl⟩, ?_⟩))
  · refine ⟨cache_moveToFront hview.cache, ?_, ?_, ?_, hview.held⟩
    · intro b' y hy
      exact hview.found b' y ((hmove b').symm.trans hy)
    · intro b' hy
      exact hview.absent b' ((hmove b').symm.trans hy)
    · intro b' y hy hlk
      exact hview.valid b' y ((hmove b').symm.trans hy) hlk
  · intro b'
    refine (content_congr (hmove b') rfl).trans ?_
    by_cases hne : b' = b
    · subst hne
      unfold Kernel.content
      rw [buf_update drop_key, hx]
      rfl
    · exact content_update_of_ne drop_key hne

lemma setRefs_spec {n : ℕ → ℕ} (hn : 0 < n (r b)) :
    wp (modify fun k => k.update dev b fun x => { x with refcnt := n x.refcnt } : K PUnit)
      (fun _ k' => View dev k' (Function.update r b (n (r b))) lk ∧ SameDisk k k' ∧
        ∀ b', k'.content dev b' = k.content dev b') E k := by
  obtain ⟨x, hx⟩ := h.exists_buf (.inl hl)
  obtain ⟨hxr, hxl⟩ := h.found b x hx
  let f : Buf → Buf := fun x => { x with refcnt := n x.refcnt }
  have hf : ∀ x, (f x).dev = x.dev ∧ (f x).blockno = x.blockno := fun _ => ⟨rfl, rfl⟩
  have hfr : (f x).refcnt = n (r b) := by rw [← hxr]
  have hview := h.update hf hx fun _ => ⟨h.valid b x hx hl, by rw [hfr]; exact hn⟩
  rw [hfr, show Function.update lk b (f x).locked = lk by
    rw [show (f x).locked = lk b from hxl]
    exact update_eq_self b lk] at hview
  refine wp_modify ⟨hview, ⟨rfl, rfl, rfl⟩, ?_⟩
  intro b'
  by_cases hne : b' = b
  · subst hne
    unfold Kernel.content
    rw [buf_update hf, hx]
    rfl
  · exact content_update_of_ne hf hne

theorem bpin_spec :
    wp (bpin dev b) (fun _ k' => View dev k' (Function.update r b (r b + 1)) lk ∧
      SameDisk k k' ∧ ∀ b', k'.content dev b' = k.content dev b') E k :=
  setRefs_spec (n := fun c => c + 1) h hl (Nat.succ_pos _)

theorem bunpin_spec (h2 : 2 ≤ r b) :
    wp (bunpin dev b) (fun _ k' => View dev k' (Function.update r b (r b - 1)) lk ∧
      SameDisk k k' ∧ ∀ b', k'.content dev b' = k.content dev b') E k :=
  setRefs_spec (n := fun c => c - 1) h hl (by omega)

end

end specs

end Xv6
