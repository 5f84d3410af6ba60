import Xv6.CrashRecovery
import Xv6.Layout

/-! The cache and the log as a store of blocks. `c` gives the contents of every block; the
blocks of `loose` were changed in the cache without `log_write` and may go back to what is on
the disk when nobody holds them. -/
namespace Xv6

open Program Function

variable {sb : Superblock} {c : ℕ → Block} {loose : Set ℕ} {held : Finset ℕ} {k : Kernel}
  {b : ℕ}

/-- A panic for want of something that is used up: buffers, log space, or a transaction. -/
def Spent (e : Stop) (k : Kernel) : Prop :=
  e = .panic .bgetNoBuffers ∧ (∀ x ∈ k.bufs, x.refcnt ≠ 0) ∨
    e = .panic .tooBigTransaction ∧ (logSize ≤ k.log.n ∨ (k.log.size : ℤ) - 1 ≤ k.log.n) ∨
    e = .panic .logWriteOutsideOfTrans ∧ k.log.outstanding < 1

def stops {σ : Type} (ok : Stop → Prop) (e : Stop) (_ : σ) : Prop := ok e

def refs (lh : List ℕ) (held : Finset ℕ) (b : ℕ) : ℕ := pins lh b + if b ∈ held then 1 else 0

structure Cached (c : ℕ → Block) (loose : Set ℕ) (held : Finset ℕ) (k : Kernel) : Prop where
  dev : k.log.dev = rootDev
  view : View rootDev k (refs k.log.lh held) fun b => decide (b ∈ held)
  agree : ∀ b, b ∉ loose ∨ b ∈ held → k.content rootDev b = c b
  clean : ∀ b, b ∉ loose → b ∉ k.log.lh → k.disk b = c b

structure Store (sb : Superblock) (c : ℕ → Block) (loose : Set ℕ) (held : Finset ℕ)
    (k : Kernel) : Prop where
  log : LogOk k.log
  dev : k.log.dev = rootDev
  area : k.log.start = sb.logstart ∧ k.log.size = sb.nlog
  view : View rootDev k (refs k.log.lh held) fun b => decide (b ∈ held)
  agree : ∀ b, b ∉ loose ∨ b ∈ held → k.content rootDev b = c b
  clean : ∀ b, b ∉ loose → b ∉ k.log.lh → k.disk b = c b

def Superblock.Home (sb : Superblock) (b : ℕ) : Prop := b < sb.logstart ∨ sb.logstart + sb.nlog ≤ b

def Log.Room (log : Log) (m : ℕ) : Prop :=
  log.n + m ≤ logSize ∧ log.n + m < log.size ∧ 1 ≤ log.outstanding

lemma Log.Room.logWrite {log log' : Log} {m : ℕ} (h : log.Room (m + 1))
    (hw : log.logWrite b = .ok log') : log'.Room m := by
  obtain ⟨-, -, -, rfl⟩ := Log.logWrite_ok hw
  obtain ⟨h1, h2, h3⟩ := h
  have hlen := Log.absorb_length log.lh b
  have hle : (if b ∈ log.lh then 0 else 1) ≤ 1 := by
    split_ifs <;> omega
  unfold Log.n at h1 h2
  refine ⟨?_, ?_, h3⟩
  · simp only [Log.n]
    omega
  · simp only [Log.n]
    omega

section cached
variable {E : Stop → Kernel → Prop}

section
variable (h : Cached c loose held k)
include h

theorem Cached.bread (hb : b ∉ held) (hE : (∀ e k, Spent e k → E e k) ∨ k.log.n + held.card < nbuf)
    :
    wp (bread rootDev b) (fun _ k' => k'.log = k.log ∧ ∃ d, (b ∉ loose → d = c b) ∧
      Cached (update c b d) loose (insert b held) k') E k := by
  have hl : decide (b ∈ held) = false := by simp [hb]
  refine wp_mono (bread_any h.view (by decide) hl) ?_ ?_
  · rintro _ k' ⟨v, s, hkeep, hc⟩
    refine ⟨s.log, k.content rootDev b, fun hn => h.agree b (.inl hn), ?_⟩
    have hrefs : update (refs k.log.lh held) b (refs k.log.lh held b + 1) =
        refs k.log.lh (insert b held) := by
      funext x
      by_cases hx : x = b
      · subst hx
        simp [refs, hb]
      · simp [refs, hx]
    have hlock : update (fun b => decide (b ∈ held)) b true =
        fun x => decide (x ∈ insert b held) := by
      funext x
      by_cases hx : x = b
      · simp [hx]
      · simp [hx]
    rw [hrefs, hlock] at v
    refine ⟨by rw [s.log]; exact h.dev, by rw [s.log]; exact v, ?_, ?_⟩
    · intro x hx
      by_cases hxb : x = b
      · rw [hxb, update_self, hc]
      · rw [update_of_ne hxb]
        have hx' : x ∉ loose ∨ x ∈ held := hx.imp_right fun hm =>
          (Finset.mem_insert.mp hm).resolve_left hxb
        rcases hkeep x with he | ⟨hr, he⟩
        · rw [he, h.agree x hx']
        · have hlh : x ∉ k.log.lh := by
            intro hm
            simp [refs, pins, hm] at hr
          have hnh : x ∉ held := by
            intro hm
            simp [refs, hm] at hr
          rw [he, h.clean x (hx'.resolve_right hnh) hlh]
    · intro x hx hlh
      rw [s.log] at hlh
      rw [s.disk]
      by_cases hxb : x = b
      · subst hxb
        rw [update_self, h.agree x (.inl hx), h.clean x hx hlh]
      · rw [update_of_ne hxb, h.clean x hx hlh]
  · rintro e k' ⟨rfl, rfl, hbufs⟩
    rcases hE with hE | hroom
    · exact hE _ _ (.inl ⟨rfl, hbufs⟩)
    · -- every buffer in use is pinned by the log or held
      have hL : ∀ x, 0 < refs k'.log.lh held x → x ∈ k'.log.lh ++ held.toList := by
        intro x hx
        by_contra hno
        simp only [List.mem_append, Finset.mem_toList, not_or] at hno
        simp [refs, pins, hno] at hx
      have hlen : (k'.log.lh ++ held.toList).length < nbuf := by simpa [Log.n] using hroom
      obtain ⟨x, hx, h0⟩ := h.view.exists_free (by decide) hL hlen
      exact absurd h0 (hbufs x hx)

theorem Cached.bread_sure (hb : b ∉ held) (hl : b ∉ loose)
    (hE : (∀ e k, Spent e k → E e k) ∨ k.log.n + held.card < nbuf) :
    wp (Xv6.bread rootDev b) (fun _ k' => k'.log = k.log ∧ Cached c loose (insert b held) k')
      E k := by
  refine wp_post (h.bread hb hE) ?_
  rintro _ k' ⟨hlog, d, hd, hs⟩
  rw [hd hl, update_eq_self] at hs
  exact ⟨hlog, hs⟩

theorem Cached.bdata (hb : b ∈ held) {Q : Block → Kernel → Prop} (hQ : Q (c b) k) :
    wp (bdata rootDev b) Q E k := by
  refine bdata_spec h.view (by simp [hb]) ?_
  rw [h.agree b (.inr hb)]
  exact hQ

lemma Cached.setData (hb : b ∈ held) (d : Block) :
    wp (setData rootDev b d) (fun _ k' => k'.log = k.log ∧
      Cached (update c b d) (insert b loose) held k') E k := by
  refine wp_post (setData_spec h.view (by simp [hb]) d) ?_
  rintro _ k' ⟨v, s, hc, hother⟩
  refine ⟨s.log, by rw [s.log]; exact h.dev, by rw [s.log]; exact v, ?_, ?_⟩
  · intro x hx
    by_cases hxb : x = b
    · rw [hxb, update_self, hc]
    · rw [update_of_ne hxb, hother x hxb]
      refine h.agree x (hx.imp_left ?_)
      intro hm hl
      exact hm (Set.mem_insert_of_mem b hl)
  · intro x hx hlh
    have hxb : x ≠ b := by
      rintro rfl
      exact hx (Set.mem_insert x loose)
    rw [s.log] at hlh
    rw [update_of_ne hxb, s.disk]
    exact h.clean x (fun hl => hx (Set.mem_insert_of_mem b hl)) hlh

lemma Cached.logWrite (hb : b ∈ held) (hE : (∀ e k, Spent e k → E e k) ∨ k.log.Room 1) :
    wp (logWrite b) (fun _ k' => k.log.logWrite b = .ok k'.log ∧ Cached c (loose \ {b}) held k')
      E k := by
  have hview := h.view
  have hdev := h.dev
  rw [← hdev] at hview
  refine wp_mono (logWrite_spec hview (by simp [hb])) ?_ ?_
  · rintro _ k' ⟨v, hd, _, hlog, hc⟩
    obtain ⟨_, _, _, hl'⟩ := Log.logWrite_ok hlog
    have hlh : k'.log.lh = Log.absorb k.log.lh b := by rw [hl']
    have hrefs : update (refs k.log.lh held) b
        (if b ∈ k.log.lh then refs k.log.lh held b else refs k.log.lh held b + 1) =
        refs k'.log.lh held := by
      funext x
      rw [hlh]
      by_cases hx : x = b
      · subst hx
        by_cases hm : x ∈ k.log.lh
        · simp [refs, pins, hm]
        · simp [refs, pins, hm, hb]
      · by_cases hm : x ∈ k.log.lh
        · simp [refs, pins, hx]
        · simp [refs, pins, hx]
    rw [hrefs, hdev] at v
    rw [hdev] at hc
    refine ⟨hlog, by rw [hl']; exact hdev, v, ?_, ?_⟩
    · intro x hx
      rw [hc]
      by_cases hxb : x = b
      · exact h.agree x (.inr (hxb ▸ hb))
      · exact h.agree x (hx.imp_left fun hm hl => hm ⟨hl, hxb⟩)
    · intro x hx hlx
      rw [hlh, Log.mem_absorb, not_or] at hlx
      rw [hd]
      exact h.clean x (fun hl => hx ⟨hl, hlx.2⟩) hlx.1
  · rintro e k' ⟨p, rfl, rfl, hp⟩
    unfold Log.logWrite at hp
    split_ifs at hp with h1 h2
    · cases hp
      refine hE.elim (fun hE => hE _ _ (.inr (.inl ⟨rfl, h1⟩))) fun hr => ?_
      obtain ⟨hr1, hr2, -⟩ := hr
      omega
    · cases hp
      refine hE.elim (fun hE => hE _ _ (.inr (.inr ⟨rfl, h2⟩))) fun hr => ?_
      obtain ⟨-, -, hr3⟩ := hr
      omega

end

section
variable (h : Cached c loose (insert b held) k) (hb : b ∉ held)
include h hb

lemma Cached.release :
    wp (brelse rootDev b) (fun _ k' => k'.log = k.log ∧ Cached c loose held k') E k := by
  refine wp_post (brelse_spec h.view (by simp)) ?_
  rintro _ k' ⟨v, s, hc⟩
  have hrefs : update (refs k.log.lh (insert b held)) b (refs k.log.lh (insert b held) b - 1) =
      refs k.log.lh held := by
    funext x
    by_cases hx : x = b
    · subst hx
      simp [refs, hb]
    · simp [refs, hx]
  have hlock : update (fun x => decide (x ∈ insert b held)) b false =
      fun x => decide (x ∈ held) := by
    funext x
    by_cases hx : x = b
    · simp [hx, hb]
    · simp [hx]
  rw [hrefs, hlock] at v
  refine ⟨s.log, by rw [s.log]; exact h.dev, by rw [s.log]; exact v, ?_, ?_⟩
  · intro x hx
    rw [hc]
    exact h.agree x (hx.imp_right fun hm => Finset.mem_insert_of_mem hm)
  · intro x hx hlh
    rw [s.log] at hlh
    rw [s.disk]
    exact h.clean x hx hlh

theorem Cached.putLogged {d : Block} (hE : (∀ e k, Spent e k → E e k) ∨ k.log.Room 1) :
    wp (do Xv6.setData rootDev b d; Xv6.logWrite b; brelse rootDev b) (fun _ k' =>
      k.log.logWrite b = .ok k'.log ∧ Cached (update c b d) (loose \ {b}) held k') E k := by
  have hin := Finset.mem_insert_self b held
  refine wp_seq (h.setData hin d) ?_
  rintro _ k1 ⟨hlog, h1⟩
  rw [← hlog] at hE ⊢
  refine wp_seq (h1.logWrite hin hE) ?_
  rintro _ k2 ⟨hw, h2⟩
  rw [Set.insert_sdiff_of_mem _ (Set.mem_singleton b)] at h2
  refine wp_post (h2.release hb) ?_
  rintro _ k3 ⟨hlog3, h3⟩
  exact ⟨by rw [hlog3]; exact hw, h3⟩

end

end cached

section store
variable {c' : ℕ → Block} {loose' : Set ℕ} {held' : Finset ℕ} {k' : Kernel}

def Superblock.Logs (sb : Superblock) (log : Log) : Prop :=
  LogOk log ∧ log.start = sb.logstart ∧ log.size = sb.nlog

lemma Superblock.Logs.logWrite {log log' : Log} (h : sb.Logs log) (hh : sb.Home b)
    (hu : b < 2 ^ 32) (hw : log.logWrite b = .ok log') : sb.Logs log' := by
  obtain ⟨hok, hstart, hsize⟩ := h
  have hhome : Xv6.Home log b := by
    unfold Xv6.Home
    rw [hstart, hsize]
    exact hh
  refine ⟨hok.logWrite hhome hu hw, ?_⟩
  obtain ⟨-, -, -, rfl⟩ := Log.logWrite_ok hw
  exact ⟨hstart, hsize⟩

theorem Store.cached (h : Store sb c loose held k) : Cached c loose held k :=
  ⟨h.dev, h.view, h.agree, h.clean⟩

theorem Store.logs (h : Store sb c loose held k) : sb.Logs k.log := ⟨h.log, h.area⟩

theorem Cached.store (h : Cached c loose held k) (hl : sb.Logs k.log) : Store sb c loose held k :=
  ⟨hl.1, h.dev, hl.2, h.view, h.agree, h.clean⟩

section
variable (h : Store sb c loose held k)
include h

lemma Store.of_cached (hlog : k'.log = k.log) (h' : Cached c' loose' held' k') :
    Store sb c' loose' held' k' :=
  h'.store (by rw [hlog]; exact h.logs)

theorem Store.bread (hb : b ∉ held) :
    wp (bread rootDev b) (fun _ k' => k'.log = k.log ∧ ∃ d, (b ∉ loose → d = c b) ∧
      Store sb (update c b d) loose (insert b held) k') Spent k := by
  refine wp_post (h.cached.bread hb (.inl fun _ _ he => he)) ?_
  rintro _ k' ⟨hlog, d, hd, h'⟩
  exact ⟨hlog, d, hd, h.of_cached hlog h'⟩

theorem Store.bread_sure (hb : b ∉ held) (hl : b ∉ loose)
    :
    wp (Xv6.bread rootDev b) (fun _ k' => k'.log = k.log ∧ Store sb c loose (insert b held) k')
      Spent k := by
  refine wp_post (h.cached.bread_sure hb hl (.inl fun _ _ he => he)) ?_
  rintro _ k' ⟨hlog, h'⟩
  exact ⟨hlog, h.of_cached hlog h'⟩

end

variable {E : Stop → Kernel → Prop}

section
variable (h : Store sb c loose held k) (hb : b ∈ held)
include h hb

theorem Store.bdata {Q : Block → Kernel → Prop} (hQ : Q (c b) k) : wp (bdata rootDev b) Q E k :=
  h.cached.bdata hb hQ

theorem Store.setData (d : Block) :
    wp (setData rootDev b d) (fun _ k' => k'.log = k.log ∧
      Store sb (update c b d) (insert b loose) held k') E k := by
  refine wp_post (h.cached.setData hb d) ?_
  rintro _ k' ⟨hlog, h'⟩
  exact ⟨hlog, h.of_cached hlog h'⟩

theorem Store.logWrite (hh : sb.Home b) (hu : b < 2 ^ 32) :
    wp (logWrite b) (fun _ k' => Store sb c (loose \ {b}) held k') Spent k := by
  refine wp_post (h.cached.logWrite hb (.inl fun _ _ he => he)) ?_
  rintro _ k' ⟨hw, h'⟩
  exact h'.store (h.logs.logWrite hh hu hw)

theorem Store.setLogged {β : Type} {f : K β} {Q : β → Kernel → Prop} {d : Block} (hh : sb.Home b)
    (hu : b < 2 ^ 32) (hf : ∀ k', Store sb (update c b d) (loose \ {b}) held k' → wp f Q Spent k') :
    wp (do Xv6.setData rootDev b d; Xv6.logWrite b; f) Q Spent k := by
  refine wp_seq (h.setData hb d) ?_
  rintro _ k1 ⟨_, h1⟩
  refine wp_seq (h1.logWrite hb hh hu) ?_
  intro _ k2 h2
  rw [Set.insert_sdiff_of_mem _ (Set.mem_singleton b)] at h2
  exact hf k2 h2

end

theorem Store.release (h : Store sb c loose (insert b held) k) (hb : b ∉ held) :
    wp (Xv6.brelse rootDev b) (fun _ k' => k'.log = k.log ∧ Store sb c loose held k') E k := by
  refine wp_post (h.cached.release hb) ?_
  rintro _ k' ⟨hlog, h'⟩
  exact ⟨hlog, h.of_cached hlog h'⟩

end store

end Xv6
