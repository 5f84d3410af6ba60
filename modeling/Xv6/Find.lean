import Xv6.Layout
import Xv6.Shell

/-! `find`, `user/find.c`, on the directory tree below its start. -/
namespace Xv6.Find

open List

open Shell (ch)

mutual

inductive Tree
  | file
  | device
  | dir (es : Entries)

inductive Entries
  | nil
  /-- A free entry, or `.` or `..`: those that the first test passes over. -/
  | skipped (rest : Entries)
  | entry (name : List Byte) (t : Tree) (rest : Entries)

end

inductive Kind
  | file
  | device
  | dir
  deriving DecidableEq, Repr

def Tree.kind : Tree → Kind
  | .file => .file
  | .device => .device
  | .dir _ => .dir

inductive Line
  | path (p : List Byte)
  | isDirectory (p : List Byte)
  | notDirectory (p : List Byte)
  | cannotOpen (p : List Byte)
  | cannotStat (p : List Byte)
  deriving DecidableEq, Repr

/-- The name in `struct dirent`: 14 bytes, without a NUL at the end of a full one. -/
def field (name : List Byte) : List Byte := name ++ replicate (dirsiz - name.length) 0

/-- `strcmp(p, q) == 0` for the bytes of a field and a string. To read past the field is `none`. -/
def strcmp : List Byte → List Byte → Option Bool
  | [], _ => none
  | a :: p, q => if a ≠ 0 ∧ a = q.headD 0 then strcmp p q.tail else some (a = q.headD 0)

def maxpath : ℕ := 128

def Overflows (s : List Byte) : Prop := 512 < s.length + 1

instance (s : List Byte) : Decidable (Overflows s) := inferInstanceAs (Decidable (_ < _))

def CannotOpen (fds : ℕ) (path : List Byte) : Prop := fds = 0 ∨ maxpath ≤ path.length

instance (fds : ℕ) (path : List Byte) : Decidable (CannotOpen fds path) :=
  inferInstanceAs (Decidable (_ ∨ _))

/-- One part after the other: all that they print, and whether one of them found a file. -/
def both (r q : Option (List Line × Bool)) : Option (List Line × Bool) := do
  let r ← r
  let q ← q
  some (r.1 ++ q.1, r.2 || q.2)

mutual

/-- `find(path, target)` with `fds` free descriptors: what it prints and returns, or `none` for an
access outside of the buffer or of a name. -/
def find (target : List Byte) (fds : ℕ) (path : List Byte) : Tree → Option (List Line × Bool)
  | .dir es =>
    if CannotOpen fds path then some ([.cannotOpen path], false)
    else scan target (fds - 1) path es
  | _ =>
    if CannotOpen fds path then some ([.cannotOpen path], false)
    else some ([.notDirectory path], false)

def scan (target : List Byte) (fds : ℕ) (path : List Byte) : Entries → Option (List Line × Bool)
  | .nil => some ([], false)
  | .skipped rest => scan target fds path rest
  | .entry name t rest =>
    let buf := path ++ ch '/' :: name
    both
      -- the first test, which is false for these entries
      (if (strcmp (field name) [ch '.']).isNone ∨ (strcmp (field name) [ch '.', ch '.']).isNone then
        none
      -- all 14 bytes of the name are copied
      else if Overflows (path ++ ch '/' :: field name) then none
      else if CannotOpen fds buf then some ([.cannotStat buf], false)
      else match t.kind with
        | .dir => both
            ((strcmp (field name) target).map fun same =>
              (if same then [.isDirectory buf] else [], false))
            (find target fds buf t)
        | .file => (strcmp (field name) target).map fun same =>
            (if same then [.path buf] else [], same)
        | .device => some ([], false))
      (scan target fds path rest)

end

/-! ### What `find` is to report -/

structure Entry where
  depth : ℕ
  path : List Byte
  name : List Byte
  kind : Kind
  deriving DecidableEq, Repr

mutual

def Tree.entries (d : ℕ) (path : List Byte) : Tree → List Entry
  | .dir es => es.entries d path
  | _ => []

def Entries.entries (d : ℕ) (path : List Byte) : Entries → List Entry
  | .nil => []
  | .skipped rest => rest.entries d path
  | .entry name t rest =>
    ⟨d, path ++ ch '/' :: name, name, t.kind⟩ ::
      (t.entries (d + 1) (path ++ ch '/' :: name) ++ rest.entries d path)

end

def matching (target : List Byte) (es : List Entry) : List Entry :=
  es.filter fun e => e.kind = .file ∧ e.name = target

def Entry.Ok (e : Entry) : Prop :=
  0 ∉ e.name ∧ e.name.length ≤ dirsiz ∧ e.name ∉ [[], [ch '.'], [ch '.', ch '.']] ∧
    e.path.length < maxpath

def Line.path? : Line → Option (List Byte)
  | .path p => some p
  | _ => none

variable {target path name : List Byte} {fds d limit : ℕ} {es es' : List Entry} {t : Tree}
  {r q : Option (List Line × Bool)}

lemma strcmp_append {name s : List Byte} (hn : 0 ∉ name) (hs : 0 ∉ s) (k : ℕ) :
    strcmp (name ++ replicate k 0) s =
      if k = 0 ∧ name <+: s then none else some (decide (name = s)) := by
  induction name generalizing s with
  | nil =>
    cases k with
    | zero => simp [strcmp]
    | succ k =>
      rw [nil_append, replicate_succ, strcmp, if_neg (fun h => h.1 rfl),
        if_neg (fun h => absurd h.1 (Nat.succ_ne_zero k))]
      cases s with
      | nil => simp
      | cons c s => simpa using fun h : 0 = c => hs (h ▸ mem_cons_self)
  | cons a name ih =>
    obtain ⟨ha, hn⟩ := ne_and_not_mem_of_not_mem_cons hn
    rw [cons_append, strcmp]
    cases s with
    | nil =>
      simpa using Ne.symm ha
    | cons c s =>
      by_cases hc : a = c
      · rw [if_pos ⟨Ne.symm ha, hc⟩, tail_cons, ih hn (not_mem_of_not_mem_cons hs)]
        simp [hc]
      · simp [hc]

lemma strcmp_field {s : List Byte} (hn : 0 ∉ name) (hl : name.length ≤ dirsiz) (hs : 0 ∉ s)
    (hsl : s.length ≤ dirsiz) : strcmp (field name) s =
      if name = s ∧ s.length = dirsiz then none else some (decide (name = s)) := by
  have hiff : dirsiz - name.length = 0 ∧ name <+: s ↔ name = s ∧ s.length = dirsiz := by
    constructor
    · rintro ⟨h, hp⟩
      have hle := hp.length_le
      exact ⟨hp.eq_of_length (by omega), by omega⟩
    · rintro ⟨rfl, h⟩
      exact ⟨by omega, prefix_rfl⟩
  rw [field, strcmp_append hn hs]
  exact if_congr hiff rfl rfl

def Overreads (target : List Byte) (limit : ℕ) (e : Entry) : Prop :=
  e.name = target ∧ target.length = dirsiz ∧ e.kind ≠ .device ∧ e.depth < limit

def reached (target : List Byte) (limit : ℕ) (es : List Entry) : List Entry :=
  (matching target es).filter fun e => e.depth < limit

/-- What comes of the entries `es` when those above `limit` can be opened. -/
def Outcome (target : List Byte) (limit : ℕ) (es : List Entry) (r : Option (List Line × Bool)) :
    Prop :=
  ((∃ e ∈ es, Overreads target limit e) → r = none) ∧
  ((∀ e ∈ es, ¬ Overreads target limit e) → ∃ lines,
    r = some (lines, decide (reached target limit es ≠ [])) ∧
      lines.filterMap Line.path? = (reached target limit es).map Entry.path)

lemma reached_append : reached target limit (es ++ es') =
    reached target limit es ++ reached target limit es' := by
  simp [reached, matching]

lemma Outcome.append (h : Outcome target limit es r) (h' : Outcome target limit es' q) :
    Outcome target limit (es ++ es') (both r q) := by
  constructor
  · rintro ⟨e, he, ho⟩
    obtain he | he := mem_append.mp he
    · rw [h.1 ⟨e, he, ho⟩, both, Option.bind_eq_bind, Option.bind_none]
    · rw [h'.1 ⟨e, he, ho⟩]
      cases r <;> rfl
  · intro ho
    obtain ⟨lines, rfl, hl⟩ := h.2 fun e he => ho e (mem_append_left _ he)
    obtain ⟨lines', rfl, hl'⟩ := h'.2 fun e he => ho e (mem_append_right _ he)
    refine ⟨lines ++ lines', ?_, ?_⟩
    · simp only [both, Option.bind_eq_bind, Option.bind_some, reached_append, Option.some.injEq,
        Prod.mk.injEq, true_and]
      by_cases h1 : reached target limit es = [] <;>
        by_cases h2 : reached target limit es' = [] <;> simp
    · rw [filterMap_append, hl, hl', reached_append, map_append]

lemma outcome_of_unreached {lines : List Line} (h : ∀ e ∈ es, limit ≤ e.depth)
    (hl : lines.filterMap Line.path? = []) : Outcome target limit es (some (lines, false)) := by
  have hr : reached target limit es = [] := by
    simp only [reached, filter_eq_nil_iff]
    intro e he
    have := h e (mem_of_mem_filter he)
    simpa using this
  constructor
  · rintro ⟨e, he, -, -, -, ho⟩
    exact absurd (h e he) (by omega)
  · exact fun _ => ⟨lines, by simp [hr], by simp [hr, hl]⟩

mutual

lemma le_depth_tree : ∀ (t : Tree) {d : ℕ} {path : List Byte}, ∀ e ∈ t.entries d path, d ≤ e.depth
  | .dir es, d, path, e, h => le_depth es e h
  | .file, d, path, e, h => by simp [Tree.entries] at h
  | .device, d, path, e, h => by simp [Tree.entries] at h

lemma le_depth : ∀ (es : Entries) {d : ℕ} {path : List Byte}, ∀ e ∈ es.entries d path, d ≤ e.depth
  | .nil, d, path, e, h => by simp [Entries.entries] at h
  | .skipped rest, d, path, e, h => le_depth rest e h
  | .entry name t rest, d, path, e, h => by
    simp only [Entries.entries, mem_cons, mem_append] at h
    obtain rfl | h | h := h
    · exact le_rfl
    · exact (Nat.le_succ d).trans (le_depth_tree t e h)
    · exact le_depth rest e h

end

lemma not_cannotOpen (hf : 0 < fds) (hp : path.length < maxpath) : ¬ CannotOpen fds path :=
  not_or.mpr ⟨by omega, by omega⟩

lemma outcome_strcmp {e : Entry} {f : Bool → List Line × Bool} (ht : 0 ∉ target)
    (htl : target.length ≤ dirsiz) (he : e.Ok) (hd : e.depth < limit) (hk : e.kind ≠ .device)
    (hf : ∀ same, (f same).1.filterMap Line.path? =
        (if e.kind = .file ∧ same then [e.path] else []) ∧
      (f same).2 = (decide (e.kind = .file) && same)) :
    Outcome target limit [e] ((strcmp (field e.name) target).map f) := by
  rw [strcmp_field he.1 he.2.1 ht htl]
  constructor
  · rintro ⟨e', hm, ho⟩
    obtain rfl := mem_singleton.mp hm
    rw [if_pos ⟨ho.1, ho.2.1⟩, Option.map_none]
  · intro ho
    have hno : ¬ (e.name = target ∧ target.length = dirsiz) :=
      fun h => ho e (by simp) ⟨h.1, h.2, hk, hd⟩
    obtain ⟨hf1, hf2⟩ := hf (decide (e.name = target))
    rw [if_neg hno, Option.map_some]
    refine ⟨(f (decide (e.name = target))).1, ?_, ?_⟩
    · congr 1
      refine Prod.ext rfl (hf2.trans ?_)
      by_cases hfile : e.kind = .file <;> by_cases hname : e.name = target <;>
        simp [reached, matching, hfile, hd]
    · rw [hf1]
      by_cases hfile : e.kind = .file <;> by_cases hname : e.name = target <;>
        simp [reached, matching, hfile, hname, hd]

lemma find_zero (t : Tree) : find target 0 path t = some ([.cannotOpen path], false) := by
  cases t <;> simp [find, CannotOpen]

mutual

lemma find_outcome (ht : 0 ∉ target) (htl : target.length ≤ dirsiz) :
    ∀ (t : Tree) (fds : ℕ) {d : ℕ} {path : List Byte}, path.length < maxpath →
      (∀ e ∈ t.entries d path, e.Ok) → 0 < d →
        Outcome target (d + fds - 1) (t.entries d path) (find target fds path t)
  | t, 0, d, path, _, _, _ => by
    rw [find_zero]
    exact outcome_of_unreached
      (fun e hm => (Nat.sub_le d 1).trans (le_depth_tree t e hm)) rfl
  | .file, fds + 1, d, path, hp, _, _ => by
    simp only [find, if_neg (not_cannotOpen (Nat.succ_pos fds) hp)]
    exact outcome_of_unreached (by simp [Tree.entries]) rfl
  | .device, fds + 1, d, path, hp, _, _ => by
    simp only [find, if_neg (not_cannotOpen (Nat.succ_pos fds) hp)]
    exact outcome_of_unreached (by simp [Tree.entries]) rfl
  | .dir es, fds + 1, d, path, hp, he, hd => by
    rw [find, if_neg (not_cannotOpen (Nat.succ_pos fds) hp), Tree.entries]
    exact scan_outcome ht htl es fds he hd

lemma scan_outcome (ht : 0 ∉ target) (htl : target.length ≤ dirsiz) :
    ∀ (es : Entries) (fds : ℕ) {d : ℕ} {path : List Byte}, (∀ e ∈ es.entries d path, e.Ok) → 0 < d →
      Outcome target (d + fds) (es.entries d path) (scan target fds path es)
  | .nil, fds, d, path, _, _ => by
    rw [scan, Entries.entries]
    exact outcome_of_unreached (by simp) rfl
  | .skipped rest, fds, d, path, he, hd => by
    rw [scan, Entries.entries]
    exact scan_outcome ht htl rest fds he hd
  | .entry name t rest, fds, d, path, he, hd => by
    rw [Entries.entries] at he ⊢
    rw [scan, ← cons_append]
    have hok := he _ mem_cons_self
    have hsub : ∀ e ∈ t.entries (d + 1) (path ++ ch '/' :: name), e.Ok :=
      fun e hm => he e (mem_cons_of_mem _ (mem_append_left _ hm))
    have hbuf : (path ++ ch '/' :: name).length < maxpath := hok.2.2.2
    refine Outcome.append ?_ (scan_outcome ht htl rest fds
      (fun e hm => he e (mem_cons_of_mem _ (mem_append_right _ hm))) hd)
    have hdots : ¬ ((strcmp (field name) [ch '.']).isNone ∨
        (strcmp (field name) [ch '.', ch '.']).isNone) := by
      rw [strcmp_field hok.1 hok.2.1 (by decide) (by decide),
        strcmp_field hok.1 hok.2.1 (by decide) (by decide), if_neg (by simp [dirsiz]),
        if_neg (by simp [dirsiz])]
      simp
    have hover : ¬ Overflows (path ++ ch '/' :: field name) := by
      have hl := hok.2.1
      simp only [Overflows, field, length_append, length_cons, length_replicate,
        maxpath, dirsiz] at hbuf hl ⊢
      omega
    split_ifs with hc
    · -- no descriptor is left for `stat`
      obtain rfl : fds = 0 := hc.resolve_right (by omega)
      refine outcome_of_unreached (fun e hm => ?_) rfl
      obtain rfl | hm := mem_cons.mp hm
      exacts [le_rfl, (Nat.le_succ d).trans (le_depth_tree t e hm)]
    · have hf : 0 < fds := Nat.pos_of_ne_zero fun h => hc (.inl h)
      have hfind := find_outcome ht htl t fds (d := d + 1) hbuf hsub (Nat.succ_pos d)
      rw [show d + 1 + fds - 1 = d + fds by omega] at hfind
      have hd' : d < d + fds := by omega
      cases t with
      | dir es =>
        exact Outcome.append (outcome_strcmp ht htl hok hd' (by simp [Tree.kind])
          fun same => by cases same <;> simp [Tree.kind, Line.path?]) hfind
      | file =>
        exact outcome_strcmp ht htl hok hd' (by simp [Tree.kind])
          fun same => by cases same <;> simp [Tree.kind, Line.path?]
      | device =>
        refine ⟨?_, fun _ => ⟨[], by simp [reached, matching, Tree.entries, Tree.kind], by
          simp [reached, matching, Tree.entries, Tree.kind]⟩⟩
        rintro ⟨e, hm, ho⟩
        simp only [Tree.entries, mem_singleton] at hm
        exact absurd (hm ▸ rfl) ho.2.2.1

end

end Xv6.Find
