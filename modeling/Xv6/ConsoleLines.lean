import Xv6.Basic
import Xv6.Devices
import Xv6.MonitorHistory

/-! The line discipline of the console. A reference editor keeps the lines that are committed and
the line being typed as lists; the ring buffer with its three counters does the same under every
interleaving of readers and interrupts. -/
namespace Xv6.Console

open Transition List Monitor

def Cons.lines (v : Cons) : List UInt8 := Ring.contents v.buf v.r v.w

def Cons.line (v : Cons) : List UInt8 := Ring.contents v.buf v.w v.e

/-- What happens at the console: a key, or a character taken out for a reader. -/
inductive Act
  | typed (c : UInt8)
  | taken
  deriving DecidableEq, Repr

/-- A line editor without counters. `taken` is what readers have been given, in order; a `^D` in
it is a read that returned nothing. -/
@[ext]
structure Editor where
  lines : List UInt8
  line : List UInt8
  taken : List UInt8
  deriving DecidableEq, Repr

namespace Editor

/-- A character that is not for editing; the line is committed by a newline, by `^D`, and when
there is no more room. -/
def insert (x : Editor) (c : UInt8) : Editor :=
  let line := x.line ++ [c]
  if c = newline ∨ c = ctrl 'D' ∨ x.lines.length + line.length = inputBufSize then
    { x with lines := x.lines ++ line, line := [] }
  else { x with line := line }

lemma insert_complete {x : Editor} {c : UInt8} (h : c = newline ∨ c = ctrl 'D' ∨
    x.lines.length + (x.line ++ [c]).length = inputBufSize) :
    x.insert c = ⟨x.lines ++ (x.line ++ [c]), [], x.taken⟩ :=
  if_pos h

lemma insert_open {x : Editor} {c : UInt8} (h : ¬ (c = newline ∨ c = ctrl 'D' ∨
    x.lines.length + (x.line ++ [c]).length = inputBufSize)) :
    x.insert c = ⟨x.lines, x.line ++ [c], x.taken⟩ :=
  if_neg h

def type (x : Editor) (c : UInt8) : Editor :=
  if c = ctrl 'P' then x
  else if c = ctrl 'U' then { x with line := [] }
  else if c = ctrl 'H' ∨ c = delete then { x with line := x.line.dropLast }
  else if c ≠ 0 ∧ x.lines.length + x.line.length < inputBufSize then
    x.insert (if c = carriageReturn then newline else c)
  else x

def take (x : Editor) : Editor :=
  match x.lines with
  | [] => x
  | c :: lines => { x with lines := lines, taken := x.taken ++ [c] }

def step (x : Editor) : Act → Editor
  | .typed c => x.type c
  | .taken => x.take

def run (acts : List Act) : Editor := acts.foldl step ⟨[], [], []⟩

lemma run_snoc (acts : List Act) (o : Act) : run (acts ++ [o]) = (run acts).step o := by
  simp [run]

end Editor

structure Transcript where
  acts : List Act
  taken : List UInt8
  deriving DecidableEq, Repr

def note (a : Call) (v v' : Cons) (x : List UInt8 × Transcript) : List UInt8 × Transcript :=
  match a with
  | .consoleintr c =>
      if v'.keyboardIntCnt = v.keyboardIntCnt then x
      else (x.1, { x.2 with acts := x.2.acts ++ [.typed c] })
  | .consoleread _ =>
      if v'.r = v.r + 1 then (x.1 ++ [v.front], ⟨x.2.acts ++ [.taken], x.2.taken ++ [v.front]⟩)
      else if v'.r = v.r - 1 then (x.1.dropLast, ⟨x.2.acts.dropLast, x.2.taken.dropLast⟩)
      else x

lemma note_self (a : Call) (v : Cons) (x : List UInt8 × Transcript) : note a v v x = x := by
  have hplus : v.r ≠ v.r + 1 := by bv_omega
  have hminus : v.r ≠ v.r - 1 := by bv_omega
  cases a with
  | consoleintr c => simp [note]
  | consoleread n => rw [note, if_neg hplus, if_neg hminus]

section data
variable {v : Cons} {c : UInt8}

/-- The buffer is not overfull, a full one has no open line, and no open line has a newline. -/
structure Ok (v : Cons) : Prop where
  room : v.lines.length + v.line.length ≤ inputBufSize
  full : v.lines.length + v.line.length = inputBufSize → v.line = []
  unbroken : newline ∉ v.line

section
variable (h : v.lines.length + v.line.length ≤ inputBufSize)
include h

lemma count_lt : Ring.count v.r v.w + Ring.count v.w v.e < 2 ^ 32 := by
  rw [Cons.lines, Cons.line, Ring.length_contents, Ring.length_contents] at h
  have hsize : inputBufSize < 2 ^ 32 := by decide
  omega

lemma count_edit : Ring.count v.r v.e = v.lines.length + v.line.length := by
  rw [Ring.count_add (count_lt h), Cons.lines, Cons.line, Ring.length_contents,
    Ring.length_contents]

lemma not_full_iff :
    v.e - v.r < BitVec.ofNat 32 inputBufSize ↔
      v.lines.length + v.line.length < inputBufSize := by
  rw [← count_edit h, BitVec.lt_def]
  exact Iff.rfl

lemma full_iff : v.full = true ↔ v.lines.length + v.line.length = inputBufSize := by
  rw [← count_edit h, Ring.count_eq (by decide), Cons.full, decide_eq_true_iff,
    BitVec.sub_eq_iff_eq_add, BitVec.add_comm]

end

lemma line_append (h : v.lines.length + v.line.length < inputBufSize) :
    (append c v).line = v.line ++ [c] := by
  have hroom : Ring.count v.w v.e < inputBufSize := by
    rw [Cons.line, Ring.length_contents] at h
    omega
  exact Ring.contents_put (by decide) (by decide) hroom c

lemma lines_append (h : v.lines.length + v.line.length < inputBufSize) :
    (append c v).lines = v.lines := by
  have hsum := count_lt h.le
  have hroom : Ring.count v.r v.e < inputBufSize := by
    rw [count_edit h.le]
    exact h
  have hsame : Ring.contents (append c v).buf v.r v.e = Ring.contents v.buf v.r v.e :=
    Ring.contents_update (by decide) hroom c
  rw [Ring.contents_append hsum, Ring.contents_append hsum] at hsame
  refine (append_inj hsame ?_).1
  rw [Ring.length_contents, Ring.length_contents]

lemma lines_commit (h : v.lines.length + v.line.length ≤ inputBufSize) :
    (commit v).lines = v.lines ++ v.line :=
  Ring.contents_append (count_lt h)

lemma line_commit (v : Cons) : (commit v).line = [] := Ring.contents_empty ..

lemma line_eq_nil : v.line = [] ↔ v.w = v.e := by
  rw [← length_eq_zero_iff, Cons.line, Ring.length_contents, Ring.count_eq_zero]

lemma line_erase (h : v.e ≠ v.w) : v.line = (erase v).line ++ [v.last] :=
  Ring.contents_pred (Ne.symm h)

lemma lines_advance (h : v.r ≠ v.w) : v.lines = v.front :: (advance v).lines :=
  Ring.contents_take h

lemma putBack_advance (v : Cons) : putBack (advance v) = v := by
  simp [putBack, advance]

lemma Ok.shrink (h : Ok v) {v' : Cons} (hlines : v'.lines.length ≤ v.lines.length)
    (hline : v'.line <+: v.line) : Ok v' := by
  have hlen := hline.length_le
  have hroom := h.room
  refine ⟨by omega, ?_, fun hn => h.unbroken (hline.subset hn)⟩
  intro hfull
  have hnil := h.full (by omega)
  rw [hnil] at hline
  exact prefix_nil.mp hline

lemma Ok.erase (h : Ok v) (he : v.e ≠ v.w) : Ok (erase v) :=
  h.shrink le_rfl ⟨_, (line_erase he).symm⟩

lemma Ok.advance (h : Ok v) (hr : v.r ≠ v.w) : Ok (advance v) := by
  refine h.shrink ?_ (prefix_refl _)
  rw [lines_advance hr]
  simp

end data

/-- What one change may be: a reader moves `r`, or the characters committed stay in front. -/
def Unaltered (v v' : Cons) : Prop :=
  v' = advance v ∨ v' = putBack v ∨ v'.r = v.r ∧ v.lines <+: v'.lines

/-- The characters of a read in progress, `n` of the `target` wanted still missing. -/
structure Reading (target n : ℤ) (l : List UInt8) : Prop where
  length : (l.length : ℤ) = target - n
  nonneg : l ≠ [] → 0 ≤ n
  unbroken : newline ∉ l
  data : ctrl 'D' ∉ l

/-- What a read takes: no more than it wants, nothing after a newline, and `^D` only alone. -/
structure Read (n : ℤ) (l : List UInt8) : Prop where
  length : (l.length : ℤ) ≤ max n 0
  unbroken : newline ∉ l.dropLast
  eof : ctrl 'D' ∈ l → l = [ctrl 'D']

def Cons.editor (v : Cons) (s : Transcript) : Editor := ⟨v.lines, v.line, s.taken⟩

def account : Monitor.Account Cons Block Bool Call (List UInt8) Transcript where
  start _ := []
  note := note
  note_self := note_self
  inv v s := Ok v ∧ Editor.run s.acts = v.editor s
  entry
    | .readLoop target n, a, v, x =>
        a = .consoleread target ∧ (Ok v ∧ Editor.run x.2.acts = v.editor x.2) ∧
          Reading target n x.1
    | .readWait target n, a, v, x =>
        a = .consoleread target ∧ (Ok v ∧ Editor.run x.2.acts = v.editor x.2) ∧
          Reading target n x.1 ∧ 0 < n
    | .killLine, a, v, x =>
        (∃ c, a = .consoleintr c) ∧ Ok v ∧
          Editor.run x.2.acts = { v.editor x.2 with line := [] }
  done
    | .consoleread n, l => Read n l
    | .consoleintr _, _ => True
  step v v' := v'.lines.length + v'.line.length ≤ inputBufSize ∧ Unaltered v v'
  answer ok := ok = true

lemma account_note (a : Call) (v v' : Cons) (x : List UInt8 × Transcript) :
    account.note a v v' x = note a v v' x := rfl

section read
variable {target n : ℤ} {l : List UInt8} {v : Cons} {s : Transcript} {c : UInt8}

lemma Reading.done (h : Reading target n l) : Read target l := by
  refine ⟨?_, fun hn => h.unbroken (mem_of_mem_dropLast hn), fun hd => absurd hd h.data⟩
  rcases eq_or_ne l [] with rfl | hl
  · simp
  · have hn := h.nonneg hl
    have hlen := h.length
    omega

lemma Reading.snoc (h : Reading target n l) (hn : 0 < n) (hnl : c ≠ newline)
    (hd : c ≠ ctrl 'D') : Reading target (n - 1) (l ++ [c]) := by
  have hlen := h.length
  refine ⟨?_, fun _ => by omega, ?_, ?_⟩
  · simp only [length_append, length_singleton]
    omega
  · simpa [h.unbroken] using Ne.symm hnl
  · simpa [h.data] using Ne.symm hd

lemma Reading.newline (h : Reading target n l) (hn : 0 < n) : Read target (l ++ [newline]) := by
  have hlen := h.length
  refine ⟨?_, ?_, ?_⟩
  · simp only [length_append, length_singleton]
    omega
  · rw [dropLast_concat]
    exact h.unbroken
  · intro hd
    rcases mem_append.mp hd with hd | hd
    · exact absurd hd h.data
    · exact absurd hd (by decide)

lemma note_advance (target : ℤ) (v : Cons) (x : List UInt8 × Transcript) :
    note (.consoleread target) v (advance v) x =
      (x.1 ++ [v.front], ⟨x.2.acts ++ [.taken], x.2.taken ++ [v.front]⟩) := by
  simp [note, advance]

lemma note_putBack (target : ℤ) (v : Cons) (x : List UInt8 × Transcript) :
    note (.consoleread target) (advance v) (putBack (advance v))
      (note (.consoleread target) v (advance v) x) = x := by
  have hne : v.r ≠ (advance v).r + 1 := by
    change v.r ≠ v.r + 1 + 1
    bv_omega
  have hback : v.r = (advance v).r - 1 := by
    change v.r = v.r + 1 - 1
    bv_omega
  rw [note_advance, putBack_advance, note, if_neg hne, if_pos hback]
  simp

lemma run_take (h : Editor.run s.acts = v.editor s) (hr : v.r ≠ v.w) :
    Editor.run (s.acts ++ [.taken]) =
      (advance v).editor ⟨s.acts ++ [.taken], s.taken ++ [v.front]⟩ := by
  rw [Editor.run_snoc, h, Editor.step, Editor.take, Cons.editor, lines_advance hr]
  rfl

lemma step_advance (hok : Ok v) (hr : v.r ≠ v.w) : account.step v (advance v) :=
  ⟨(hok.advance hr).room, .inl rfl⟩

lemma step_putBack (hok : Ok v) : account.step (advance v) (putBack (advance v)) := by
  refine ⟨?_, .inr (.inl rfl)⟩
  rw [putBack_advance]
  exact hok.room

section
variable (hok : Ok v) (hrun : Editor.run s.acts = v.editor s)
include hok hrun

lemma in_readChar (hr : v.r ≠ v.w) (hl : Reading target n l) (hn : 0 < n) :
    account.In (.consoleread target) (readChar target n v.front) (advance v)
      (note (.consoleread target) v (advance v) (l, s)) := by
  have hnext : account.inv (advance v) ⟨s.acts ++ [.taken], s.taken ++ [v.front]⟩ :=
    ⟨hok.advance hr, run_take hrun hr⟩
  have hlen := hl.length
  unfold readChar
  split_ifs with hd hlt
  · -- put back: the transcript is what it was
    refine ⟨step_putBack hok, ?_⟩
    rw [account_note, note_putBack, putBack_advance]
    exact ⟨⟨hok, hrun⟩, hl.done⟩
  · have hnil : l = [] := length_eq_zero_iff.mp (by omega)
    rw [note_advance, hd, hnil]
    have hread : Read target [ctrl 'D'] := ⟨by simp; omega, by simp, fun _ => rfl⟩
    exact ⟨hd ▸ hnext, hread⟩
  · rw [note_advance]
    rintro ok (rfl : ok = true)
    beta_reduce
    by_cases hnl : v.front = newline
    · rw [if_pos (.inr hnl), hnl]
      exact ⟨hnl ▸ hnext, hl.newline hn⟩
    · rw [if_neg (by simpa using hnl)]
      exact ⟨rfl, hnext, hl.snoc hn hnl hd⟩

lemma in_readWait (hl : Reading target n l) (hn : 0 < n) :
    account.In (.consoleread target) (readWait target n) v (l, s) := by
  change account.In _ (if _ then _ else _) v (l, s)
  split_ifs with hr
  · exact ⟨⟨⟨hok, hrun⟩, hl.done⟩, ⟨hok, hrun⟩, fun v' s' hinv => ⟨rfl, hinv, hl, hn⟩⟩
  · exact ⟨step_advance hok hr, in_readChar hok hrun hr hl hn⟩

lemma in_readLoop (hl : Reading target n l) :
    account.In (.consoleread target) (readLoop target n) v (l, s) := by
  unfold readLoop
  split_ifs with hn
  · exact ⟨rfl, ⟨hok, hrun⟩, hl, hn⟩
  · exact ⟨⟨hok, hrun⟩, hl.done⟩

end

end read

section intr
variable {l : List UInt8} {v v' : Cons} {s : Transcript} {c c' : UInt8}

lemma note_countInt (c : UInt8) (v : Cons) (x : List UInt8 × Transcript) :
    note (.consoleintr c) v (countInt v) x =
      (x.1, { x.2 with acts := x.2.acts ++ [.typed c] }) := by
  simp [note, countInt]

lemma note_intr (c : UInt8) (x : List UInt8 × Transcript)
    (h : v'.keyboardIntCnt = v.keyboardIntCnt := by rfl) :
    note (.consoleintr c) v v' x = x := by
  simp [note, h]

lemma step_intr (hroom : v'.lines.length + v'.line.length ≤ inputBufSize) (hr : v'.r = v.r)
    (hlines : v.lines <+: v'.lines) : account.step v v' :=
  ⟨hroom, .inr (.inr ⟨hr, hlines⟩)⟩

lemma step_erase (hok : Ok v) (he : v.e ≠ v.w) : account.step v (erase v) :=
  step_intr (hok.erase he).room rfl (prefix_refl _)

lemma in_killLine (hok : Ok v) (hrun : Editor.run s.acts = { v.editor s with line := [] }) :
    account.In (.consoleintr c) killLine v (l, s) := by
  change account.In _ (if _ then _ else _) v (l, s)
  split_ifs with h
  · obtain ⟨he, _⟩ := h
    refine ⟨step_erase hok he, ?_⟩
    rw [account_note, note_intr]
    exact ⟨⟨c, rfl⟩, hok.erase he, hrun⟩
  · -- the loop stops at the start of the line: there is no newline before
    have hnil : v.line = [] := by
      by_contra hne
      have he : v.e ≠ v.w := fun he => hne (line_eq_nil.mpr he.symm)
      have hlast : v.last = newline := by
        by_contra hlast
        exact h ⟨he, hlast⟩
      refine hok.unbroken ?_
      rw [line_erase he, hlast]
      simp
    refine ⟨⟨hok, ?_⟩, trivial⟩
    change Editor.run s.acts = v.editor s
    rw [hrun, Cons.editor, hnil]

lemma in_typed (hok : Ok v) (hroom : v.lines.length + v.line.length < inputBufSize)
    (hrun : Editor.run s.acts = (v.editor s).insert c') :
    account.In (.consoleintr c) (typed c') v (l, s) := by
  have hlines : (append c' v).lines = v.lines := lines_append hroom
  have hline : (append c' v).line = v.line ++ [c'] := line_append hroom
  have hlen : (append c' v).lines.length + (append c' v).line.length ≤ inputBufSize := by
    rw [hlines, hline, length_append, length_singleton]
    omega
  refine ⟨step_intr hlen rfl (hlines ▸ prefix_refl _), ?_⟩
  rw [account_note, note_intr]
  change account.In _ (if _ then _ else _) _ _
  have htest : (c' = newline ∨ c' = ctrl 'D' ∨ (append c' v).full = true) ↔
      c' = newline ∨ c' = ctrl 'D' ∨
        v.lines.length + (v.line ++ [c']).length = inputBufSize := by
    rw [full_iff hlen, hlines, hline]
  by_cases hend : c' = newline ∨ c' = ctrl 'D' ∨
      v.lines.length + (v.line ++ [c']).length = inputBufSize
  · rw [Editor.insert_complete (x := v.editor s) hend] at hrun
    rw [if_pos (htest.mpr hend)]
    have hlines' : (commit (append c' v)).lines = v.lines ++ (v.line ++ [c']) := by
      rw [lines_commit hlen, hlines, hline]
    have hline' : (commit (append c' v)).line = [] := line_commit _
    have hok' : Ok (commit (append c' v)) := by
      refine ⟨?_, fun _ => hline', by simp [hline']⟩
      rw [hlines', hline']
      rw [hlines, hline] at hlen
      simpa [Nat.add_assoc] using hlen
    refine ⟨step_intr hok'.room rfl ?_, ?_⟩
    · rw [hlines', hlines]
      exact prefix_append _ _
    · rw [account_note, note_intr]
      refine ⟨⟨hok', ?_⟩, trivial⟩
      change Editor.run s.acts = _
      rw [hrun, Cons.editor, Cons.editor, hlines', hline']
  · rw [Editor.insert_open (x := v.editor s) hend] at hrun
    rw [if_neg (mt htest.mp hend)]
    push Not at hend
    refine ⟨⟨⟨hlen, fun hfull => ?_, ?_⟩, ?_⟩, trivial⟩
    · rw [hlines, hline] at hfull
      exact absurd hfull hend.2.2
    · rw [hline]
      simpa [hok.unbroken] using Ne.symm hend.1
    · change Editor.run s.acts = _
      rw [hrun, Cons.editor, Cons.editor, hlines, hline]

lemma ok_countInt (hok : Ok v) : Ok (countInt v) := ⟨hok.room, hok.full, hok.unbroken⟩

lemma in_intr (hok : Ok v) (hrun : Editor.run s.acts = v.editor s) :
    account.In (.consoleintr c) (intr c) v (l, s) := by
  refine ⟨step_intr hok.room rfl (prefix_refl _), ?_⟩
  rw [account_note, note_countInt]
  have hkey : Editor.run (s.acts ++ [.typed c]) =
      ((countInt v).editor s).type c := by
    rw [Editor.run_snoc, hrun]
    rfl
  have hok' := ok_countInt hok
  unfold Editor.type at hkey
  generalize (if c = carriageReturn then newline else c) = c' at hkey ⊢
  split_ifs at hkey ⊢ with hP hU hH hin
  · exact ⟨⟨hok', hkey⟩, trivial⟩
  · exact ⟨⟨c, rfl⟩, hok', hkey⟩
  · change account.In _ (if _ then _ else _) _ _
    split_ifs with he
    · refine ⟨step_erase hok' he, ?_⟩
      rw [account_note, note_intr]
      refine ⟨⟨hok'.erase he, ?_⟩, trivial⟩
      change Editor.run (s.acts ++ [.typed c]) = _
      rw [hkey]
      have hline := line_erase he
      dsimp only [Cons.editor]
      rw [hline, dropLast_concat]
      rfl
    · have hnil : (countInt v).line = [] := line_eq_nil.mpr (not_not.mp he).symm
      refine ⟨⟨hok', ?_⟩, trivial⟩
      change Editor.run (s.acts ++ [.typed c]) = _
      rw [hkey]
      dsimp only [Cons.editor]
      rw [hnil]
      rfl
  · change account.In _ (if _ then _ else _) _ _
    have htest : c ≠ 0 ∧ (countInt v).e - (countInt v).r < BitVec.ofNat 32 inputBufSize :=
      ⟨hin.1, (not_full_iff hok'.room).mpr hin.2⟩
    rw [if_pos htest]
    exact in_typed hok' hin.2 hkey
  · change account.In _ (if _ then _ else _) _ _
    have htest : ¬ (c ≠ 0 ∧ (countInt v).e - (countInt v).r < BitVec.ofNat 32 inputBufSize) :=
      fun h => hin ⟨h.1, (not_full_iff hok'.room).mp h.2⟩
    rw [if_neg htest]
    exact ⟨⟨hok', hkey⟩, trivial⟩

end intr

lemma account_verified : account.Verified code where
  block := by
    intro n a v x hentry
    cases n with
    | readLoop target n =>
      obtain ⟨rfl, ⟨hok, hrun⟩, hl⟩ := hentry
      exact in_readLoop hok hrun hl
    | readWait target n =>
      obtain ⟨rfl, ⟨hok, hrun⟩, hl, hn⟩ := hentry
      exact in_readWait hok hrun hl hn
    | killLine =>
      obtain ⟨⟨c, rfl⟩, hok, hrun⟩ := hentry
      exact in_killLine hok hrun
  start := by
    intro a
    cases a with
    | consoleread n =>
      have hnone : Reading n n [] := ⟨by simp, fun h => absurd rfl h, by simp, by simp⟩
      exact fun v s hinv => ⟨rfl, hinv, hnone⟩
    | consoleintr c => exact fun v s hinv => in_intr hinv.1 hinv.2

lemma inv_consoleinit : account.inv consoleinit ⟨[], []⟩ := by
  have hlines : consoleinit.lines = [] := Ring.contents_empty ..
  have hline : consoleinit.line = [] := Ring.contents_empty ..
  refine ⟨⟨?_, fun _ => hline, by simp [hline]⟩, ?_⟩
  · simp [hlines, hline]
  · rw [Cons.editor, hlines, hline]
    rfl

def Copies {ι : Type} (_ : Sys ι) : Event ι → Prop
  | .answer _ ok => ok = true
  | _ => True

instance {ι : Type} (s : Sys ι) (e : Event ι) : Decidable (Copies s e) := by
  unfold Copies
  cases e <;> infer_instance

section
variable {ι : Type} [DecidableEq ι] {procs : List ι} {s : Sys ι}
  {xs : List (Sys ι × Event ι × Sys ι)}

/-- What the transitions of a run amount to; `own p` is what the last read of `p` has taken. -/
def transcript (xs : List (Sys ι × Event ι × Sys ι)) : Monitor.Notes ι (List UInt8) Transcript :=
  xs.foldl account.log ⟨fun _ => [], ⟨[], []⟩⟩

section
variable (h : Run (Record (Guarded (next code procs) Copies)) (Monitor.boot consoleinit) xs s)
include h

lemma account_run :
    account.Kept (transcript xs) s ∧ ∀ x ∈ xs, account.Change x.1.data x.2.2.data := by
  have hanswers : ∀ (t : Sys ι) (e : Event ι), Copies t e → account.Answers t e := by
    intro t e he
    cases e <;> exact he
  have hrun : Run (Record
      (Guarded (next code procs) account.Answers))
      (Monitor.boot consoleinit) xs s := by
    refine h.mono ?_
    rintro t x u ⟨hfrom, hto, hcopies, hnext⟩
    exact ⟨hfrom, hto, hanswers _ _ hcopies, hnext⟩
  exact account_verified.run inv_consoleinit hrun

lemma room_run : s.data.lines.length + s.data.line.length ≤ inputBufSize := by
  induction h with
  | nil => exact inv_consoleinit.1.room
  | @snoc t u xs x hrun hs ih =>
    have hchange := (account_run (hrun.snoc hs)).2 x (by simp)
    obtain ⟨rfl, rfl, _⟩ := hs
    rcases hchange with hsame | ⟨hroom, _⟩
    · rw [hsame]
      exact ih
    · exact hroom

end

/-- The line discipline of the console, for every interleaving of interrupts and reads. The
counters stay in order and within the buffer; whenever nobody is inside, a full buffer is all
committed, so that a reader finds something in it; editing never touches what is committed; what
readers take is what the reference editor gives them; and a read that has ended has taken a
`^D` only if it has taken nothing else. -/
theorem line_discipline (h : Run (Record
      (Guarded (next code procs) Copies)) (Monitor.boot consoleinit) xs s) :
    ((s.data.e - s.data.r).toNat ≤ inputBufSize ∧
      s.data.w - s.data.r ≤ s.data.e - s.data.r) ∧
    (s.lock = none → s.data.full = true → s.data.w = s.data.e ∧ s.data.r ≠ s.data.w) ∧
    (∀ x ∈ xs, Unaltered x.1.data x.2.2.data) ∧
    (s.lock = none → Editor.run (transcript xs).all.acts =
      ⟨s.data.lines, s.data.line, (transcript xs).all.taken⟩) ∧
    ∀ p n, s.pc p = .exec .ret → s.call p = some (.consoleread n) →
      Read n ((transcript xs).own p) := by
  obtain ⟨hkept, hchange⟩ := account_run h
  have hroom := room_run h
  have hedit : (s.data.e - s.data.r).toNat = s.data.lines.length + s.data.line.length :=
    count_edit hroom
  have hlines : s.data.lines.length = (s.data.w - s.data.r).toNat := Ring.length_contents ..
  refine ⟨⟨hedit ▸ hroom, ?_⟩, ?_, ?_, fun hl => (hkept.free hl).2, ?_⟩
  · rw [BitVec.le_def, hedit, hlines]
    omega
  · intro hl hfull
    have hsum := (full_iff hroom).mp hfull
    have hnil := (hkept.free hl).1.full hsum
    refine ⟨line_eq_nil.mp hnil, fun hr => ?_⟩
    have hempty : s.data.lines.length = 0 := by
      rw [hlines, hr, BitVec.sub_self]
      rfl
    rw [hempty, hnil] at hsum
    exact absurd hsum (by decide)
  · intro x hx
    rcases hchange x hx with hsame | ⟨_, hstep⟩
    · rw [hsame]
      exact .inr (.inr ⟨rfl, prefix_refl _⟩)
    · exact hstep
  · intro p n hp hcall
    obtain ⟨_, hidle | ⟨a, ha, hdone⟩⟩ := hkept.stranger hp fun _ _ _ => id
    · rw [hidle.1] at hcall
      cases hcall
    · rw [hcall] at ha
      cases ha
      exact hdone

end

def steps {n : ℕ} (p : Fin n) (k : ℕ) : List (Event (Fin n)) := replicate k (.run p)

attribute [local instance] neZero_two in
/-- A key is typed and erased, another one ends up in a line, and a read gets the line. -/
def editLine : List (Event (Fin 2)) :=
  .call 1 (.consoleintr 97) :: steps 1 6 ++ .call 1 (.consoleintr 8) :: steps 1 5 ++
    .call 1 (.consoleintr 98) :: steps 1 6 ++ .call 1 (.consoleintr 13) :: steps 1 11 ++
    .call 0 (.consoleread 10) :: steps 0 5 ++ .answer 0 true :: steps 0 4 ++
    .answer 0 true :: steps 0 1

theorem line_discipline_edited : ∃ (xs : List (Sys (Fin 2) × Event (Fin 2) × Sys (Fin 2)))
    (s : Sys (Fin 2)), Run (Record
      (Guarded (next code (finRange 2)) Copies))
      (Monitor.boot consoleinit) xs s ∧
    (transcript xs).all.taken = [98, 10] ∧
    ((s.data.e - s.data.r).toNat ≤ inputBufSize ∧
      s.data.w - s.data.r ≤ s.data.e - s.data.r) ∧
    (s.lock = none → s.data.full = true → s.data.w = s.data.e ∧ s.data.r ≠ s.data.w) ∧
    (∀ x ∈ xs, Unaltered x.1.data x.2.2.data) ∧
    (s.lock = none → Editor.run (transcript xs).all.acts =
      ⟨s.data.lines, s.data.line, (transcript xs).all.taken⟩) ∧
    ∀ p n, s.pc p = .exec .ret → s.call p = some (.consoleread n) →
      Read n ((transcript xs).own p) := by
  have hsome : (transitions (next code (finRange 2))
      (Monitor.boot consoleinit) editLine).any
        (fun xs => (transcript xs).all.taken = [98, 10] ∧ ∀ x ∈ xs, Copies x.1 x.2.1) = true := by
    decide +kernel
  obtain ⟨xs, hxs, htest⟩ := (Option.any_eq_true _ _).mp hsome
  obtain ⟨htaken, hcopies⟩ := of_decide_eq_true htest
  obtain ⟨s, hrun⟩ := transitions_run hxs
  have hguarded := hrun.restrict hcopies
  exact ⟨xs, s, hguarded, htaken, line_discipline hguarded⟩

end Xv6.Console
