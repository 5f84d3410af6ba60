import Xv6.Ulib

/-! `diff`, `user/diff.c`. -/
namespace Xv6.Diff

open Shell (ch)

/-- `readline` with room for that many bytes: the bytes that it puts into the buffer, before the
NUL, and what is left of the file. -/
def readline : ℕ → List Byte → List Byte × List Byte
  | 0, file => ([], file)
  | _ + 1, [] => ([], [])
  | room + 1, c :: file =>
    if c = newline then ([c], file)
    else
      let r := readline room file
      (c :: r.1, r.2)

def cstring (buf : List Byte) : List Byte := buf.takeWhile (· ≠ 0)

def stripNewlines (buf : List Byte) : List Byte :=
  let s := cstring buf
  if s.getLast? = some newline then s.dropLast else s

inductive Message
  | only1 (line : ℕ) (b1 : List Byte)
  | only2 (line : ℕ) (b2 : List Byte)
  | differs (line : ℕ) (b1 b2 : List Byte)
  deriving DecidableEq, Repr

def room : ℕ := 511

def mainLoop : ℕ → ℕ → List Byte → List Byte → Option (List Message)
  | 0, _, _, _ => none
  | fuel + 1, line, f1, f2 =>
    let r1 := readline room f1
    let r2 := readline room f2
    let n1 := r1.1.length
    let n2 := r2.1.length
    if n1 = 0 ∧ n2 = 0 then some []
    else
      let b1 := stripNewlines r1.1
      let b2 := stripNewlines r2.1
      let out :=
        if 0 < n1 ∧ n2 = 0 then [.only1 line b1]
        else if 0 < n2 ∧ n1 = 0 then [.only2 line b2]
        else if b1 ≠ b2 then [.differs line b1 b2] else []
      (mainLoop fuel (line + 1) r1.2 r2.2).map (out ++ ·)

/-- `diff` prints that the files are identical: its loop ends without a message. -/
def Identical (f1 f2 : List Byte) : Prop := ∃ fuel, mainLoop fuel 1 f1 f2 = some []

/-! ### What `diff` looks at -/

/-- The pieces of a file: they end at a newline, after `room` bytes or with the file; the first one
after `k` bytes. -/
def pieces : ℕ → List Byte → List (List Byte)
  | _, [] => []
  | k, c :: file =>
    if c = newline ∨ k ≤ 1 then [c] :: pieces room file
    else match pieces (k - 1) file with
      | [] => [[c]]
      | p :: ps => (c :: p) :: ps

def visible (p : List Byte) : List Byte := p.takeWhile fun c => c ≠ 0 ∧ c ≠ newline

/-- The files have as many pieces, and these differ at most behind a NUL or in a newline that is
missing at the end. -/
def LookAlike (f1 f2 : List Byte) : Prop :=
  List.Forall₂ (fun p q => visible p = visible q) (pieces room f1) (pieces room f2)

lemma pieces_eq : ∀ {k : ℕ} {file : List Byte}, 0 < k → file ≠ [] →
    pieces k file = (readline k file).1 :: pieces room (readline k file).2
  | k + 1, c :: file, _, _ => by
    rw [pieces, readline]
    by_cases hc : c = newline
    · simp [hc]
    cases k with
    | zero => simp [hc, readline]
    | succ k =>
      rw [if_neg (by simp [hc]), if_neg hc]
      by_cases h0 : file = []
      · simp [h0, pieces, readline]
      · rw [show k + 1 + 1 - 1 = k + 1 from rfl, pieces_eq (Nat.succ_pos k) h0]

lemma length_readline (k : ℕ) (file : List Byte) :
    (readline k file).1.length + (readline k file).2.length = file.length := by
  induction k generalizing file with
  | zero => simp [readline]
  | succ k ih =>
    cases file with
    | nil => simp [readline]
    | cons c file =>
      have := ih file
      rw [readline]
      split_ifs <;> simp <;> omega

lemma readline_eq_nil {file : List Byte} : (readline room file).1.length = 0 ↔ file = [] := by
  cases file with
  | nil => simp [room, readline]
  | cons c file =>
    rw [room, readline]
    split_ifs <;> simp

lemma stripNewlines_cons {c : Byte} (hc : c ≠ newline) (p : List Byte) :
    stripNewlines (c :: p) = if c = 0 then [] else c :: stripNewlines p := by
  by_cases h0 : c = 0
  · simp [stripNewlines, cstring, h0]
  · have hs : cstring (c :: p) = c :: cstring p := List.takeWhile_cons_of_pos (by simpa using h0)
    rw [if_neg h0, stripNewlines, stripNewlines, hs]
    cases h : cstring p with
    | nil => simp [hc]
    | cons d s =>
      rw [List.getLast?_cons_cons]
      split_ifs <;> rfl

lemma stripNewlines_readline (k : ℕ) (file : List Byte) :
    stripNewlines (readline k file).1 = visible (readline k file).1 := by
  induction k generalizing file with
  | zero => rfl
  | succ k ih =>
    cases file with
    | nil => rfl
    | cons c file =>
      rw [readline]
      split_ifs with hc
      · simp [hc, stripNewlines, cstring, visible, newline, ch]
      · rw [stripNewlines_cons hc, ih file]
        split_ifs with h0
        · simp [visible, h0]
        · exact (List.takeWhile_cons_of_pos (by simpa using ⟨h0, hc⟩)).symm

variable {f1 f2 : List Byte} {fuel line : ℕ} {out : List Message}

lemma lookAlike_cons (h1 : f1 ≠ []) (h2 : f2 ≠ []) : LookAlike f1 f2 ↔
    visible (readline room f1).1 = visible (readline room f2).1 ∧
      LookAlike (readline room f1).2 (readline room f2).2 := by
  rw [LookAlike, pieces_eq (by decide) h1, pieces_eq (by decide) h2, List.forall₂_cons, LookAlike]

lemma mainLoop_eq_nil_iff (h : mainLoop fuel line f1 f2 = some out) :
    out = [] ↔ LookAlike f1 f2 := by
  induction fuel generalizing line f1 f2 out with
  | zero => exact nomatch h
  | succ fuel ih =>
    simp only [mainLoop, readline_eq_nil, stripNewlines_readline, Nat.pos_iff_ne_zero, ne_eq] at h
    split_ifs at h with hend h1 h2 hv
    · obtain ⟨rfl, rfl⟩ := hend
      simpa [LookAlike] using h.symm
    all_goals obtain ⟨x, hx, rfl⟩ := Option.map_eq_some_iff.mp h
    · refine iff_of_false (by simp) ?_
      rw [LookAlike, h1.2, pieces_eq (by decide) h1.1]
      simp [pieces]
    · refine iff_of_false (by simp) ?_
      rw [LookAlike, h2.2, pieces_eq (by decide) h2.1]
      simp [pieces]
    · rw [lookAlike_cons (by tauto) (by tauto), and_iff_right hv]
      exact ih hx
    · refine iff_of_false (by simp) ?_
      rw [lookAlike_cons (by tauto) (by tauto)]
      exact fun h => hv h.1

lemma exists_mainLoop (line : ℕ) (h : f1.length + f2.length < fuel) :
    ∃ out, mainLoop fuel line f1 f2 = some out := by
  induction fuel generalizing line f1 f2 with
  | zero => omega
  | succ fuel ih =>
    have hl1 := length_readline room f1
    have hl2 := length_readline room f2
    rw [mainLoop]
    split_ifs with hend
    · exact ⟨_, rfl⟩
    all_goals
      have hlt : (readline room f1).2.length + (readline room f2).2.length < fuel := by omega
      obtain ⟨out, ho⟩ := ih (line + 1) hlt
      exact ⟨_, by rw [ho, Option.map_some]⟩

/-- The loop of `diff` ends, and `diff` calls the files identical exactly when they are, if and only
if they are the same or do not look alike. -/
theorem identical_iff (f1 f2 : List Byte) : (∃ fuel out, mainLoop fuel 1 f1 f2 = some out) ∧
    ((Identical f1 f2 ↔ f1 = f2) ↔ (f1 = f2 ∨ ¬ LookAlike f1 f2)) := by
  obtain ⟨out, ho⟩ := exists_mainLoop 1 (Nat.lt_succ_self (f1.length + f2.length))
  have hid : Identical f1 f2 ↔ LookAlike f1 f2 :=
    ⟨fun ⟨_, h⟩ => (mainLoop_eq_nil_iff h).mp rfl,
      fun h => ⟨_, (mainLoop_eq_nil_iff ho).mpr h ▸ ho⟩⟩
  have hrefl : f1 = f2 → LookAlike f1 f2 := fun h => h ▸ List.forall₂_same.mpr fun _ _ => rfl
  exact ⟨⟨_, _, ho⟩, by rw [hid]; tauto⟩

/-- The file `a` without a newline and the file `a` with one are called identical. -/
theorem identical_without_newline : Identical [ch 'a'] [ch 'a', newline] := ⟨3, by decide⟩

end Xv6.Diff
