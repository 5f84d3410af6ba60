import Xv6.Shell

/-! The tokens of a line, and that `gettoken` and `peek` read them off one after the other. -/
namespace Xv6.Shell

open List

inductive Token
  | word (w : Word)
  | less
  | greater
  | append
  | bar
  | amp
  | semi
  | lparen
  | rparen
  deriving DecidableEq, Repr

def Token.code : Token → Byte
  | .word _ => ch 'a'
  | .less => ch '<'
  | .greater => ch '>'
  | .append => ch '+'
  | .bar => ch '|'
  | .amp => ch '&'
  | .semi => ch ';'
  | .lparen => ch '('
  | .rparen => ch ')'

def symbolOf (c : Byte) : Option Token :=
  if c = ch '|' then some .bar
  else if c = ch '(' then some .lparen
  else if c = ch ')' then some .rparen
  else if c = ch ';' then some .semi
  else if c = ch '&' then some .amp
  else if c = ch '<' then some .less
  else none

/-- The tokens of the characters `cs`, which begin at position `i`: symbols, of which `>>` is one,
and the longest words between symbols and whitespace. -/
def tokenize (cs : List Byte) (i : ℕ) : List Token :=
  match cs with
  | [] => []
  | c :: cs =>
      if isWhite c then tokenize cs (i + 1)
      else if c = ch '>' then
        if cs.head? = some (ch '>') then .append :: tokenize cs.tail (i + 2)
        else .greater :: tokenize cs (i + 1)
      else match symbolOf c with
      | some t => t :: tokenize cs (i + 1)
      | none =>
          .word ⟨i, i + 1 + (cs.takeWhile isWordChar).length⟩ ::
            tokenize (cs.dropWhile isWordChar) (i + 1 + (cs.takeWhile isWordChar).length)
termination_by cs.length
decreasing_by
  · simp
  · simp only [length_tail, length_cons]
    omega
  · simp
  · simp
  · simp only [length_cons]
    exact Nat.lt_succ_of_le (length_dropWhile_le _ _)

def tokens (line : List Byte) : List Token := tokenize line 0

def toks (line : List Byte) (s : ℕ) : List Token := tokenize (line.drop s) s

variable {line cs : List Byte} {s i : ℕ} {c : Byte} {p : Byte → Bool}

theorem tokens_eq_toks (line : List Byte) : tokens line = toks line 0 := rfl

theorem scan_eq (p : Byte → Bool) (cs : List Byte) (s : ℕ) :
    scan p cs s = s + (cs.takeWhile p).length := by
  induction cs generalizing s with
  | nil => rfl
  | cons c cs ih =>
    unfold scan
    rw [takeWhile_cons]
    split_ifs with h
    · rw [ih, length_cons]
      omega
    · rfl

theorem drop_skip (line : List Byte) (p : Byte → Bool) (s : ℕ) :
    line.drop (skip line p s) = (line.drop s).dropWhile p := by
  unfold skip
  rw [scan_eq, ← drop_drop]
  generalize line.drop s = cs
  nth_rewrite 2 [← takeWhile_append_dropWhile (p := p) (l := cs)]
  rw [drop_left]

theorem charAt_eq (line : List Byte) (s : ℕ) : charAt line s = (line.drop s).headD 0 := by
  unfold charAt
  rw [headD_eq_head?_getD, head?_drop, getD_eq_getElem?_getD]

theorem tokenize_nil (i : ℕ) : tokenize [] i = [] := by
  rw [tokenize]

lemma tokenize_white (h : isWhite c = true) : tokenize (c :: cs) i = tokenize cs (i + 1) := by
  rw [tokenize, if_pos h]

lemma tokenize_dropWhile (cs : List Byte) (i : ℕ) :
    tokenize (cs.dropWhile isWhite) (i + (cs.takeWhile isWhite).length) = tokenize cs i := by
  induction cs generalizing i with
  | nil => rfl
  | cons c cs ih =>
    by_cases h : isWhite c = true
    · rw [dropWhile_cons_of_pos h, takeWhile_cons_of_pos h, tokenize_white h, ← ih,
        length_cons]
      congr 1
      omega
    · rw [dropWhile_cons_of_neg h, takeWhile_cons_of_neg h]
      rfl

theorem toks_skip (line : List Byte) (s : ℕ) : toks line (skip line isWhite s) = toks line s := by
  unfold toks
  rw [drop_skip, skip, scan_eq, tokenize_dropWhile]

lemma symbolOf_cases (c : Byte) :
    (∃ t, symbolOf c = some t ∧ t.code = c ∧ (∀ w, t ≠ .word w) ∧
      (c = ch '|' ∨ c = ch '(' ∨ c = ch ')' ∨ c = ch ';' ∨ c = ch '&' ∨ c = ch '<')) ∨
    symbolOf c = none ∧
      ¬ (c = ch '|' ∨ c = ch '(' ∨ c = ch ')' ∨ c = ch ';' ∨ c = ch '&' ∨ c = ch '<') := by
  unfold symbolOf
  by_cases h1 : c = ch '|'
  · exact .inl ⟨.bar, if_pos h1, h1.symm, by simp, .inl h1⟩
  by_cases h2 : c = ch '('
  · exact .inl ⟨.lparen, by rw [if_neg h1, if_pos h2], h2.symm, by simp, by simp [h2]⟩
  by_cases h3 : c = ch ')'
  · exact .inl ⟨.rparen, by rw [if_neg h1, if_neg h2, if_pos h3], h3.symm, by simp, by simp [h3]⟩
  by_cases h4 : c = ch ';'
  · exact .inl ⟨.semi, by rw [if_neg h1, if_neg h2, if_neg h3, if_pos h4], h4.symm, by simp,
      by simp [h4]⟩
  by_cases h5 : c = ch '&'
  · exact .inl ⟨.amp, by rw [if_neg h1, if_neg h2, if_neg h3, if_neg h4, if_pos h5], h5.symm,
      by simp, by simp [h5]⟩
  by_cases h6 : c = ch '<'
  · exact .inl ⟨.less, by rw [if_neg h1, if_neg h2, if_neg h3, if_neg h4, if_neg h5, if_pos h6],
      h6.symm, by simp, by simp [h6]⟩
  · refine .inr ⟨?_, by simp [h1, h2, h3, h4, h5, h6]⟩
    rw [if_neg h1, if_neg h2, if_neg h3, if_neg h4, if_neg h5, if_neg h6]

theorem isWordChar_of (hw : isWhite c = false) (hgt : c ≠ ch '>')
    (hs : ¬ (c = ch '|' ∨ c = ch '(' ∨ c = ch ')' ∨ c = ch ';' ∨ c = ch '&' ∨ c = ch '<')) :
    isWordChar c = true := by
  unfold isWordChar
  rw [show whitespace.contains c = false from hw, Bool.not_false, Bool.true_and, Bool.not_eq_true']
  unfold symbols
  simp only [contains_cons, contains_nil, Bool.or_false, Bool.or_eq_false_iff,
    beq_eq_false_iff_ne]
  tauto

theorem head_dropWhile_white {r : List Byte} (h : (line.drop s).dropWhile isWhite = c :: r) :
    isWhite c = false := by
  have hne : (line.drop s).dropWhile isWhite ≠ [] := by simp [h]
  have hhead := head_dropWhile_not isWhite hne
  simpa [h] using hhead

/-- `gettoken` returns the next token, with its piece of the line if it is a word, and leaves the
tokens after it; at the end of the line it returns 0. -/
theorem gettoken_spec (hline : ∀ c ∈ line, c ≠ 0) (s : ℕ) :
    toks line s = [] ∧ (gettoken line s).1 = 0 ∧ toks line (gettoken line s).2.2 = [] ∨
    ∃ t, toks line s = t :: toks line (gettoken line s).2.2 ∧ (gettoken line s).1 = t.code ∧
      ∀ w, t = .word w → (gettoken line s).2.1 = w := by
  have hdrop := drop_skip line isWhite s
  have htoks := toks_skip line s
  unfold gettoken
  generalize skip line isWhite s = s1 at hdrop htoks ⊢
  dsimp only
  rw [charAt_eq, toks_skip, ← htoks]
  have hnext : ∀ k, line.drop (s1 + k) = (line.drop s1).drop k := fun k => by rw [drop_drop]
  rcases hcs : line.drop s1 with _ | ⟨c, r⟩
  · left
    have hend : toks line s1 = [] := by
      rw [toks, hcs, tokenize_nil]
    exact ⟨hend, rfl, hend⟩
  right
  have hmem : c ∈ line := mem_of_mem_drop (i := s1) (by rw [hcs]; exact mem_cons_self)
  have hwhite : isWhite c = false := head_dropWhile_white (hdrop ▸ hcs)
  have htok : toks line s1 = tokenize (c :: r) s1 := by rw [toks, hcs]
  have hone : toks line (s1 + 1) = tokenize r (s1 + 1) := by rw [toks, hnext, hcs, drop_one, tail_cons]
  rw [headD_cons, if_neg (hline c hmem), htok, tokenize, if_neg (by simp [hwhite])]
  by_cases hgt : c = ch '>'
  · -- `>` and `>>`
    have hno : ¬ (c = ch '|' ∨ c = ch '(' ∨ c = ch ')' ∨ c = ch ';' ∨ c = ch '&' ∨ c = ch '<') := by
      rw [hgt]
      decide
    rw [if_neg hno, if_pos hgt, if_pos hgt, charAt_eq, hnext, hcs, drop_one, tail_cons]
    by_cases hgg : r.head? = some (ch '>')
    · have hhead : r.headD 0 = ch '>' := by rw [headD_eq_head?_getD, hgg]; rfl
      have htwo : toks line (s1 + 2) = tokenize r.tail (s1 + 2) := by
        rw [toks, hnext, hcs, drop_succ_cons, drop_one]
      rw [if_pos hhead, if_pos hgg]
      refine ⟨.append, by rw [← htwo], rfl, fun w hw => by cases hw⟩
    · have hhead : r.headD 0 ≠ ch '>' := by
        intro h
        cases r with
        | nil => exact absurd h (by decide)
        | cons d r => exact hgg (congrArg some h)
      rw [if_neg hhead, if_neg hgg]
      exact ⟨.greater, by rw [← hone], hgt, fun w hw => by cases hw⟩
  · rw [if_neg hgt]
    rcases symbolOf_cases c with ⟨t, hsym, hcode, hnw, hcond⟩ | ⟨hsym, hcond⟩
    · rw [if_pos hcond, hsym]
      exact ⟨t, by rw [← hone], hcode.symm, fun w hw => absurd hw (hnw w)⟩
    · -- a word
      have hchar := isWordChar_of hwhite hgt hcond
      have hstop : skip line isWordChar s1 = s1 + 1 + (r.takeWhile isWordChar).length := by
        rw [skip, hcs, scan_eq, takeWhile_cons_of_pos hchar, length_cons]
        omega
      have hrest : toks line (skip line isWordChar s1) =
          tokenize (r.dropWhile isWordChar) (s1 + 1 + (r.takeWhile isWordChar).length) := by
        rw [toks, drop_skip, hcs, dropWhile_cons_of_pos hchar, hstop]
      rw [if_neg hcond, if_neg hgt, hsym]
      refine ⟨.word ⟨s1, s1 + 1 + (r.takeWhile isWordChar).length⟩, by rw [← hrest], rfl, ?_⟩
      intro w hw
      rw [← Token.word.inj hw, hstop]

def Token.among (chars : List Byte) : Token → Bool
  | .word _ => false
  | .append => chars.contains (ch '>')
  | t => chars.contains t.code

theorem peek_spec (hline : ∀ c ∈ line, c ≠ 0) (s : ℕ) {chars : List Byte}
    (hchars : ∀ c ∈ chars, c ∈ symbols) :
    toks line (peek line s chars).2 = toks line s ∧
      (peek line s chars).1 = (toks line s).head?.any (Token.among chars) := by
  have hdrop := drop_skip line isWhite s
  have htoks := toks_skip line s
  unfold peek
  generalize skip line isWhite s = s1 at hdrop htoks ⊢
  refine ⟨htoks, ?_⟩
  dsimp only
  rw [charAt_eq, ← htoks, toks]
  rcases hcs : line.drop s1 with _ | ⟨c, r⟩
  · rw [tokenize_nil]
    rfl
  have hmem : c ∈ line := mem_of_mem_drop (i := s1) (by rw [hcs]; exact mem_cons_self)
  have hwhite : isWhite c = false := head_dropWhile_white (hdrop ▸ hcs)
  rw [headD_cons, tokenize, if_neg (by simp [hwhite]), decide_eq_true (hline c hmem),
    Bool.true_and]
  by_cases hgt : c = ch '>'
  · rw [if_pos hgt, hgt]
    split_ifs <;> rfl
  · rw [if_neg hgt]
    rcases symbolOf_cases c with ⟨t, hsym, hcode, hnw, hcond⟩ | ⟨hsym, hcond⟩
    · have happ : t ≠ .append := by
        rintro rfl
        rw [← hcode] at hcond
        revert hcond
        decide
      rw [hsym]
      cases t with
      | word w => exact absurd rfl (hnw w)
      | append => exact absurd rfl happ
      | _ => rw [← hcode]; rfl
    · rw [hsym]
      have hsymbols : c ∉ symbols := by
        have h := isWordChar_of hwhite hgt hcond
        unfold isWordChar at h
        simp only [Bool.and_eq_true, Bool.not_eq_true', contains_eq_mem, decide_eq_false_iff_not] at h
        exact h.2
      have hnot : c ∉ chars := fun hc => hsymbols (hchars c hc)
      simp [Token.among, hnot]

end Xv6.Shell
