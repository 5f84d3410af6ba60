import Xv6.ShellTokens

/-! The grammar of the shell, and that `parsecmd` accepts it: what it returns is the tree of a
derivation, and it returns one for every line that has a derivation. -/
namespace Xv6.Shell

open List

inductive Op
  | less
  | greater
  | append
  deriving DecidableEq, Repr

def Op.token : Op → Token
  | .less => .less
  | .greater => .greater
  | .append => .append

structure Redir where
  op : Op
  file : Word

def Redir.tokens (r : Redir) : List Token := [r.op.token, .word r.file]

def Redir.wrap (c : Cmd) (r : Redir) : Cmd := redircmd r.op.token.code c r.file

inductive Item
  | word (w : Word)
  | redir (r : Redir)

def Item.tokens : Item → List Token
  | .word w => [.word w]
  | .redir r => r.tokens

def Item.asWord : Item → Option Word
  | .word w => some w
  | .redir _ => none

def Item.asRedir : Item → Option Redir
  | .word _ => none
  | .redir r => some r

def simpleCmd (items : List Item) : Cmd :=
  (items.filterMap Item.asRedir).foldl Redir.wrap (.exec (items.filterMap Item.asWord))

def Cmd.backs (c : Cmd) : ℕ → Cmd
  | 0 => c
  | n + 1 => Cmd.backs (.back c) n

mutual

inductive Line : List Token → Cmd → Prop
  | last {ts : List Token} {c : Cmd} (n : ℕ) : Pipe ts c →
      Line (ts ++ replicate n .amp) (c.backs n)
  | more {ts us : List Token} {c d : Cmd} (n : ℕ) : Pipe ts c → Line us d →
      Line (ts ++ (replicate n .amp ++ .semi :: us)) (.list (c.backs n) d)

inductive Pipe : List Token → Cmd → Prop
  | last {ts : List Token} {c : Cmd} : Exec ts c → Pipe ts c
  | more {ts us : List Token} {c d : Cmd} : Exec ts c → Pipe us d →
      Pipe (ts ++ .bar :: us) (.pipe c d)

/-- `exec := '(' line ')' redirs | (redir | word)*`, with fewer words than `argv` has places. -/
inductive Exec : List Token → Cmd → Prop
  | block {ts : List Token} {c : Cmd} (rs : List Redir) : Line ts c →
      Exec (.lparen :: (ts ++ .rparen :: rs.flatMap Redir.tokens)) (rs.foldl Redir.wrap c)
  | simple (items : List Item) : (items.filterMap Item.asWord).length ≤ maxargs - 1 →
      Exec (items.flatMap Item.tokens) (simpleCmd items)

end

def Item.apply (c : Cmd) : Item → Cmd
  | .word w => c.addArg w
  | .redir r => r.wrap c

lemma Redir.addArg_wrap (c : Cmd) (r : Redir) (w : Word) :
    (r.wrap c).addArg w = r.wrap (c.addArg w) := by
  obtain ⟨op, file⟩ := r
  cases op <;> rfl

lemma addArg_foldl (rs : List Redir) (c : Cmd) (w : Word) :
    (rs.foldl Redir.wrap c).addArg w = rs.foldl Redir.wrap (c.addArg w) := by
  induction rs generalizing c with
  | nil => rfl
  | cons r rs ih => rw [foldl_cons, ih, Redir.addArg_wrap, foldl_cons]

lemma foldl_apply (items : List Item) (rs : List Redir) (ws : List Word) :
    items.foldl Item.apply (rs.foldl Redir.wrap (.exec ws)) =
      (rs ++ items.filterMap Item.asRedir).foldl Redir.wrap
        (.exec (ws ++ items.filterMap Item.asWord)) := by
  induction items generalizing rs ws with
  | nil => simp
  | cons item items ih =>
    cases item with
    | word w =>
      have happly : Item.apply (rs.foldl Redir.wrap (.exec ws)) (.word w) =
          rs.foldl Redir.wrap (.exec (ws ++ [w])) := addArg_foldl rs (.exec ws) w
      rw [foldl_cons, happly, ih, filterMap_cons_none (f := Item.asRedir) rfl,
        filterMap_cons_some (f := Item.asWord) rfl, append_assoc, singleton_append]
    | redir r =>
      have happly : Item.apply (rs.foldl Redir.wrap (.exec ws)) (.redir r) =
          (rs ++ [r]).foldl Redir.wrap (.exec ws) := by
        rw [foldl_append]
        rfl
      rw [foldl_cons, happly, ih, filterMap_cons_some (f := Item.asRedir) rfl,
        filterMap_cons_none (f := Item.asWord) rfl, append_assoc, singleton_append]

lemma foldl_apply_exec (items : List Item) :
    items.foldl Item.apply (.exec []) = simpleCmd items := by
  rw [simpleCmd]
  simpa using foldl_apply items [] []

lemma flatMap_redirs (rs : List Redir) :
    (rs.map Item.redir).flatMap Item.tokens = rs.flatMap Redir.tokens := by
  rw [flatMap_map]
  rfl

lemma filterMap_redirs (rs : List Redir) : (rs.map Item.redir).filterMap Item.asWord = [] := by
  rw [filterMap_map]
  exact filterMap_eq_nil_iff.mpr fun _ _ => rfl

lemma foldl_redirs (rs : List Redir) (c : Cmd) :
    (rs.map Item.redir).foldl Item.apply c = rs.foldl Redir.wrap c := by
  rw [foldl_map]
  rfl

def At (line : List Byte) (s : ℕ) (ts : List Token) : Prop := s ≤ line.length ∧ toks line s = ts

section lexer
variable {line : List Byte} {s : ℕ} {t : Token} {ts : List Token}

lemma skip_le (p : Byte → Bool) (hs : s ≤ line.length) : skip line p s ≤ line.length := by
  unfold skip
  have hlen := (takeWhile_sublist p (l := line.drop s)).length_le
  rw [length_drop] at hlen
  rw [scan_eq]
  omega

lemma lt_of_charAt (h : charAt line s ≠ 0) : s < line.length := by
  by_contra hge
  exact h (getD_eq_default _ _ (not_lt.mp hge))

lemma gettoken_le (hs : s ≤ line.length) : (gettoken line s).2.2 ≤ line.length := by
  unfold gettoken
  dsimp only
  refine skip_le _ ?_
  have hs1 := skip_le isWhite hs
  generalize skip line isWhite s = s1 at hs1 ⊢
  by_cases h0 : charAt line s1 = 0
  · rw [if_pos h0]
    exact hs1
  have hlt := lt_of_charAt h0
  rw [if_neg h0]
  split_ifs with h1 h2 h3
  · exact hlt
  · have hnz : charAt line (s1 + 1) ≠ 0 := by
      rw [h3]
      decide
    exact lt_of_charAt hnz
  · exact hlt
  · exact skip_le _ hs1

lemma code_ne_zero (t : Token) : t.code ≠ 0 := by
  cases t with
  | word w => exact (by decide : ch 'a' ≠ 0)
  | _ => decide

lemma code_eq_a : t.code = ch 'a' ↔ ∃ w, t = .word w := by
  cases t with
  | word w => exact iff_of_true rfl ⟨w, rfl⟩
  | _ => exact iff_of_false (by decide) (by rintro ⟨w, hw⟩; cases hw)

variable (hline : ∀ c ∈ line, c ≠ 0)
include hline

lemma At.gettoken_cons (h : At line s (t :: ts)) :
    (gettoken line s).1 = t.code ∧ At line (gettoken line s).2.2 ts ∧
      ∀ w, t = .word w → (gettoken line s).2.1 = w := by
  rcases gettoken_spec hline s with ⟨hnil, _⟩ | ⟨t', hcons, hcode, hword⟩
  · rw [h.2] at hnil
    cases hnil
  · rw [h.2] at hcons
    obtain ⟨rfl, hts⟩ := cons.inj hcons
    exact ⟨hcode, ⟨gettoken_le h.1, hts.symm⟩, hword⟩

lemma At.gettoken_word {w : Word} (h : At line s (.word w :: ts)) :
    (gettoken line s).1 = ch 'a' ∧ (gettoken line s).2.1 = w ∧ At line (gettoken line s).2.2 ts := by
  obtain ⟨hcode, hat, hword⟩ := h.gettoken_cons hline
  exact ⟨hcode, hword w rfl, hat⟩

lemma At.gettoken_nil (h : At line s []) :
    (gettoken line s).1 = 0 ∧ At line (gettoken line s).2.2 [] := by
  rcases gettoken_spec hline s with ⟨_, hcode, hnil⟩ | ⟨t', hcons, _⟩
  · exact ⟨hcode, gettoken_le h.1, hnil⟩
  · rw [h.2] at hcons
    cases hcons

lemma At.peek (h : At line s ts) (chars : List Byte) (hchars : ∀ c ∈ chars, c ∈ symbols) :
    (peek line s chars).1 = ts.head?.any (Token.among chars) ∧ At line (peek line s chars).2 ts := by
  obtain ⟨htoks, hval⟩ := peek_spec hline s hchars
  rw [h.2] at htoks hval
  exact ⟨hval, skip_le _ h.1, htoks⟩

end lexer

/-- How a part of the parser ends: with `P`, or with one of the panics of the source. -/
def Outcome (P : Cmd → ℕ → Prop) : Parse → Prop
  | .ok r => P r.1 r.2
  | .error e => e ≠ .outOfFuel ∧ e ≠ .overrun

section sound
variable {line : List Byte} {P Q : Cmd → ℕ → Prop} {x : Parse} {f : Cmd × ℕ → Parse} {s fuel argc : ℕ}
  {ts : List Token} {c ret : Cmd}

lemma Outcome.bind (h : Outcome P x) (hf : ∀ c s, P c s → Outcome Q (f (c, s))) :
    Outcome Q (x >>= f) := by
  cases x with
  | error e => exact h
  | ok r => exact hf r.1 r.2 h

lemma Outcome.mono (h : Outcome P x) (hf : ∀ c s, P c s → Q c s) : Outcome Q x := by
  cases x with
  | error e => exact h
  | ok r => exact hf r.1 r.2 h

lemma among_redir {t : Token} (h : t.among [ch '<', ch '>'] = true) : ∃ op : Op, op.token = t := by
  cases t with
  | less => exact ⟨.less, rfl⟩
  | greater => exact ⟨.greater, rfl⟩
  | append => exact ⟨.append, rfl⟩
  | word w => cases h
  | _ => exact absurd h (by decide)

lemma eq_of_among {t t' : Token} (h : t.among [t'.code] = true) (h' : t'.code ≠ ch '>')
    (hw : ∀ w, t' ≠ .word w) : t = t' := by
  cases t with
  | word w => cases h
  | _ =>
    cases t' with
    | word w => exact absurd rfl (hw w)
    | _ => first | rfl | exact absurd h (by decide) | exact absurd rfl h'

variable (hline : ∀ c ∈ line, c ≠ 0)
include hline

section
variable (h : At line s ts) (hfuel : ts.length + 1 ≤ fuel)
include h hfuel

lemma parseredirs_sound :
    Outcome (fun c' s' => ∃ rs : List Redir, ∃ us, ts = rs.flatMap Redir.tokens ++ us ∧
      At line s' us ∧ c' = rs.foldl Redir.wrap c) (parseredirs line fuel c s) := by
  induction fuel generalizing c s ts with
  | zero => omega
  | succ fuel ih =>
    obtain ⟨hpeek, hat⟩ := h.peek hline [ch '<', ch '>'] (by decide)
    unfold parseredirs
    dsimp only
    by_cases hp : (peek line s [ch '<', ch '>']).1 = true
    swap
    · rw [if_neg hp]
      exact ⟨[], ts, rfl, hat, rfl⟩
    rw [if_pos hp]
    rw [hp] at hpeek
    cases ts with
    | nil => cases hpeek
    | cons t ts =>
      obtain ⟨op, rfl⟩ := among_redir hpeek.symm
      obtain ⟨hcode, hat1, _⟩ := hat.gettoken_cons hline
      rw [hcode]
      generalize (gettoken line (peek line s [ch '<', ch '>']).2).2.2 = s1 at hat1 ⊢
      cases ts with
      | nil =>
        rw [(hat1.gettoken_nil hline).1, if_pos (by decide)]
        exact ⟨by decide, by decide⟩
      | cons t ts =>
        obtain ⟨hcode1, hat2, hword⟩ := hat1.gettoken_cons hline
        rw [hcode1]
        by_cases ha : t.code = ch 'a'
        · obtain ⟨w, rfl⟩ := code_eq_a.mp ha
          rw [if_neg (not_not.mpr ha), hword w rfl]
          simp only [length_cons] at hfuel
          refine (ih hat2 (by omega)).mono ?_
          rintro c' s' ⟨rs, us, hts, hat3, hc⟩
          refine ⟨⟨op, w⟩ :: rs, us, ?_, hat3, hc⟩
          rw [hts, flatMap_cons, append_assoc]
          rfl
        · rw [if_pos ha]
          exact ⟨by decide, by decide⟩

lemma parseargs_sound (hargc : argc < maxargs) :
    Outcome (fun c' s' => ∃ items : List Item, ∃ us, ts = items.flatMap Item.tokens ++ us ∧
      At line s' us ∧ c' = items.foldl Item.apply ret ∧
      argc + (items.filterMap Item.asWord).length < maxargs) (parseargs line fuel ret argc s) := by
  induction fuel generalizing ret argc s ts with
  | zero => omega
  | succ fuel ih =>
    obtain ⟨hpeek, hat⟩ := h.peek hline [ch '|', ch ')', ch '&', ch ';'] (by decide)
    unfold parseargs
    dsimp only
    split_ifs with hp hfull htok hfull' hword hfull'' hmany
    · exact absurd hargc (not_lt.mpr hfull)
    · exact ⟨[], ts, rfl, hat, rfl, hargc⟩
    · exact absurd hargc (not_lt.mpr hfull')
    · cases ts with
      | nil => exact ⟨[], [], rfl, (hat.gettoken_nil hline).2, rfl, hargc⟩
      | cons t ts =>
        rw [(hat.gettoken_cons hline).1] at htok
        exact absurd htok (code_ne_zero t)
    · exact ⟨by decide, by decide⟩
    · exact absurd hargc (not_lt.mpr hfull'')
    · exact ⟨by decide, by decide⟩
    · cases ts with
      | nil => exact absurd (hat.gettoken_nil hline).1 htok
      | cons t ts =>
        obtain ⟨hcode, hat1, hget⟩ := hat.gettoken_cons hline
        rw [not_not, hcode] at hword
        obtain ⟨w, rfl⟩ := code_eq_a.mp hword
        rw [hget w rfl]
        rw [length_cons] at hfuel
        refine (parseredirs_sound hline hat1 (by omega)).bind ?_
        rintro c1 s1 ⟨rs, us, hts, hat2, rfl⟩
        have hus : us.length ≤ ts.length := by
          rw [hts, length_append]
          omega
        refine (ih hat2 (by omega) (by omega)).mono ?_
        rintro c' s' ⟨items, vs, hus', hat3, rfl, hcount⟩
        refine ⟨.word w :: (rs.map Item.redir ++ items), vs, ?_, hat3, ?_, ?_⟩
        · rw [hts, hus', flatMap_cons, flatMap_append, flatMap_redirs, append_assoc,
            append_assoc]
          rfl
        · rw [foldl_cons, foldl_append, foldl_redirs]
          rfl
        · rw [filterMap_cons_some (f := Item.asWord) rfl, filterMap_append,
            filterMap_redirs, nil_append, length_cons]
          omega

lemma parseback_sound :
    Outcome (fun c' s' => ∃ n us, ts = replicate n .amp ++ us ∧ At line s' us ∧ c' = c.backs n)
      (parseback line fuel c s) := by
  induction fuel generalizing c s ts with
  | zero => omega
  | succ fuel ih =>
    obtain ⟨hpeek, hat⟩ := h.peek hline [ch '&'] (by decide)
    unfold parseback
    dsimp only
    split_ifs with hp
    · rw [hp] at hpeek
      cases ts with
      | nil => cases hpeek
      | cons t ts =>
        obtain rfl : t = .amp := eq_of_among hpeek.symm (by decide) (by simp)
        obtain ⟨_, hat1, _⟩ := hat.gettoken_cons hline
        rw [length_cons] at hfuel
        refine (ih hat1 (by omega)).mono ?_
        rintro c' s' ⟨n, us, hts, hat2, hc⟩
        exact ⟨n + 1, us, by rw [hts, replicate_succ, cons_append], hat2, hc⟩
    · exact ⟨0, ts, rfl, hat, rfl⟩

end

def Derived (line : List Byte) (G : List Token → Cmd → Prop) (ts : List Token) (c : Cmd) (s : ℕ) :
    Prop :=
  ∃ us vs, ts = us ++ vs ∧ At line s vs ∧ G us c

omit hline in
lemma length_le_of_append {us vs : List Token} (h : ts = us ++ vs) : vs.length ≤ ts.length := by
  rw [h, length_append]
  omega

/-- What holds of the four functions of the descent. The fuel pays for every token four times, once
for each function that may be on the way to it. -/
structure SoundAt (line : List Byte) (fuel : ℕ) : Prop where
  ofLine : ∀ {s ts}, At line s ts → 4 * ts.length + 4 ≤ fuel →
    Outcome (Derived line Line ts) (parseline line fuel s)
  ofPipe : ∀ {s ts}, At line s ts → 4 * ts.length + 3 ≤ fuel →
    Outcome (Derived line Pipe ts) (parsepipe line fuel s)
  ofExec : ∀ {s ts}, At line s ts → 4 * ts.length + 2 ≤ fuel →
    Outcome (Derived line Exec ts) (parseexec line fuel s)
  ofBlock : ∀ {s ts}, At line s (.lparen :: ts) → 4 * ts.length + 5 ≤ fuel →
    Outcome (Derived line Exec (.lparen :: ts)) (parseblock line fuel s)

section
variable (ih : SoundAt line fuel) (h : At line s ts)
include ih h

lemma SoundAt.ofLine_succ (hfuel : 4 * ts.length + 4 ≤ fuel + 1) :
    Outcome (Derived line Line ts) (parseline line (fuel + 1) s) := by
  unfold parseline
  refine (ih.ofPipe h (by omega)).bind ?_
  rintro c s1 ⟨us, vs, hts, hat1, hpipe⟩
  have hlen := length_le_of_append hts
  refine (parseback_sound hline hat1 (by omega)).bind ?_
  rintro c' s2 ⟨n, ws, hvs, hat2, rfl⟩
  have hlen' := length_le_of_append hvs
  obtain ⟨hpeek, hat3⟩ := hat2.peek hline [ch ';'] (by decide)
  dsimp only
  split_ifs with hp
  · rw [hp] at hpeek
    cases ws with
    | nil => cases hpeek
    | cons t ws =>
      obtain rfl : t = .semi := eq_of_among hpeek.symm (by decide) (by simp)
      rw [length_cons] at hlen'
      refine (ih.ofLine (hat3.gettoken_cons hline).2.1 (by omega)).bind ?_
      rintro d s4 ⟨xs, ys, hws, hat4, hrest⟩
      refine ⟨us ++ (replicate n .amp ++ .semi :: xs), ys, ?_, hat4, .more n hpipe hrest⟩
      rw [hts, hvs, hws]
      simp only [append_assoc, cons_append]
  · refine ⟨us ++ replicate n .amp, ws, ?_, hat3, .last n hpipe⟩
    rw [hts, hvs, append_assoc]

lemma SoundAt.ofPipe_succ (hfuel : 4 * ts.length + 3 ≤ fuel + 1) :
    Outcome (Derived line Pipe ts) (parsepipe line (fuel + 1) s) := by
  unfold parsepipe
  refine (ih.ofExec h (by omega)).bind ?_
  rintro c s1 ⟨us, vs, hts, hat1, hexec⟩
  have hlen := length_le_of_append hts
  obtain ⟨hpeek, hat2⟩ := hat1.peek hline [ch '|'] (by decide)
  dsimp only
  split_ifs with hp
  · rw [hp] at hpeek
    cases vs with
    | nil => cases hpeek
    | cons t vs =>
      obtain rfl : t = .bar := eq_of_among hpeek.symm (by decide) (by simp)
      rw [length_cons] at hlen
      refine (ih.ofPipe (hat2.gettoken_cons hline).2.1 (by omega)).bind ?_
      rintro d s3 ⟨xs, ys, hvs, hat3, hrest⟩
      refine ⟨us ++ .bar :: xs, ys, ?_, hat3, .more hexec hrest⟩
      rw [hts, hvs, append_assoc, cons_append]
  · exact ⟨us, vs, hts, hat2, .last hexec⟩

lemma SoundAt.ofExec_succ (hfuel : 4 * ts.length + 2 ≤ fuel + 1) :
    Outcome (Derived line Exec ts) (parseexec line (fuel + 1) s) := by
  obtain ⟨hpeek, hat⟩ := h.peek hline [ch '('] (by decide)
  unfold parseexec
  dsimp only
  split_ifs with hp
  · rw [hp] at hpeek
    cases ts with
    | nil => cases hpeek
    | cons t ts =>
      obtain rfl : t = .lparen := eq_of_among hpeek.symm (by decide) (by simp)
      rw [length_cons] at hfuel
      exact ih.ofBlock hat (by omega)
  · refine (parseredirs_sound hline hat (by omega)).bind ?_
    rintro c s1 ⟨rs, us, hts, hat1, rfl⟩
    have hlen := length_le_of_append hts
    refine (parseargs_sound hline hat1 (by omega) (by decide)).mono ?_
    rintro c' s' ⟨items, vs, hus, hat2, rfl, hcount⟩
    refine ⟨(rs.map Item.redir ++ items).flatMap Item.tokens, vs, ?_, hat2, ?_⟩
    · rw [hts, hus, flatMap_append, flatMap_redirs, append_assoc]
    · rw [← foldl_redirs, ← foldl_append, foldl_apply_exec]
      refine .simple _ ?_
      rw [filterMap_append, filterMap_redirs, nil_append]
      omega

end

lemma SoundAt.ofBlock_succ (ih : SoundAt line fuel) (h : At line s (.lparen :: ts))
    (hfuel : 4 * ts.length + 5 ≤ fuel + 1) :
    Outcome (Derived line Exec (.lparen :: ts)) (parseblock line (fuel + 1) s) := by
  obtain ⟨hpeek, hat⟩ := h.peek hline [ch '('] (by decide)
  unfold parseblock
  dsimp only
  rw [if_pos (show (peek line s [ch '(']).1 = true from hpeek)]
  refine (ih.ofLine (hat.gettoken_cons hline).2.1 (by omega)).bind ?_
  rintro c s1 ⟨us, vs, hts, hat1, hlineDer⟩
  have hlen := length_le_of_append hts
  obtain ⟨hpeek1, hat2⟩ := hat1.peek hline [ch ')'] (by decide)
  dsimp only
  split_ifs with hp
  · rw [hp] at hpeek1
    cases vs with
    | nil => cases hpeek1
    | cons t vs =>
      obtain rfl : t = .rparen := eq_of_among hpeek1.symm (by decide) (by simp)
      rw [length_cons] at hlen
      refine (parseredirs_sound hline (hat2.gettoken_cons hline).2.1 (by omega)).mono ?_
      rintro c' s' ⟨rs, ws, hvs, hat3, rfl⟩
      refine ⟨.lparen :: (us ++ .rparen :: rs.flatMap Redir.tokens), ws, ?_, hat3,
        .block rs hlineDer⟩
      rw [hts, hvs]
      simp only [append_assoc, cons_append]
  · exact ⟨by decide, by decide⟩

lemma soundAt (fuel : ℕ) : SoundAt line fuel := by
  induction fuel with
  | zero => exact ⟨fun _ h => by omega, fun _ h => by omega, fun _ h => by omega, fun _ h => by omega⟩
  | succ fuel ih =>
    exact ⟨ih.ofLine_succ hline, ih.ofPipe_succ hline, ih.ofExec_succ hline,
      ih.ofBlock_succ hline⟩

end sound

def EndsAt (stops rest : List Token) : Prop := ∀ t ∈ rest.head?, t ∈ stops

section complete
variable {line : List Byte} {s : ℕ} {rest : List Token} {c ret : Cmd}

def lineStops : List Token := [.rparen]

def pipeStops : List Token := [.amp, .semi, .rparen]

def execStops : List Token := [.bar, .amp, .semi, .rparen]

/-- Wherever the tokens `ts` stand in the line, with one of `stops` after them, `parse` takes them and
makes `c` of them. -/
def Parses (line : List Byte) (parse : ℕ → ℕ → Parse) (stops : List Token) (k : ℕ) (ts : List Token)
    (c : Cmd) : Prop :=
  ∀ ⦃s rest⦄ (fuel : ℕ), At line s (ts ++ rest) → EndsAt stops rest →
    4 * (ts ++ rest).length + k ≤ fuel + 1 →
    ∃ s', parse (fuel + 1) s = .ok (c, s') ∧ At line s' rest

lemma ok_bind (r : Cmd × ℕ) (f : Cmd × ℕ → Parse) : ((.ok r : Parse) >>= f) = f r := rfl

lemma EndsAt.mono {stops stops' : List Token} (h : EndsAt stops rest) (hsub : stops ⊆ stops') :
    EndsAt stops' rest := fun t ht => hsub (h t ht)

lemma EndsAt.any_eq {stops : List Token} (h : EndsAt stops rest) {chars : List Byte} {b : Bool}
    (hb : ∀ t ∈ stops, t.among chars = b) (hne : rest ≠ []) :
    rest.head?.any (Token.among chars) = b := by
  cases rest with
  | nil => exact absurd rfl hne
  | cons t rest => exact hb t (h t rfl)

lemma EndsAt.any_eq_false {stops : List Token} (h : EndsAt stops rest) {chars : List Byte}
    (hb : ∀ t ∈ stops, t.among chars = false) : rest.head?.any (Token.among chars) = false := by
  cases rest with
  | nil => rfl
  | cons t rest => exact hb t (h t rfl)

lemma exists_redirs (items : List Item) : ∃ (rs : List Redir) (tail : List Item),
    items = rs.map Item.redir ++ tail ∧ (tail = [] ∨ ∃ w tail', tail = .word w :: tail') := by
  induction items with
  | nil => exact ⟨[], [], rfl, .inl rfl⟩
  | cons item items ih =>
    cases item with
    | word w => exact ⟨[], _, rfl, .inr ⟨w, items, rfl⟩⟩
    | redir r =>
      obtain ⟨rs, tail, rfl, htail⟩ := ih
      exact ⟨r :: rs, tail, rfl, htail⟩

variable (hline : ∀ c ∈ line, c ≠ 0)
include hline

lemma parseredirs_complete (rs : List Redir) (fuel : ℕ)
    (h : At line s (rs.flatMap Redir.tokens ++ rest))
    (hrest : rest.head?.any (Token.among [ch '<', ch '>']) = false)
    (hfuel : (rs.flatMap Redir.tokens ++ rest).length + 1 ≤ fuel) :
    ∃ s', parseredirs line fuel c s = .ok (rs.foldl Redir.wrap c, s') ∧ At line s' rest := by
  induction rs generalizing c s fuel with
  | nil =>
    obtain ⟨fuel, rfl⟩ : ∃ n, fuel = n + 1 := ⟨fuel - 1, by omega⟩
    obtain ⟨hpeek, hat⟩ := h.peek hline [ch '<', ch '>'] (by decide)
    have hp : (peek line s [ch '<', ch '>']).1 = false := hpeek.trans hrest
    unfold parseredirs
    dsimp only
    rw [hp, if_neg Bool.false_ne_true]
    exact ⟨_, rfl, hat⟩
  | cons r rs ih =>
    obtain ⟨fuel, rfl⟩ : ∃ n, fuel = n + 1 := ⟨fuel - 1, by omega⟩
    have htokens : (r :: rs).flatMap Redir.tokens ++ rest =
        r.op.token :: .word r.file :: (rs.flatMap Redir.tokens ++ rest) := rfl
    rw [htokens] at h hfuel
    rw [length_cons, length_cons] at hfuel
    obtain ⟨hpeek, hat⟩ := h.peek hline [ch '<', ch '>'] (by decide)
    obtain ⟨hcode, hat1, -⟩ := hat.gettoken_cons hline
    obtain ⟨hfile, hword, hat2⟩ := hat1.gettoken_word hline
    have hp : (peek line s [ch '<', ch '>']).1 = true := by
      rw [hpeek]
      cases r.op <;> rfl
    unfold parseredirs
    dsimp only
    rw [if_pos hp, if_neg (not_not.mpr hfile), hcode, hword]
    exact ih fuel hat2 (by omega)

/-- The loop of `parseexec`, entered with a word ahead or at the end of the command. -/
lemma parseargs_complete (fuel argc : ℕ) (ret : Cmd) {tail : List Item}
    (htail : tail = [] ∨ ∃ w tail', tail = .word w :: tail')
    (h : At line s (tail.flatMap Item.tokens ++ rest)) (hrest : EndsAt execStops rest)
    (hfuel : (tail.flatMap Item.tokens ++ rest).length + 1 ≤ fuel)
    (hcount : argc + (tail.filterMap Item.asWord).length < maxargs) :
    ∃ s', parseargs line fuel ret argc s = .ok (tail.foldl Item.apply ret, s') ∧
      At line s' rest := by
  induction fuel generalizing tail ret argc s with
  | zero => omega
  | succ fuel ih =>
    obtain ⟨hpeek, hat⟩ := h.peek hline [ch '|', ch ')', ch '&', ch ';'] (by decide)
    unfold parseargs
    dsimp only
    have hroom : ¬ maxargs ≤ argc := by omega
    rcases htail with rfl | ⟨w, items, rfl⟩
    · cases rest with
      | nil =>
        obtain ⟨hcode, hat1⟩ := hat.gettoken_nil hline
        rw [hpeek, if_neg (by exact Bool.false_ne_true), if_pos hcode, if_neg hroom]
        exact ⟨_, rfl, hat1⟩
      | cons t rest =>
        have hp := hpeek.trans (hrest.any_eq (b := true) (by decide) (by simp))
        rw [if_pos hp, if_neg hroom]
        exact ⟨_, rfl, hat⟩
    · obtain ⟨rs, tail, rfl, htail⟩ := exists_redirs items
      have htokens : (Item.word w :: (rs.map Item.redir ++ tail)).flatMap Item.tokens ++ rest =
          .word w :: (rs.flatMap Redir.tokens ++ (tail.flatMap Item.tokens ++ rest)) := by
        rw [flatMap_cons, flatMap_append, flatMap_redirs, append_assoc,
          append_assoc]
        rfl
      rw [htokens] at hpeek hat hfuel
      rw [length_cons] at hfuel
      rw [filterMap_cons_some (f := Item.asWord) rfl, filterMap_append, filterMap_redirs,
        nil_append, length_cons] at hcount
      obtain ⟨hcode, hword, hat1⟩ := hat.gettoken_word hline
      rw [hpeek, if_neg (by exact Bool.false_ne_true), if_neg (by rw [hcode]; decide),
        if_neg (not_not.mpr hcode), if_neg hroom, if_neg (by omega), hword]
      have hhead : (tail.flatMap Item.tokens ++ rest).head?.any (Token.among [ch '<', ch '>']) = false := by
        rcases htail with rfl | ⟨w', tail', rfl⟩
        · exact hrest.any_eq_false (by decide)
        · rfl
      have hlen : (tail.flatMap Item.tokens ++ rest).length ≤
          (rs.flatMap Redir.tokens ++ (tail.flatMap Item.tokens ++ rest)).length :=
        length_le_of_append rfl
      obtain ⟨s1, hredirs, hat2⟩ :=
        parseredirs_complete hline (c := ret.addArg w) rs fuel hat1 hhead (by omega)
      obtain ⟨s2, hargs, hat3⟩ := ih (argc + 1) _ htail hat2 (by omega) (by omega)
      refine ⟨s2, ?_, hat3⟩
      rw [hredirs, foldl_cons, foldl_append, foldl_redirs]
      exact hargs

lemma parseback_complete (n fuel : ℕ) (h : At line s (replicate n .amp ++ rest))
    (hrest : rest.head?.any (Token.among [ch '&']) = false)
    (hfuel : (replicate n Token.amp ++ rest).length + 1 ≤ fuel) :
    ∃ s', parseback line fuel c s = .ok (c.backs n, s') ∧ At line s' rest := by
  induction n generalizing c s fuel with
  | zero =>
    obtain ⟨fuel, rfl⟩ : ∃ n, fuel = n + 1 := ⟨fuel - 1, by omega⟩
    obtain ⟨hpeek, hat⟩ := h.peek hline [ch '&'] (by decide)
    have hp : (peek line s [ch '&']).1 = false := hpeek.trans hrest
    unfold parseback
    dsimp only
    rw [hp, if_neg Bool.false_ne_true]
    exact ⟨_, rfl, hat⟩
  | succ n ih =>
    obtain ⟨fuel, rfl⟩ : ∃ n, fuel = n + 1 := ⟨fuel - 1, by omega⟩
    rw [replicate_succ, cons_append] at h hfuel
    rw [length_cons] at hfuel
    obtain ⟨hpeek, hat⟩ := h.peek hline [ch '&'] (by decide)
    have hp : (peek line s [ch '&']).1 = true := hpeek
    unfold parseback
    dsimp only
    rw [if_pos hp]
    exact ih fuel (hat.gettoken_cons hline).2.1 (by omega)

lemma parses_simple (items : List Item)
    (hcount : (items.filterMap Item.asWord).length ≤ maxargs - 1) :
    Parses line (parseexec line) execStops 2 (items.flatMap Item.tokens) (simpleCmd items) := by
  intro s rest fuel h hrest hfuel
  obtain ⟨rs, tail, rfl, htail⟩ := exists_redirs items
  rw [flatMap_append, flatMap_redirs, append_assoc] at h hfuel
  have hhead (chars : List Byte) (hchars : ∀ t ∈ execStops, t.among chars = false) :
      (tail.flatMap Item.tokens ++ rest).head?.any (Token.among chars) = false := by
    rcases htail with rfl | ⟨w', tail', rfl⟩
    · exact hrest.any_eq_false hchars
    · rfl
  obtain ⟨hpeek, hat⟩ := h.peek hline [ch '('] (by decide)
  have hp : (peek line s [ch '(']).1 = false := by
    rw [hpeek]
    cases rs with
    | nil => exact hhead [ch '('] (by decide)
    | cons r rs =>
      obtain ⟨op, file⟩ := r
      cases op <;> rfl
  have hlen : (tail.flatMap Item.tokens ++ rest).length ≤
      (rs.flatMap Redir.tokens ++ (tail.flatMap Item.tokens ++ rest)).length :=
    length_le_of_append rfl
  obtain ⟨s1, hredirs, hat1⟩ := parseredirs_complete hline (c := .exec []) rs fuel hat
    (hhead [ch '<', ch '>'] (by decide)) (by omega)
  have hwords : 0 + (tail.filterMap Item.asWord).length < maxargs := by
    rw [filterMap_append, filterMap_redirs, nil_append] at hcount
    have hmax : maxargs - 1 < maxargs := by decide
    omega
  obtain ⟨s2, hargs, hat2⟩ :=
    parseargs_complete hline fuel 0 (rs.foldl Redir.wrap (.exec [])) htail hat1 hrest (by omega) hwords
  refine ⟨s2, ?_, hat2⟩
  unfold parseexec
  dsimp only
  rw [hp, if_neg Bool.false_ne_true, hredirs, ← foldl_apply_exec, foldl_append, foldl_redirs]
  exact hargs

lemma parses_block {ts : List Token} (rs : List Redir)
    (hder : Parses line (parseline line) lineStops 4 ts c) :
    Parses line (parseexec line) execStops 2 (.lparen :: (ts ++ .rparen :: rs.flatMap Redir.tokens))
      (rs.foldl Redir.wrap c) := by
  intro s rest fuel h hrest hfuel
  have htokens : Token.lparen :: (ts ++ .rparen :: rs.flatMap Redir.tokens) ++ rest =
      .lparen :: (ts ++ .rparen :: (rs.flatMap Redir.tokens ++ rest)) := by
    simp only [cons_append, append_assoc]
  rw [htokens] at h hfuel
  rw [length_cons] at hfuel
  have hlen : (Token.rparen :: (rs.flatMap Redir.tokens ++ rest)).length ≤
      (ts ++ .rparen :: (rs.flatMap Redir.tokens ++ rest)).length := length_le_of_append rfl
  rw [length_cons] at hlen
  obtain ⟨fuel, rfl⟩ : ∃ n, fuel = n + 2 := ⟨fuel - 2, by omega⟩
  obtain ⟨hpeek, hat⟩ := h.peek hline [ch '('] (by decide)
  have hp : (peek line s [ch '(']).1 = true := hpeek
  obtain ⟨hpeek1, hat1⟩ := hat.peek hline [ch '('] (by decide)
  have hp1 : (peek line (peek line s [ch '(']).2 [ch '(']).1 = true := hpeek1
  obtain ⟨s2, hinner, hat2⟩ := hder fuel (hat1.gettoken_cons hline).2.1
    (by rintro t ⟨⟩; exact mem_cons_self) (by omega)
  obtain ⟨hpeek3, hat3⟩ := hat2.peek hline [ch ')'] (by decide)
  have hp3 : (peek line s2 [ch ')']).1 = true := hpeek3
  obtain ⟨s4, hredirs, hat4⟩ := parseredirs_complete hline (c := c) rs (fuel + 1)
    (hat3.gettoken_cons hline).2.1 (hrest.any_eq_false (by decide)) (by omega)
  refine ⟨s4, ?_, hat4⟩
  unfold parseexec
  dsimp only
  rw [if_pos hp]
  unfold parseblock
  dsimp only
  rw [if_pos hp1, hinner]
  exact (if_pos hp3).trans hredirs

lemma parses_pipe_last {ts : List Token} (hder : Parses line (parseexec line) execStops 2 ts c) :
    Parses line (parsepipe line) pipeStops 3 ts c := by
  intro s rest fuel h hrest hfuel
  obtain ⟨fuel, rfl⟩ : ∃ n, fuel = n + 1 := ⟨fuel - 1, by omega⟩
  obtain ⟨s1, hexec, hat1⟩ := hder fuel h (hrest.mono (subset_cons_self _ _)) (by omega)
  obtain ⟨hpeek, hat2⟩ := hat1.peek hline [ch '|'] (by decide)
  have hp : (peek line s1 [ch '|']).1 = false := hpeek.trans (hrest.any_eq_false (by decide))
  refine ⟨_, ?_, hat2⟩
  unfold parsepipe
  rw [hexec, ok_bind]
  exact if_neg (by rw [hp]; exact Bool.false_ne_true)

lemma parses_pipe_more {ts us : List Token} {d : Cmd}
    (hder : Parses line (parseexec line) execStops 2 ts c)
    (hder' : Parses line (parsepipe line) pipeStops 3 us d) :
    Parses line (parsepipe line) pipeStops 3 (ts ++ .bar :: us) (.pipe c d) := by
  intro s rest fuel h hrest hfuel
  rw [append_assoc, cons_append] at h hfuel
  have hlen : (Token.bar :: (us ++ rest)).length ≤ (ts ++ .bar :: (us ++ rest)).length :=
    length_le_of_append rfl
  rw [length_cons] at hlen
  obtain ⟨fuel, rfl⟩ : ∃ n, fuel = n + 1 := ⟨fuel - 1, by omega⟩
  obtain ⟨s1, hexec, hat1⟩ := hder fuel h (by rintro t ⟨⟩; exact mem_cons_self) (by omega)
  obtain ⟨hpeek, hat2⟩ := hat1.peek hline [ch '|'] (by decide)
  have hp : (peek line s1 [ch '|']).1 = true := hpeek
  obtain ⟨s3, hright, hat3⟩ := hder' fuel (hat2.gettoken_cons hline).2.1 hrest (by omega)
  refine ⟨s3, ?_, hat3⟩
  unfold parsepipe
  rw [hexec, ok_bind]
  refine (if_pos hp).trans ?_
  rw [hright, ok_bind]
  rfl

lemma parses_backs {ts : List Token} (n fuel : ℕ)
    (hder : Parses line (parsepipe line) pipeStops 3 ts c)
    (h : At line s (ts ++ (replicate n .amp ++ rest))) (hrest : EndsAt [.semi, .rparen] rest)
    (hfuel : 4 * (ts ++ (replicate n Token.amp ++ rest)).length + 3 ≤ fuel) :
    ∃ s1 s2, parsepipe line fuel s = .ok (c, s1) ∧
      parseback line fuel c s1 = .ok (c.backs n, s2) ∧ At line s2 rest := by
  have hlen : (replicate n Token.amp ++ rest).length ≤
      (ts ++ (replicate n Token.amp ++ rest)).length := length_le_of_append rfl
  have hends : EndsAt pipeStops (replicate n .amp ++ rest) := by
    cases n with
    | zero => exact hrest.mono (subset_cons_self _ _)
    | succ n =>
      rintro t ⟨⟩
      exact mem_cons_self
  obtain ⟨fuel, rfl⟩ : ∃ n, fuel = n + 1 := ⟨fuel - 1, by omega⟩
  obtain ⟨s1, hleft, hat1⟩ := hder fuel h hends hfuel
  obtain ⟨s2, hback, hat2⟩ := parseback_complete hline (c := c) n (fuel + 1) hat1
    (hrest.any_eq_false (by decide)) (by omega)
  exact ⟨s1, s2, hleft, hback, hat2⟩

lemma parses_line_last {ts : List Token} (n : ℕ)
    (hder : Parses line (parsepipe line) pipeStops 3 ts c) :
    Parses line (parseline line) lineStops 4 (ts ++ replicate n .amp) (c.backs n) := by
  intro s rest fuel h hrest hfuel
  rw [append_assoc] at h hfuel
  obtain ⟨s1, s2, hleft, hback, hat2⟩ := parses_backs hline n fuel hder h
    (hrest.mono (subset_cons_self _ _)) (by omega)
  obtain ⟨hpeek, hat3⟩ := hat2.peek hline [ch ';'] (by decide)
  have hp : (peek line s2 [ch ';']).1 = false := hpeek.trans (hrest.any_eq_false (by decide))
  refine ⟨_, ?_, hat3⟩
  unfold parseline
  rw [hleft, ok_bind, hback, ok_bind]
  exact if_neg (by rw [hp]; exact Bool.false_ne_true)

lemma parses_line_more {ts us : List Token} {d : Cmd} (n : ℕ)
    (hder : Parses line (parsepipe line) pipeStops 3 ts c)
    (hder' : Parses line (parseline line) lineStops 4 us d) :
    Parses line (parseline line) lineStops 4 (ts ++ (replicate n .amp ++ .semi :: us))
      (.list (c.backs n) d) := by
  intro s rest fuel h hrest hfuel
  rw [append_assoc, append_assoc, cons_append] at h hfuel
  have hlen : (Token.semi :: (us ++ rest)).length ≤
      (ts ++ (replicate n Token.amp ++ Token.semi :: (us ++ rest))).length :=
    (length_le_of_append rfl).trans (length_le_of_append rfl)
  rw [length_cons] at hlen
  obtain ⟨s1, s2, hleft, hback, hat2⟩ := parses_backs hline n fuel hder h
    (by rintro t ⟨⟩; exact mem_cons_self) (by omega)
  obtain ⟨hpeek, hat3⟩ := hat2.peek hline [ch ';'] (by decide)
  have hp : (peek line s2 [ch ';']).1 = true := hpeek
  obtain ⟨fuel, rfl⟩ : ∃ n, fuel = n + 1 := ⟨fuel - 1, by omega⟩
  obtain ⟨s4, hright, hat4⟩ := hder' fuel (hat3.gettoken_cons hline).2.1 hrest (by omega)
  refine ⟨s4, ?_, hat4⟩
  unfold parseline
  rw [hleft, ok_bind, hback, ok_bind]
  refine (if_pos hp).trans ?_
  rw [hright, ok_bind]
  rfl

mutual

lemma Line.parses {ts : List Token} {c : Cmd} :
    Line ts c → Parses line (parseline line) lineStops 4 ts c
  | .last n h => parses_line_last hline n h.parses
  | .more n h h' => parses_line_more hline n h.parses h'.parses

lemma Pipe.parses {ts : List Token} {c : Cmd} :
    Pipe ts c → Parses line (parsepipe line) pipeStops 3 ts c
  | .last h => parses_pipe_last hline h.parses
  | .more h h' => parses_pipe_more hline h.parses h'.parses

lemma Exec.parses {ts : List Token} {c : Cmd} :
    Exec ts c → Parses line (parseexec line) execStops 2 ts c
  | .block rs h => parses_block hline rs h.parses
  | .simple items hcount => parses_simple hline items hcount

end

end complete

lemma length_tokenize_le (cs : List Byte) (i : ℕ) : (tokenize cs i).length ≤ cs.length := by
  fun_induction tokenize cs i with
  | case1 => exact Nat.le_refl _
  | case2 _ c cs _ ih =>
    rw [length_cons]
    omega
  | case3 _ cs _ hnext ih =>
    rw [length_tail] at ih
    rw [length_cons, length_cons]
    omega
  | case4 _ cs _ _ ih =>
    rw [length_cons, length_cons]
    omega
  | case5 _ c cs _ _ t _ ih =>
    rw [length_cons, length_cons]
    omega
  | case6 _ c cs _ _ _ ih =>
    have hdrop := length_dropWhile_le isWordChar cs
    rw [length_cons, length_cons]
    omega

section accepted
variable {line : List Byte} {s : ℕ} {ts : List Token} {c : Cmd} {buf : List Byte}

lemma At.start (line : List Byte) : At line 0 (tokens line) := ⟨Nat.zero_le _, rfl⟩

lemma fuel_enough (line : List Byte) : 4 * (tokens line).length + 4 ≤ 4 * line.length + 4 := by
  have hlen := length_tokenize_le line 0
  rw [tokens]
  omega

lemma tokenize_cons_ne_nil {c : Byte} {cs : List Byte} {i : ℕ} (h : isWhite c = false) :
    tokenize (c :: cs) i ≠ [] := by
  rw [tokenize, if_neg (by simp [h])]
  split_ifs
  · exact cons_ne_nil _ _
  · exact cons_ne_nil _ _
  · cases symbolOf c <;> exact cons_ne_nil _ _

lemma At.peek_nil (h : At line s ts) : (Shell.peek line s []).2 = line.length ↔ ts = [] := by
  have hdrop := drop_skip line isWhite s
  have htoks := toks_skip line s
  have hle := skip_le isWhite h.1
  rw [h.2, toks] at htoks
  unfold Shell.peek
  dsimp only
  generalize skip line isWhite s = s1 at hdrop htoks hle ⊢
  rw [← htoks]
  constructor
  · rintro rfl
    rw [drop_length, tokenize_nil]
  · intro hnil
    rcases hcs : line.drop s1 with _ | ⟨c, r⟩
    · exact le_antisymm hle (drop_eq_nil_iff.mp hcs)
    · rw [hcs] at hnil
      exact absurd hnil (tokenize_cons_ne_nil (head_dropWhile_white (hdrop ▸ hcs)))

theorem parsecmd_eq_ok : parsecmd line = .ok (c, buf) ↔
    ∃ s, parseline line (4 * line.length + 4) 0 = .ok (c, s) ∧ (peek line s []).2 = line.length ∧
      buf = nulterminate c (line ++ [0]) := by
  unfold parsecmd
  rcases parseline line (4 * line.length + 4) 0 with e | ⟨d, s⟩
  · exact iff_of_false (by rintro ⟨⟩) (by rintro ⟨s, ⟨⟩, _⟩)
  · constructor
    · intro h
      by_cases hend : (peek line s []).2 = line.length
      · have h' := (if_neg (not_not.mpr hend)).symm.trans h
        obtain ⟨rfl, rfl⟩ : d = c ∧ nulterminate d (line ++ [0]) = buf := by
          simpa using Except.ok.inj h'
        exact ⟨s, rfl, hend, rfl⟩
      · cases (if_pos hend).symm.trans h
    · rintro ⟨s', h, hend, rfl⟩
      obtain ⟨rfl, rfl⟩ : d = c ∧ s = s' := by simpa using Except.ok.inj h
      exact if_neg (not_not.mpr hend)

variable (hline : ∀ c ∈ line, c ≠ 0)
include hline

theorem line_of_parsecmd (h : parsecmd line = .ok (c, buf)) : Line (tokens line) c := by
  obtain ⟨s, hparse, hend, -⟩ := parsecmd_eq_ok.mp h
  have hout := (soundAt hline _).ofLine (At.start line) (fuel_enough line)
  rw [hparse] at hout
  obtain ⟨us, vs, htokens, hat, hder⟩ := hout
  rw [hat.peek_nil.mp hend, append_nil] at htokens
  exact htokens ▸ hder

lemma parsecmd_of_line (hder : Line (tokens line) c) : ∃ buf, parsecmd line = .ok (c, buf) := by
  have hstart : At line 0 (tokens line ++ []) := by
    rw [append_nil]
    exact At.start line
  have hfuel : 4 * (tokens line ++ []).length + 4 ≤ 4 * line.length + 3 + 1 := by
    rw [append_nil]
    exact fuel_enough line
  obtain ⟨s, hparse, hat⟩ := hder.parses hline (4 * line.length + 3) hstart (by rintro t ⟨⟩) hfuel
  exact ⟨_, parsecmd_eq_ok.mpr ⟨s, hparse, hat.peek_nil.mpr rfl, rfl⟩⟩

lemma parsecmd_error {e : Stop} (h : parsecmd line = .error e) : e ≠ .outOfFuel ∧ e ≠ .overrun := by
  have hout := (soundAt hline _).ofLine (At.start line) (fuel_enough line)
  unfold parsecmd at h
  rcases hparse : parseline line (4 * line.length + 4) 0 with e' | ⟨d, s⟩
  · rw [hparse] at h hout
    cases h
    exact hout
  · rw [hparse] at h
    by_cases hend : (peek line s []).2 = line.length
    · cases (if_neg (not_not.mpr hend)).symm.trans h
    · cases (if_pos hend).symm.trans h
      exact ⟨by decide, by decide⟩

/-- The parser returns a tree exactly for the lines of its grammar, the tree of the derivation; it
neither runs without end nor past the end of `argv`. -/
theorem parsecmd_accepts_grammar :
    (∀ c, Line (tokens line) c ↔ ∃ buf, parsecmd line = .ok (c, buf)) ∧
      ∀ e, parsecmd line = .error e → e ≠ .outOfFuel ∧ e ≠ .overrun :=
  ⟨fun _ => ⟨parsecmd_of_line hline, fun ⟨_, h⟩ => line_of_parsecmd hline h⟩,
    fun _ => parsecmd_error hline⟩

end accepted

def sampleLine : List Byte := "(ls|wc)>>f&;ps".toList.map ch

theorem parsecmd_accepts_grammar_sample :
    (∀ c, Line (tokens sampleLine) c ↔ ∃ buf, parsecmd sampleLine = .ok (c, buf)) ∧
      ∀ e, parsecmd sampleLine = .error e → e ≠ .outOfFuel ∧ e ≠ .overrun :=
  parsecmd_accepts_grammar (by decide)

end Xv6.Shell
