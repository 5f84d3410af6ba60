import Xv6.ShellGrammar

/-! `nulterminate`: the words of an accepted line, read back as strings from the buffer. -/
namespace Xv6.Shell

open List

def stringAt (buf : List Byte) (q : ℕ) : List Byte := (buf.drop q).takeWhile (· ≠ 0)

def Word.text (line : List Byte) (w : Word) : List Byte := (line.drop w.q).take (w.eq - w.q)

section tree
variable {ts : List Token} {c : Cmd} {w : Word}

lemma Redir.words_wrap (c : Cmd) (r : Redir) : (r.wrap c).words = c.words ++ [r.file] := by
  obtain ⟨op, file⟩ := r
  cases op <;> rfl

lemma words_foldl_wrap (rs : List Redir) (c : Cmd) :
    (rs.foldl Redir.wrap c).words = c.words ++ rs.map Redir.file := by
  induction rs generalizing c with
  | nil => rw [foldl_nil, map_nil, append_nil]
  | cons r rs ih =>
    rw [foldl_cons, ih, Redir.words_wrap, append_assoc, singleton_append, map_cons]

lemma words_backs (c : Cmd) (n : ℕ) : (c.backs n).words = c.words := by
  induction n generalizing c with
  | zero => rfl
  | succ n ih => exact ih (.back c)

lemma file_mem_tokens {rs : List Redir} (hw : w ∈ rs.map Redir.file) :
    Token.word w ∈ rs.flatMap Redir.tokens := by
  obtain ⟨r, hr, rfl⟩ := mem_map.mp hw
  exact mem_flatMap.mpr ⟨r, hr, mem_cons_of_mem _ mem_cons_self⟩

lemma simpleCmd_word_mem {items : List Item} (hw : w ∈ (simpleCmd items).words) :
    Token.word w ∈ items.flatMap Item.tokens := by
  rw [simpleCmd, words_foldl_wrap] at hw
  rcases mem_append.mp hw with hw | hw
  · obtain ⟨item, hitem, hword⟩ := mem_filterMap.mp hw
    refine mem_flatMap.mpr ⟨item, hitem, ?_⟩
    cases item with
    | word w' =>
      cases hword
      exact mem_cons_self
    | redir r => cases hword
  · obtain ⟨r, hr, rfl⟩ := mem_map.mp hw
    obtain ⟨item, hitem, hredir⟩ := mem_filterMap.mp hr
    refine mem_flatMap.mpr ⟨item, hitem, ?_⟩
    cases item with
    | word w' => cases hredir
    | redir r' =>
      cases hredir
      exact mem_cons_of_mem _ mem_cons_self

mutual

lemma Line.word_mem {ts : List Token} {c : Cmd} : Line ts c → w ∈ c.words → .word w ∈ ts
  | .last n h, hw => mem_append_left _ (h.word_mem (words_backs _ n ▸ hw))
  | .more n h h', hw => by
    rcases mem_append.mp hw with hw | hw
    · exact mem_append_left _ (h.word_mem (words_backs _ n ▸ hw))
    · exact mem_append_right _ (mem_append_right _ (mem_cons_of_mem _ (h'.word_mem hw)))

lemma Pipe.word_mem {ts : List Token} {c : Cmd} : Pipe ts c → w ∈ c.words → .word w ∈ ts
  | .last h, hw => h.word_mem hw
  | .more h h', hw => by
    rcases mem_append.mp hw with hw | hw
    · exact mem_append_left _ (h.word_mem hw)
    · exact mem_append_right _ (mem_cons_of_mem _ (h'.word_mem hw))

lemma Exec.word_mem {ts : List Token} {c : Cmd} : Exec ts c → w ∈ c.words → .word w ∈ ts
  | .block rs h, hw => by
    rw [words_foldl_wrap] at hw
    refine mem_cons_of_mem _ ?_
    rcases mem_append.mp hw with hw | hw
    · exact mem_append_left _ (h.word_mem hw)
    · exact mem_append_right _ (mem_cons_of_mem _ (file_mem_tokens hw))
  | .simple _ _, hw => simpleCmd_word_mem hw

end

end tree

section positions
variable {line : List Byte} {w w' : Word} {s : ℕ}

structure Word.Fits (line : List Byte) (w : Word) : Prop where
  lt : w.q < w.eq
  eq_add : w.eq = w.q + ((line.drop w.q).takeWhile isWordChar).length

lemma Word.Fits.text_eq (h : w.Fits line) : w.text line = (line.drop w.q).takeWhile isWordChar := by
  rw [Word.text, h.eq_add, Nat.add_sub_cancel_left]
  exact (prefix_iff_eq_take.mp ( takeWhile_prefix _)).symm

lemma Word.Fits.le_length (h : w.Fits line) : w.eq ≤ line.length := by
  have hlen := (takeWhile_sublist isWordChar (l := line.drop w.q)).length_le
  have hlt := h.lt
  have heq := h.eq_add
  rw [length_drop] at hlen
  omega

lemma Word.getElem?_text {k : ℕ} (hq : w.q ≤ k) (hk : k < w.eq) :
    (w.text line)[k - w.q]? = (line)[k]? := by
  rw [Word.text, getElem?_take_of_lt (by omega), getElem?_drop, Nat.add_sub_cancel' hq]

lemma Word.Fits.length_text (h : w.Fits line) : (w.text line).length = w.eq - w.q := by
  have heq := h.eq_add
  rw [h.text_eq]
  omega

lemma Word.Fits.isWordChar_text (h : w.Fits line) {c : Byte} (hc : c ∈ w.text line) :
    isWordChar c = true :=
  mem_takeWhile_imp (h.text_eq ▸ hc)

lemma Word.Fits.not_isWordChar (h : w.Fits line) {c : Byte} (hc : (line)[w.eq]? = some c) :
    isWordChar c = false := by
  have hdrop : line.drop w.eq = (line.drop w.q).dropWhile isWordChar := by
    rw [h.eq_add, ← scan_eq]
    exact drop_skip line isWordChar w.q
  rw [← Nat.add_zero w.eq, ← getElem?_drop, hdrop] at hc
  rcases hcs : (line.drop w.q).dropWhile isWordChar with _ | ⟨d, r⟩
  · rw [hcs] at hc
    cases hc
  · rw [hcs] at hc
    cases hc
    have hhead := head_dropWhile_not isWordChar (l := line.drop w.q) (by simp [hcs])
    simpa [hcs] using hhead

lemma Word.Fits.apart (h : w.Fits line) (h' : w'.Fits line) : ¬ (w.q ≤ w'.eq ∧ w'.eq < w.eq) := by
  rintro ⟨hq, hlt⟩
  have hin : w'.eq - w.q < (w.text line).length := by
    rw [h.length_text]
    omega
  have hc : (w.text line)[w'.eq - w.q]? = (line)[w'.eq]? := Word.getElem?_text hq hlt
  rw [getElem?_eq_getElem hin] at hc
  have hword := h.isWordChar_text (getElem_mem hin)
  rw [h'.not_isWordChar hc.symm] at hword
  cases hword

lemma skip_fits {c : Byte} (hc : isWordChar c = true) {r : List Byte} (hcs : line.drop s = c :: r) :
    Word.Fits line ⟨s, skip line isWordChar s⟩ := by
  unfold skip
  rw [scan_eq]
  refine ⟨?_, rfl⟩
  rw [hcs, takeWhile_cons_of_pos hc]
  exact Nat.lt_add_of_pos_right (Nat.succ_pos _)

lemma gettoken_fits (hword : (gettoken line s).1 = ch 'a') : (gettoken line s).2.1.Fits line := by
  have hdrop := drop_skip line isWhite s
  unfold gettoken at hword ⊢
  dsimp only at hword ⊢
  generalize skip line isWhite s = s1 at hdrop hword ⊢
  -- a word is what the default case returns: the codes of the others are not 'a'
  split_ifs at hword with h0 hsym hgt hgt'
  · exact absurd (h0.symm.trans hword) (by decide)
  · rcases hsym with h | h | h | h | h | h <;> exact absurd (h.symm.trans hword) (by decide)
  · exact absurd (show ch '+' = ch 'a' from hword) (by decide)
  · exact absurd (hgt.symm.trans hword) (by decide)
  · rw [if_neg h0, if_neg hsym, if_neg hgt]
    rcases hcs : line.drop s1 with _ | ⟨c, r⟩
    · rw [charAt_eq, hcs] at h0
      exact absurd rfl h0
    · rw [charAt_eq, hcs] at hsym hgt
      have hwhite : isWhite c = false := head_dropWhile_white (hdrop ▸ hcs)
      exact skip_fits (isWordChar_of hwhite hgt hsym) hcs

lemma exists_gettoken (hline : ∀ c ∈ line, c ≠ 0) {ts : List Token} (hts : toks line s = ts)
    (hw : .word w ∈ ts) : ∃ s, (gettoken line s).1 = ch 'a' ∧ (gettoken line s).2.1 = w := by
  induction ts generalizing s with
  | nil => cases hw
  | cons t ts ih =>
    rcases gettoken_spec hline s with ⟨hnil, -⟩ | ⟨t', hcons, hcode, hget⟩
    · rw [hts] at hnil
      cases hnil
    · rw [hts] at hcons
      obtain ⟨rfl, hrest⟩ := cons.inj hcons
      rcases mem_cons.mp hw with rfl | hw
      · exact ⟨s, hcode, hget w rfl⟩
      · exact ih hrest.symm hw

end positions

section buffer
variable {line buf : List Byte} {c : Cmd} {w : Word} {k : ℕ}

lemma nulterminate_eq (c : Cmd) (buf : List Byte) :
    nulterminate c buf = c.words.foldl (fun buf w => buf.set w.eq 0) buf := by
  induction c generalizing buf with
  | exec argv => rfl
  | redir cmd file mode fd ih => rw [nulterminate, ih, Cmd.words, foldl_append]; rfl
  | pipe left right ihl ihr => rw [nulterminate, ihl, ihr, Cmd.words, foldl_append]
  | list left right ihl ihr => rw [nulterminate, ihl, ihr, Cmd.words, foldl_append]
  | back cmd ih => exact ih buf

lemma foldl_set_of_ne (ws : List Word) (buf : List Byte) (h : ∀ w ∈ ws, w.eq ≠ k) :
    (ws.foldl (fun buf w => buf.set w.eq 0) buf)[k]? = buf[k]? := by
  induction ws generalizing buf with
  | nil => rfl
  | cons w ws ih =>
    rw [foldl_cons, ih _ fun w' hw' => h w' (mem_cons_of_mem _ hw'),
      getElem?_set_ne (h w mem_cons_self)]

lemma length_foldl_set (ws : List Word) (buf : List Byte) :
    (ws.foldl (fun buf w => buf.set w.eq 0) buf).length = buf.length := by
  induction ws generalizing buf with
  | nil => rfl
  | cons w ws ih => rw [foldl_cons, ih, length_set]

lemma foldl_set_of_mem (ws : List Word) (buf : List Byte) (hw : w ∈ ws) (hlt : w.eq < buf.length) :
    (ws.foldl (fun buf w => buf.set w.eq 0) buf)[w.eq]? = some 0 := by
  induction ws using reverseRecOn with
  | nil => cases hw
  | append_singleton ws w' ih =>
    rw [foldl_append, foldl_cons, foldl_nil]
    by_cases heq : w'.eq = w.eq
    · rw [heq, getElem?_set_self (by rwa [length_foldl_set])]
    · rw [getElem?_set_ne heq]
      rcases mem_append.mp hw with hw | hw
      · exact ih hw
      · rw [mem_singleton.mp hw] at heq
        exact absurd rfl heq

lemma stringAt_eq (h : w.Fits line) (htext : ∀ k, w.q ≤ k → k < w.eq → buf[k]? = (line)[k]?)
    (hend : buf[w.eq]? = some 0) (hline : ∀ c ∈ line, c ≠ 0) : stringAt buf w.q = w.text line := by
  have hlt := h.lt
  have hhead : (buf.drop w.q).take (w.eq - w.q) = w.text line := by
    refine ext_getElem? fun i => ?_
    rw [Word.text]
    by_cases hi : i < w.eq - w.q
    · rw [getElem?_take_of_lt hi, getElem?_take_of_lt hi, getElem?_drop,
        getElem?_drop, htext _ (by omega) (by omega)]
    · rw [getElem?_take_eq_none (by omega), getElem?_take_eq_none (by omega)]
  have htail : (buf.drop w.q).drop (w.eq - w.q) = 0 :: buf.drop (w.eq + 1) := by
    obtain ⟨hin, hval⟩ := List.getElem?_eq_some_iff.mp hend
    rw [drop_drop, Nat.add_sub_cancel' hlt.le, drop_eq_getElem_cons hin, hval]
  rw [stringAt, ← take_append_drop (w.eq - w.q) (buf.drop w.q), hhead, htail,
    takeWhile_append_of_pos, takeWhile_cons_of_neg, append_nil]
  · simp
  · intro c hc
    exact decide_eq_true (hline c (mem_of_mem_drop (mem_of_mem_take hc)))

end buffer

/-- After `nulterminate` every word of the command reads, as a string, what `gettoken` recognised for
it, and no terminator stands inside a word. -/
theorem nulterminate_keeps_words {line buf : List Byte} {c : Cmd} (hline : ∀ c ∈ line, c ≠ 0)
    (h : parsecmd line = .ok (c, buf)) : ∀ w ∈ c.words,
    (∃ s, (gettoken line s).1 = ch 'a' ∧ (gettoken line s).2.1 = w) ∧
      stringAt buf w.q = w.text line ∧ buf[w.eq]? = some 0 ∧
      ∀ w' ∈ c.words, ¬ (w.q ≤ w'.eq ∧ w'.eq < w.eq) := by
  have hget : ∀ w ∈ c.words, ∃ s, (gettoken line s).1 = ch 'a' ∧ (gettoken line s).2.1 = w :=
    fun w hw => exists_gettoken hline (tokens_eq_toks line).symm ((line_of_parsecmd hline h).word_mem hw)
  have hfits : ∀ w ∈ c.words, w.Fits line := by
    intro w hw
    obtain ⟨s, hcode, rfl⟩ := hget w hw
    exact gettoken_fits hcode
  obtain ⟨-, -, -, rfl⟩ := parsecmd_eq_ok.mp h
  intro w hw
  have hwfits := hfits w hw
  have hlast : (nulterminate c (line ++ [0]))[w.eq]? = some 0 := by
    rw [nulterminate_eq]
    refine foldl_set_of_mem _ _ hw ?_
    rw [length_append]
    exact Nat.lt_succ_of_le hwfits.le_length
  have hapart : ∀ w' ∈ c.words, ¬ (w.q ≤ w'.eq ∧ w'.eq < w.eq) := fun w' hw' =>
    hwfits.apart (hfits w' hw')
  refine ⟨hget w hw, stringAt_eq hwfits ?_ hlast hline, hlast, hapart⟩
  intro k hq hk
  rw [nulterminate_eq, foldl_set_of_ne, getElem?_append_left (hk.trans_le hwfits.le_length)]
  rintro w' hw' rfl
  exact hapart w' hw' ⟨hq, hk⟩

def sampleCmd : Cmd :=
  .list (.back (.redir (.pipe (.exec [⟨1, 3⟩]) (.exec [⟨4, 6⟩])) ⟨9, 10⟩ 0x201 1)) (.exec [⟨12, 14⟩])

theorem nulterminate_keeps_words_sample : ∃ buf, parsecmd sampleLine = .ok (sampleCmd, buf) ∧
    ∀ w ∈ sampleCmd.words,
      (∃ s, (gettoken sampleLine s).1 = ch 'a' ∧ (gettoken sampleLine s).2.1 = w) ∧
      stringAt buf w.q = w.text sampleLine ∧ buf[w.eq]? = some 0 ∧
      ∀ w' ∈ sampleCmd.words, ¬ (w.q ≤ w'.eq ∧ w'.eq < w.eq) := by
  have hparse : parsecmd sampleLine = .ok (sampleCmd, nulterminate sampleCmd (sampleLine ++ [0])) := by
    decide +kernel
  exact ⟨_, hparse, nulterminate_keeps_words (by decide) hparse⟩

end Xv6.Shell
