import Mathlib.Data.Nat.Digits.Lemmas
import Xv6.Shell

/-! Formatted output of the kernel, `kernel/printf.c`, and of the user library, `user/printf.c`:
the two `printint`, and the format loops that call them. -/
namespace Xv6.Printf

open List

open Shell (ch)

abbrev Reg := BitVec 64

/-! ### `printint` -/

/-- The loop that stores the digits of `x`, lowest first, with `free` places left in the buffer. A
store outside of it is `none`. -/
def digitLoop (digits : ℕ → Byte) (base : ℕ) : ℕ → ℕ → Option (List Byte × ℕ)
  | 0, _ => none
  | free + 1, x =>
    if x / base = 0 then some ([digits (x % base)], free)
    else (digitLoop digits base free (x / base)).map fun r => (digits (x % base) :: r.1, r.2)

/-- `printint` on words of `w` bits, with `char buf[16]`. The two of them differ in the width of
`xx` and `x` and in the digits. -/
def printintOf (w : ℕ) (digits : ℕ → Byte) (xx : BitVec w) (base : ℕ) (sign : Bool) :
    Option (List Byte) :=
  let neg := sign && xx.msb
  let x := if neg then -xx else xx
  match digitLoop digits base 16 x.toNat with
  | none => none
  | some (buf, free) =>
    if neg then if free = 0 then none else some (ch '-' :: buf.reverse) else some buf.reverse

def lowerDigits (d : ℕ) : Byte := ("0123456789abcdef".toList.map ch).getD d 0

def upperDigits (d : ℕ) : Byte := ("0123456789ABCDEF".toList.map ch).getD d 0

/-! ### Conversions -/

inductive Conv
  | int (long : Bool) (base : ℕ) (sign : Bool)
  | ptr
  | str
  | percent
  | unknown
  deriving DecidableEq, Repr

/-- The tests on `c0`, `c1` and `c2` in their order: what the format has to go on with. -/
def conversions : List (List Byte × Conv) :=
  [([ch 'd'], .int false 10 true),
   ([ch 'l', ch 'd'], .int true 10 true),
   ([ch 'l', ch 'l', ch 'd'], .int true 10 true),
   ([ch 'u'], .int false 10 false),
   ([ch 'l', ch 'u'], .int true 10 false),
   ([ch 'l', ch 'l', ch 'u'], .int true 10 false),
   ([ch 'x'], .int false 16 false),
   ([ch 'l', ch 'x'], .int true 16 false),
   ([ch 'l', ch 'l', ch 'x'], .int true 16 false),
   ([ch 'p'], .ptr),
   ([ch 's'], .str),
   ([ch '%'], .percent)]

/-- The conversion at the start of the format, and its number of characters. -/
def conv (fmt : List Byte) : Conv × ℕ :=
  match conversions.find? (·.1.isPrefixOf fmt) with
  | some r => (r.2, r.1.length)
  | none => (.unknown, 1)

def printptr (digits : ℕ → Byte) (x : Reg) : List Byte :=
  ch '0' :: ch 'x' :: (range 16).map fun i => digits ((x <<< (4 * i)) >>> 60).toNat

/-- The output of a conversion with `printint` and `digits`, and the arguments after it. The
string at an address is `string`. -/
def convert (printint : Bool → ℕ → Bool → Reg → Option (List Byte)) (digits : ℕ → Byte)
    (string : Reg → List Byte) (c0 : Byte) (args : List Reg) : Conv → Option (List Byte × List Reg)
  | .int long base sign => (printint long base sign (args.headD 0)).map (·, args.tail)
  | .ptr => some (printptr digits (args.headD 0), args.tail)
  | .str =>
    let s := args.headD 0
    some (if s = 0 then "(null)".toList.map ch else string s, args.tail)
  | .percent => some ([ch '%'], args)
  | .unknown => some ([ch '%', c0], args)

/-! ### Numerals -/

def digitsOf (b x : ℕ) : List ℕ := if x = 0 then [0] else b.digits x

def numeral (digits : ℕ → Byte) (b : ℕ) (v : ℤ) : List Byte :=
  (if v < 0 then [ch '-'] else []) ++ ((digitsOf b v.natAbs).map digits).reverse

variable {digits : ℕ → Byte} {b x k : ℕ}

lemma digitsOf_eq (hb : 1 < b) (x : ℕ) : digitsOf b x =
    if x / b = 0 then [x % b] else x % b :: digitsOf b (x / b) := by
  by_cases hx : x = 0
  · simp [digitsOf, hx]
  · rw [digitsOf, if_neg hx, Nat.digits_def' hb (Nat.pos_of_ne_zero hx)]
    split_ifs with h <;> simp [digitsOf, h]

lemma length_digitsOf_le (hb : 1 < b) (hk : 0 < k) : (digitsOf b x).length ≤ k ↔ x < b ^ k := by
  by_cases hx : x = 0
  · simp [digitsOf, hx, Nat.pow_pos (by omega : 0 < b)]
    omega
  · rw [digitsOf, if_neg hx, Nat.digits_length_le_iff hb]

lemma digitLoop_eq (hb : 1 < b) : ∀ {free x : ℕ}, digitLoop digits b free x =
    if (digitsOf b x).length ≤ free then
      some ((digitsOf b x).map digits, free - (digitsOf b x).length) else none
  | 0, x => by
    rw [digitsOf_eq hb]
    split_ifs <;> simp_all [digitLoop]
  | free + 1, x => by
    rw [digitLoop, digitsOf_eq hb, digitLoop_eq hb]
    split_ifs <;> simp_all
    omega

def value {w : ℕ} (sign : Bool) (xx : BitVec w) : ℤ := if sign then xx.toInt else xx.toNat

lemma printintOf_eq {w : ℕ} (hb : 1 < b) (xx : BitVec w) (sign : Bool) :
    printintOf w digits xx b sign = if (numeral digits b (value sign xx)).length ≤ 16
      then some (numeral digits b (value sign xx)) else none := by
  have hv : (value sign xx < 0 ↔ (sign && xx.msb) = true) ∧
      (value sign xx).natAbs = (if sign && xx.msb then -xx else xx).toNat := by
    cases sign with
    | false => simp [value]
    | true =>
      have ha : (if xx.msb then -xx else xx).toNat = _ := BitVec.toNat_abs
      have hlt := xx.isLt
      have hp : ((2 ^ w : ℕ) : ℤ) = 2 ^ w := by simp
      simp only [value, if_true, Bool.true_and, ha, BitVec.toInt_eq_msb_cond]
      cases xx.msb <;> simp
      omega
  rw [printintOf, digitLoop_eq hb, ← hv.2, numeral]
  simp only [← hv.1]
  generalize digitsOf b _ = l
  by_cases hneg : value sign xx < 0 <;> by_cases hl : l.length ≤ 16 <;>
    simp only [hneg, hl, if_true, if_false, length_append, length_reverse,
      length_map, length_singleton, length_nil] <;>
    split_ifs <;> first | rfl | omega

lemma length_numeral_le (digits : ℕ → Byte) (hb : 1 < b) (hk : 0 < k) {v : ℤ} :
    (numeral digits b v).length ≤ k + 1 ↔ -(b ^ k : ℕ) < v ∧ v < (b ^ (k + 1) : ℕ) := by
  have h1 := length_digitsOf_le (x := v.natAbs) hb hk
  have h2 := length_digitsOf_le (x := v.natAbs) hb (by omega : 0 < k + 1)
  have h0 : 0 < b ^ k := Nat.pow_pos (by omega)
  rw [numeral]
  split_ifs with hneg <;> simp only [length_append, length_reverse, length_map,
    length_singleton, length_nil] <;> omega

def Legible (digits : ℕ → Byte) : Prop :=
  (∃ g : Byte → ℕ, ∀ d < 16, g (digits d) = d) ∧ ∀ d < 16, digits d ≠ ch '-'

lemma legible_lower : Legible lowerDigits :=
  ⟨⟨("0123456789abcdef".toList.map ch).idxOf, by decide⟩, by decide⟩

lemma legible_upper : Legible upperDigits :=
  ⟨⟨("0123456789ABCDEF".toList.map ch).idxOf, by decide⟩, by decide⟩

lemma lt_of_mem_digitsOf (hb : 1 < b) (hb' : b ≤ 16) {d : ℕ} (h : d ∈ digitsOf b x) : d < 16 := by
  rw [digitsOf] at h
  split_ifs at h
  · simp_all
  · exact (Nat.digits_lt_base hb h).trans_le hb'

section
variable (hd : Legible digits) (hb : 1 < b) (hb' : b ≤ 16)
include hd hb hb'

lemma map_digitsOf_inj {y : ℕ} (h : (digitsOf b x).map digits = (digitsOf b y).map digits) :
    x = y := by
  obtain ⟨g, hg⟩ := hd.1
  have back (x : ℕ) : Nat.ofDigits b (((digitsOf b x).map digits).map g) = x := by
    have hid : ∀ d ∈ digitsOf b x, (g ∘ digits) d = id d :=
      fun d hm => hg d (lt_of_mem_digitsOf hb hb' hm)
    rw [map_map, map_congr_left hid, map_id, digitsOf]
    split_ifs with h0
    · simp [h0]
    · exact Nat.ofDigits_digits b x
  rw [← back x, h, back]

lemma numeral_inj {v v' : ℤ} : numeral digits b v = numeral digits b v' ↔ v = v' := by
  have sign {n m : ℕ} : ch '-' :: ((digitsOf b n).map digits).reverse ≠
      ((digitsOf b m).map digits).reverse := by
    intro h
    have hm : ch '-' ∈ ((digitsOf b m).map digits).reverse := h ▸ mem_cons_self
    obtain ⟨d, hm, he⟩ := mem_map.mp (mem_reverse.mp hm)
    exact hd.2 d (lt_of_mem_digitsOf hb hb' hm) he
  refine ⟨fun h => ?_, fun h => h ▸ rfl⟩
  have key {n m : ℕ} (h : ((digitsOf b n).map digits).reverse =
      ((digitsOf b m).map digits).reverse) : n = m :=
    map_digitsOf_inj hd hb hb' (reverse_injective h)
  simp only [numeral] at h
  split_ifs at h with h1 h2 h2
  · have := key (cons.inj h).2
    omega
  · exact absurd h sign
  · exact absurd h.symm sign
  · have := key h
    omega

lemma printintOf_eq_some {w : ℕ} (xx : BitVec w) (sign : Bool) (v : ℤ) :
    printintOf w digits xx b sign = some (numeral digits b v) ↔
      value sign xx = v ∧ -(b ^ 15 : ℕ) < v ∧ v < (b ^ 16 : ℕ) := by
  rw [printintOf_eq hb, ← length_numeral_le digits hb (by decide : 0 < 15)]
  constructor
  · intro h
    split_ifs at h with hl
    have he := (numeral_inj hd hb hb').mp (Option.some.inj h)
    exact ⟨he, he ▸ hl⟩
  · rintro ⟨rfl, hl⟩
    rw [if_pos hl]

end

lemma value_bounds (sign : Bool) (xx : BitVec 32) :
    -2 ^ 31 ≤ value sign xx ∧ value sign xx < 2 ^ 32 := by
  have hlt := xx.isLt
  have hlo := xx.le_toInt
  have hhi := xx.toInt_lt
  rw [value]
  split_ifs <;> omega

lemma value_signExtend (sign : Bool) (xx : BitVec 32) :
    value sign (xx.signExtend 64) = value sign xx ↔ sign = true ∨ xx.toNat < 2 ^ 31 := by
  have hlt := xx.isLt
  cases sign with
  | true => simpa [value] using BitVec.toInt_signExtend_of_le (by decide)
  | false =>
    simp only [value, Bool.false_eq_true, if_false, false_or, Nat.cast_inj,
      BitVec.toNat_signExtend, BitVec.toNat_setWidth, BitVec.msb_eq_decide]
    simp only [decide_eq_true_eq]
    split_ifs <;> omega

/-! ### The nine conversions -/

inductive Kind
  | d
  | u
  | x
  deriving DecidableEq, Repr

def Kind.char : Kind → Byte
  | .d => ch 'd'
  | .u => ch 'u'
  | .x => ch 'x'

def Kind.base : Kind → ℕ
  | .x => 16
  | _ => 10

def Kind.sign : Kind → Bool
  | .d => true
  | _ => false

lemma Kind.base_bounds (k : Kind) : 1 < k.base ∧ k.base ≤ 16 := by cases k <;> decide

def text (ls : Fin 3) (k : Kind) : List Byte := replicate ls (ch 'l') ++ [k.char]

/-- The value that the conversion names: 32 bits without an l, 64 bits with one. -/
def meant (ls : Fin 3) (k : Kind) (v : Reg) : ℤ :=
  if ls = 0 then value k.sign (v.setWidth 32) else value k.sign v

lemma conv_text (ls : Fin 3) (k : Kind) (post : List Byte) :
    conv (text ls k ++ post) = (.int (ls ≠ 0) k.base k.sign, (text ls k).length) := by
  fin_cases ls <;> cases k <;> rfl

lemma text_ne_nil (ls : Fin 3) (k : Kind) : text ls k ≠ [] := by simp [text]

/-! ### The kernel -/
namespace Kernel

def printint (xx : BitVec 64) (base : ℕ) (sign : Bool) : Option (List Byte) :=
  printintOf 64 lowerDigits xx base sign

/-- `printint(va_arg(ap, int), ..)`, or `uint64` with an l: an `int` is widened with its sign. -/
def number (long : Bool) (base : ℕ) (sign : Bool) (v : Reg) : Option (List Byte) :=
  printint (if long then v else (v.setWidth 32).signExtend 64) base sign

def printf (string : Reg → List Byte) (fmt : List Byte) (args : List Reg) : Option (List Byte) :=
  match fmt with
  | [] => some []
  | cx :: fmt =>
    if cx ≠ ch '%' then (printf string fmt args).map (cx :: ·)
    -- `c0 == 0`: a `%` at the end
    else if fmt = [] then some []
    else
      let c := conv fmt
      match convert number lowerDigits string (fmt.headD 0) args c.1 with
      | none => none
      | some (out, args) => (printf string (fmt.drop c.2) args).map (out ++ ·)
termination_by fmt.length

lemma printf_text (string : Reg → List Byte) (ls : Fin 3) (k : Kind) (v : Reg) :
    printf string (ch '%' :: text ls k) [v] = number (ls ≠ 0) k.base k.sign v := by
  have hc := conv_text ls k []
  rw [append_nil] at hc
  rw [printf, if_neg (by simp), if_neg (text_ne_nil ls k)]
  simp only [hc, convert, headD_cons, drop_length]
  cases number (ls ≠ 0) k.base k.sign v <;> simp [printf]

def Right : Fin 3 → Kind → Reg → Prop
  | 0, .d, _ => True
  | 0, _, v => v.toNat % 2 ^ 32 < 2 ^ 31
  | _, .d, v => -10 ^ 15 < v.toInt ∧ v.toInt < 10 ^ 16
  | _, .u, v => v.toNat < 10 ^ 16
  | _, .x, _ => True

/-- A conversion prints the numeral of its argument, within the buffer, if and only if an
unsigned 32-bit argument is below `2 ^ 31` and a decimal one has at most 16 characters. -/
theorem printf_conversion_iff (string : Reg → List Byte) (ls : Fin 3) (k : Kind) (v : Reg) :
    printf string (ch '%' :: text ls k) [v] = some (numeral lowerDigits k.base (meant ls k v)) ↔
      Right ls k v := by
  rw [printf_text, number, printint,
    printintOf_eq_some legible_lower k.base_bounds.1 k.base_bounds.2]
  by_cases hl : ls = 0
  · subst hl
    have hb := value_bounds k.sign (v.setWidth 32)
    rw [meant, if_pos rfl, show decide ((0 : Fin 3) ≠ 0) = false from rfl, if_neg (by simp),
      value_signExtend]
    cases k <;> simp [Right, Kind.sign, Kind.base] at hb ⊢ <;> omega
  · have hv := v.isLt
    rw [meant, if_neg hl, if_pos (by simpa using hl), and_iff_right rfl]
    have hr : Right ls k v = Right 1 k v := by
      fin_cases ls <;> cases k <;> first | rfl | exact absurd rfl hl
    rw [hr]
    cases k <;> simp [Right, Kind.sign, Kind.base, value] <;> omega

/-- The number `2 ^ 31`: `%u` stores outside of the buffer and `%x` prints 16 digits. So does
`%ld` on a number of 17 digits. -/
theorem printf_wrong :
    (∀ string, printf string (ch '%' :: text 0 .u) [0x80000000] = none) ∧
    (∀ string, printf string (ch '%' :: text 0 .x) [0x80000000] =
      some ("ffffffff80000000".toList.map ch)) ∧
    ∀ string, printf string (ch '%' :: text 1 .d) [10000000000000000] = none := by
  refine ⟨?_, ?_, ?_⟩ <;> intro string <;> rw [printf_text] <;> decide

end Kernel

/-! ### The user library -/
namespace User

def printint (xx : BitVec 32) (base : ℕ) (sgn : Bool) : Option (List Byte) :=
  printintOf 32 upperDigits xx base sgn

/-- `printint(fd, va_arg(ap, int), ..)`, or `uint64` with an l: the parameter is an `int`. -/
def number (_long : Bool) (base : ℕ) (sgn : Bool) (v : Reg) : Option (List Byte) :=
  printint (v.setWidth 32) base sgn

/-- `vprintf` from a state (`true` behind a `%`): what it writes, the state and the arguments at
the end. -/
def vprintf (string : Reg → List Byte) (state : Bool) (fmt : List Byte) (args : List Reg) :
    Option (List Byte × Bool × List Reg) :=
  match fmt with
  | [] => some ([], state, args)
  | c0 :: fmt =>
    if state = false then
      if c0 = ch '%' then vprintf string true fmt args
      else (vprintf string false fmt args).map fun r => (c0 :: r.1, r.2)
    else
      let c := conv (c0 :: fmt)
      match convert number upperDigits string c0 args c.1 with
      | none => none
      | some (out, args) =>
        -- the loop adds one to `i` itself
        (vprintf string false (fmt.drop (c.2 - 1)) args).map fun r => (out ++ r.1, r.2)
termination_by fmt.length

lemma number_eq (long : Bool) (k : Kind) (v : Reg) : number long k.base k.sign v =
    some (numeral upperDigits k.base (value k.sign (v.setWidth 32))) := by
  have hb := value_bounds k.sign (v.setWidth 32)
  rw [number, printint, printintOf_eq_some legible_upper k.base_bounds.1 k.base_bounds.2]
  cases k <;> simp [Kind.sign, Kind.base] at hb ⊢ <;> omega

variable {string : Reg → List Byte}

lemma conv_cases (fmt : List Byte) : conv fmt = (.unknown, 1) ∨
    ∃ r ∈ conversions, r.1.isPrefixOf fmt = true ∧ conv fmt = (r.2, r.1.length) := by
  rw [conv]
  cases h : conversions.find? (·.1.isPrefixOf fmt) with
  | none => exact .inl rfl
  | some r => exact .inr ⟨r, mem_of_find?_eq_some h, by simpa using find?_some h, rfl⟩

variable {fmt : List Byte}

lemma conv_int {long sign : Bool} {base : ℕ}
    (h : (conv fmt).1 = .int long base sign) : ∃ k : Kind, base = k.base ∧ sign = k.sign := by
  obtain he | ⟨r, hr, -, he⟩ := conv_cases fmt
  · simp [he] at h
  · have hall : ∀ r ∈ conversions, r.2 ∈ [.ptr, .str, .percent] ++
        [Kind.d, .u, .x].flatMap fun k => [.int true k.base k.sign, .int false k.base k.sign] := by
      decide
    have hm := hall r hr
    rw [he] at h
    dsimp only at h
    rw [h] at hm
    simp only [mem_append, mem_cons, mem_flatMap, Conv.int.injEq, reduceCtorEq,
      not_mem_nil, or_false, false_or] at hm
    obtain ⟨k, -, hm | hm⟩ := hm
    exacts [⟨k, hm.2⟩, ⟨k, hm.2⟩]

lemma convert_isSome (c0 : Byte) (fmt : List Byte) (args : List Reg) :
    ∃ r, convert number upperDigits string c0 args (conv fmt).1 = some r := by
  cases h : (conv fmt).1 with
  | int long base sign =>
    obtain ⟨k, rfl, rfl⟩ := conv_int h
    exact ⟨_, by rw [convert, number_eq, Option.map_some]⟩
  | ptr | str | percent | unknown => exact ⟨_, rfl⟩

variable {args : List Reg}

lemma vprintf_conv {c0 : Byte} {q : List Byte × List Reg}
    (h : convert number upperDigits string c0 args (conv (c0 :: fmt)).1 = some q) :
    vprintf string true (c0 :: fmt) args =
      (vprintf string false (fmt.drop ((conv (c0 :: fmt)).2 - 1)) q.2).map
        fun r => (q.1 ++ r.1, r.2) := by
  rw [vprintf, if_neg (by simp)]
  dsimp only
  rw [h]

lemma vprintf_char {c0 : Byte} (h : c0 ≠ ch '%') :
    vprintf string false (c0 :: fmt) args =
      (vprintf string false fmt args).map fun r => (c0 :: r.1, r.2) := by
  rw [vprintf, if_pos rfl, if_neg h]

lemma vprintf_percent :
    vprintf string false (ch '%' :: fmt) args = vprintf string true fmt args := by
  rw [vprintf, if_pos rfl, if_pos rfl]

lemma vprintf_nil {state : Bool} :
    vprintf string state [] args = some ([], state, args) := by rw [vprintf]

lemma isPrefixOf_append_percent {w : List Byte} (hw : ch '%' ∉ w) (pre x : List Byte) :
    w.isPrefixOf (pre ++ ch '%' :: x) = w.isPrefixOf pre := by
  induction pre generalizing w with
  | nil =>
    cases w with
    | nil => rfl
    | cons c w => simp [isPrefixOf, Ne.symm (ne_of_not_mem_cons hw)]
  | cons c pre ih =>
    cases w with
    | nil => rfl
    | cons c' w => simp [isPrefixOf, ih (not_mem_of_not_mem_cons hw)]

lemma conv_append_percent (c0 : Byte) (pre x : List Byte) :
    conv (c0 :: (pre ++ ch '%' :: x)) = conv (c0 :: pre) ∧
      (conv (c0 :: pre)).2 - 1 ≤ pre.length := by
  constructor
  · have hall : ∀ r ∈ conversions, r.1 ≠ [] ∧ ch '%' ∉ r.1.tail := by decide
    have hf : conversions.find? (·.1.isPrefixOf (c0 :: (pre ++ ch '%' :: x))) =
        conversions.find? (·.1.isPrefixOf (c0 :: pre)) := by
      refine find?_congr fun r hr => ?_
      obtain ⟨hne, ht⟩ := hall r hr
      obtain ⟨c, w, hw⟩ := exists_cons_of_ne_nil hne
      rw [hw, tail_cons] at ht
      simp [hw, isPrefixOf, isPrefixOf_append_percent ht]
    rw [conv, hf, conv]
  · obtain he | ⟨r, -, hp, he⟩ := conv_cases (c0 :: pre)
    · simp [he]
    · have := ( isPrefixOf_iff_prefix.mp hp).length_le
      rw [he]
      simp at this ⊢
      omega

lemma vprintf_append (string : Reg → List Byte) (x : List Byte) : ∀ (state : Bool) (pre : List Byte) (args : List Reg),
    ∃ r, vprintf string state pre args = some r ∧
      vprintf string state (pre ++ ch '%' :: x) args =
        (vprintf string r.2.1 (ch '%' :: x) r.2.2).map fun q => (r.1 ++ q.1, q.2)
  | state, [], args => ⟨_, vprintf_nil, by simp⟩
  | false, c0 :: pre, args => by
    by_cases hc : c0 = ch '%'
    · simp only [hc, cons_append, vprintf_percent]
      exact vprintf_append string x true pre args
    · obtain ⟨r, hr, he⟩ := vprintf_append string x false pre args
      refine ⟨_, by rw [vprintf_char hc, hr, Option.map_some], ?_⟩
      rw [cons_append, vprintf_char hc, he, Option.map_map]
      rfl
  | true, c0 :: pre, args => by
    obtain ⟨hx, hle⟩ := conv_append_percent c0 pre x
    obtain ⟨q, hc⟩ := convert_isSome c0 (c0 :: pre) args
    obtain ⟨r, hr, he⟩ := vprintf_append string x false (pre.drop ((conv (c0 :: pre)).2 - 1)) q.2
    refine ⟨_, by rw [vprintf_conv hc, hr, Option.map_some], ?_⟩
    rw [← hx] at hc
    rw [cons_append, vprintf_conv hc, hx, drop_append_of_le_length hle, he,
      Option.map_map]
    simp [Function.comp_def]
termination_by _ pre => pre.length

def Right : Fin 3 → Kind → Reg → Prop
  | 0, _, _ => True
  | _, .d, v => -2 ^ 31 ≤ v.toInt ∧ v.toInt < 2 ^ 31
  | _, _, v => v.toNat < 2 ^ 32

lemma value_setWidth_iff (ls : Fin 3) (k : Kind) (v : Reg) :
    value k.sign (v.setWidth 32) = meant ls k v ↔ Right ls k v := by
  by_cases hl : ls = 0
  · simp [hl, meant, Right]
  · have hr : Right ls k v = Right 1 k v := by
      fin_cases ls <;> cases k <;> first | rfl | exact absurd rfl hl
    have hv := v.isLt
    rw [meant, if_neg hl, hr]
    cases k <;> simp only [Right, Kind.sign, value, if_true, Bool.false_eq_true, if_false,
      BitVec.toInt_eq_toNat_cond, BitVec.toNat_setWidth, Nat.cast_inj]
    · split_ifs <;> omega
    all_goals omega

/-- Inside any format, a conversion prints the numeral of its argument and the rest of the format
follows, if and only if the argument fits in 32 bits; nothing is stored outside of the buffer. -/
theorem vprintf_conversion_iff {pre post out out' : List Byte} {args args' rest : List Reg}
    {state : Bool} {v : Reg} (ls : Fin 3) (k : Kind)
    (hpre : vprintf string false pre args = some (out, false, v :: args'))
    (hpost : vprintf string false post args' = some (out', state, rest)) :
    (∀ state fmt args, vprintf string state fmt args ≠ none) ∧
    (vprintf string false (pre ++ ch '%' :: (text ls k ++ post)) args =
      some (out ++ (numeral upperDigits k.base (meant ls k v) ++ out'), state, rest) ↔
        Right ls k v) := by
  constructor
  · intro state fmt args
    obtain ⟨r, hr, -⟩ := vprintf_append string [] state fmt args
    simp [hr]
  obtain ⟨r, hr, he⟩ := vprintf_append string (text ls k ++ post) false pre args
  obtain rfl := Option.some.inj (hr.symm.trans hpre)
  obtain ⟨c0, tail, ht⟩ := exists_cons_of_ne_nil (text_ne_nil ls k)
  have hconv := conv_text ls k post
  have hd : (tail ++ post).drop ((text ls k).length - 1) = post := by simp [ht]
  rw [ht, cons_append] at hconv
  rw [he, vprintf_percent, ht, cons_append, vprintf_conv (by rw [hconv, convert, headD_cons,
    number_eq, Option.map_some])]
  simp only [hconv, ← ht, hd, tail_cons, hpost, Option.map_some]
  rw [← value_setWidth_iff, ← numeral_inj legible_upper k.base_bounds.1 k.base_bounds.2]
  simp

/-- `a%lxb` on a number of 16 bits. -/
theorem vprintf_conversion_beef :
    vprintf (fun _ => []) false ([ch 'a'] ++ ch '%' :: (text 1 .x ++ [ch 'b'])) [0xBEEF] =
      some ([ch 'a'] ++ (numeral upperDigits 16 0xBEEF ++ [ch 'b']), false, []) := by
  have hc (c : Byte) (hc : c ≠ ch '%') (args : List Reg) :
      vprintf (fun _ => []) false [c] args = some ([c], false, args) := by
    rw [vprintf_char hc, vprintf_nil, Option.map_some]
  exact (vprintf_conversion_iff 1 .x (hc _ (by decide) _) (hc _ (by decide) _)).2.mpr
    (by decide : (0xBEEF : Reg).toNat < 2 ^ 32)

/-- `%lx` on a number of 33 bits loses the highest. -/
theorem vprintf_narrows :
    vprintf (fun _ => []) false (ch '%' :: text 1 .x) [0x100000001] =
      some ([ch '1'], false, []) := by
  have hc : convert number upperDigits (fun _ => []) (ch 'l') [0x100000001] (conv [ch 'l', ch 'x']).1 =
    some ([ch '1'], []) := rfl
  rw [vprintf_percent]
  exact (vprintf_conv hc).trans (congrArg _ vprintf_nil)

end User

end Xv6.Printf
