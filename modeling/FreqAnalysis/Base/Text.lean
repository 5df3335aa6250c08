import FreqAnalysis.Base.Bytes
import Mathlib.Data.List.Range

/-!
# Text encodings

The text formats C++ programs write by hand: bytes as groups of eight `'0'` and
`'1'` characters, lines separated by newlines, and decimal integers. Each
printer is paired with the reader that parses it back.
-/

namespace FreqAnalysis.Base

/-! ### Bytes as bit text -/

/-- The character printed for bit `j`, the test `(c & 1<<j) != 0`. -/
def bitChar (c : Byte) (j : ℕ) : Char := if c.val.testBit j then '1' else '0'

/-- Eight characters for one byte, bit 7 first. -/
def byteText (c : Byte) : List Char := [7, 6, 5, 4, 3, 2, 1, 0].map (bitChar c)

def bytesText (s : List Byte) : List Char := s.flatMap byteText

/-- Byte `i` read from bit text: `sum += pow(2, 7-j)` for every `'1'` at
position `i*8+j`, and the sum is cast to a `char`. -/
def textByte (t : List Char) (i : ℕ) : Byte :=
  Fin.ofNat 256 ((List.range 8).foldl
    (fun sum j => if t.getD (i * 8 + j) '\x00' = '1' then sum + 2 ^ (7 - j) else sum) 0)

def textBytes (n : ℕ) (t : List Char) : List Byte := (List.range n).map (textByte t)

theorem byteText_length (c : Byte) : (byteText c).length = 8 := rfl

@[simp] theorem textBytes_length (n : ℕ) (t : List Char) : (textBytes n t).length = n := by
  simp [textBytes]

theorem textByte_byteText (c : Byte) : textByte (byteText c) 0 = c := by
  revert c
  decide +kernel

theorem textByte_head (c : Byte) (t : List Char) : textByte (byteText c ++ t) 0 = c := by
  conv_rhs => rw [← textByte_byteText c]
  rfl

theorem textByte_tail (c : Byte) (t : List Char) (i : ℕ) :
    textByte (byteText c ++ t) (i + 1) = textByte t i := by
  have hget : ∀ j, (byteText c ++ t).getD ((i + 1) * 8 + j) '\x00' = t.getD (i * 8 + j) '\x00' := by
    intro j
    have hj : (i + 1) * 8 + j = (byteText c).length + (i * 8 + j) := by
      rw [byteText_length]
      ring
    rw [hj, List.getD_append_right _ _ _ _ (by omega), Nat.add_sub_cancel_left]
  simp only [textByte, hget]

theorem textBytes_bytesText (s : List Byte) (t : List Char) :
    textBytes s.length (bytesText s ++ t) = s := by
  induction s with
  | nil => rfl
  | cons c s ih =>
    simp only [textBytes, List.length_cons, List.range_succ_eq_map, List.map_cons, List.map_map,
      bytesText, List.flatMap_cons, List.append_assoc, textByte_head, List.cons.injEq, true_and]
    have htail : (textByte (byteText c ++ (List.flatMap byteText s ++ t)) ∘ Nat.succ)
        = textByte (List.flatMap byteText s ++ t) := by
      funext i
      exact textByte_tail c _ i
    rw [htail]
    exact ih

theorem bytesText_chars (s : List Byte) (ch : Char) (h : ch ∈ bytesText s) : ch = '0' ∨ ch = '1' := by
  simp only [bytesText, byteText, List.mem_flatMap, List.mem_map, bitChar] at h
  obtain ⟨c, _, j, _, rfl⟩ := h
  split
  · exact Or.inr rfl
  · exact Or.inl rfl

/-! ### Lines -/

/-- The loop `while (getline(f, temp))`, with `temp` the line read so far. The
text after the last newline is a line only when it is not empty. -/
def getLinesFrom : List Char → List Char → List (List Char)
  | temp, [] => if temp = [] then [] else [temp]
  | temp, c :: cs =>
    if c = '\n' then temp :: getLinesFrom [] cs else getLinesFrom (temp ++ [c]) cs

def getLines (text : List Char) : List (List Char) := getLinesFrom [] text

def putLines (ls : List (List Char)) : List Char := ls.flatMap (fun l => l ++ ['\n'])

theorem getLinesFrom_line (temp l : List Char) (rest : List Char) (h : '\n' ∉ l) :
    getLinesFrom temp (l ++ '\n' :: rest) = (temp ++ l) :: getLinesFrom [] rest := by
  induction l generalizing temp with
  | nil => simp [getLinesFrom]
  | cons c l ih =>
    have hc : c ≠ '\n' := fun h0 => h (h0 ▸ List.mem_cons_self ..)
    have hl : '\n' ∉ l := fun h0 => h (List.mem_cons_of_mem _ h0)
    simp only [List.cons_append, getLinesFrom, hc, if_false]
    rw [ih (temp ++ [c]) hl, List.append_assoc, List.singleton_append]

theorem getLines_putLines (ls : List (List Char)) (h : ∀ l ∈ ls, '\n' ∉ l) :
    getLines (putLines ls) = ls := by
  induction ls with
  | nil => rfl
  | cons l ls ih =>
    have hl : '\n' ∉ l := h l (List.mem_cons_self ..)
    have hls : ∀ m ∈ ls, '\n' ∉ m := fun m hm => h m (List.mem_cons_of_mem _ hm)
    have hrec := ih hls
    simp only [getLines, putLines, List.flatMap_cons, List.append_assoc, List.singleton_append]
      at hrec ⊢
    rw [getLinesFrom_line [] l _ hl, hrec, List.nil_append]

theorem newline_not_mem_bytesText (s : List Byte) : '\n' ∉ bytesText s := by
  intro h
  rcases bytesText_chars s '\n' h with h | h <;> simp at h

/-! ### Integers of 32 bits -/

/-- A number in an `int`: the low 32 bits, with their sign. -/
def cInt (n : ℤ) : ℤ := (BitVec.ofInt 32 n).toInt

theorem cInt_eq_bmod (n : ℤ) : cInt n = n.bmod (2 ^ 32) := BitVec.toInt_ofInt n

theorem cInt_of_bounds {n : ℤ} (hlow : -2 ^ 31 ≤ n) (hhigh : n < 2 ^ 31) : cInt n = n := by
  rw [cInt_eq_bmod]
  exact Int.bmod_eq_of_le (by omega) (by omega)

/-- Sums may be cut to 32 bits on the way. -/
theorem cInt_add (m n : ℤ) : cInt (cInt m + n) = cInt (m + n) := by
  rw [cInt_eq_bmod, cInt_eq_bmod, cInt_eq_bmod, Int.bmod_add_bmod]

/-! ### Decimal integers -/

/-- `isspace` in the C locale. -/
def isSpace (c : Char) : Bool := [' ', '\t', '\n', '\x0b', '\x0c', '\x0d'].contains c

theorem isSpace_of_isDigit (c : Char) (h : c.isDigit = true) : isSpace c = false := by
  by_contra hs
  rw [Bool.not_eq_false, isSpace, List.contains_iff_mem] at hs
  simp only [List.mem_cons, List.not_mem_nil, or_false] at hs
  rcases hs with rfl | rfl | rfl | rfl | rfl | rfl <;> simp [Char.isDigit] at h

/-- Decimal text of an integer, as printed by `%d` and `operator<<`. -/
def decimal : ℤ → List Char
  | .ofNat n => Nat.toDigits 10 n
  | .negSucc n => '-' :: Nat.toDigits 10 (n + 1)

/-- `fscanf(f, "%d", &x)`: leading blanks are skipped, then a sign is optional
and at least one digit is required. -/
def scanDecimal (text : List Char) : Option ℤ :=
  let t := text.dropWhile isSpace
  let signed := t.head? = some '-'
  let ds := ((if t.head? = some '-' ∨ t.head? = some '+' then t.tail else t)).takeWhile Char.isDigit
  if ds = [] then none
  else some (if signed then -(Nat.ofDigitChars 10 ds 0 : ℤ) else (Nat.ofDigitChars 10 ds 0 : ℤ))

theorem decimal_natCast (n : ℕ) : decimal (n : ℤ) = Nat.toDigits 10 n := rfl

theorem isDigit_of_mem_decimal (n : ℕ) (c : Char) (h : c ∈ decimal (n : ℤ)) : c.isDigit = true := by
  rw [decimal_natCast] at h
  exact Nat.isDigit_of_mem_toDigits (by norm_num) (by norm_num) h

theorem decimal_ne_nil (n : ℕ) : decimal (n : ℤ) ≠ [] := by
  rw [decimal_natCast]
  exact Nat.toDigits_ne_nil

theorem decimal_head (n : ℕ) : ∃ c cs, decimal (n : ℤ) = c :: cs ∧ c.isDigit = true := by
  obtain ⟨c, cs, hcs⟩ := List.exists_cons_of_ne_nil (decimal_ne_nil n)
  exact ⟨c, cs, hcs, isDigit_of_mem_decimal n c (by rw [hcs]; exact List.mem_cons_self ..)⟩

theorem not_sign_of_isDigit {c : Char} (h : c.isDigit = true) : ¬ c = '-' ∧ ¬ c = '+' := by
  constructor <;> rintro rfl <;> simp [Char.isDigit] at h

theorem decimal_injective (m n : ℕ) (h : decimal (m : ℤ) = decimal (n : ℤ)) : m = n := by
  rw [decimal_natCast, decimal_natCast] at h
  rw [← Nat.ofDigitChars_ten_toDigits (n := m), h, Nat.ofDigitChars_ten_toDigits]

theorem takeWhile_digits_append (ds rest : List Char) (h : ∀ c ∈ ds, c.isDigit = true)
    (hrest : rest.head?.all (fun c => !c.isDigit) = true) :
    (ds ++ rest).takeWhile Char.isDigit = ds := by
  rw [List.takeWhile_append_of_pos h]
  cases rest with
  | nil => simp
  | cons c cs =>
    have hc : c.isDigit = false := by simpa using hrest
    simp [hc]

theorem scanDecimal_decimal (n : ℕ) (rest : List Char)
    (hrest : rest.head?.all (fun c => !c.isDigit) = true) :
    scanDecimal (decimal (n : ℤ) ++ rest) = some (n : ℤ) := by
  obtain ⟨c, cs, hcs, hc⟩ := decimal_head n
  have hdig : ∀ d ∈ decimal (n : ℤ), d.isDigit = true := isDigit_of_mem_decimal n
  have hsign := not_sign_of_isDigit hc
  have hdrop : (decimal (n : ℤ) ++ rest).dropWhile isSpace = decimal (n : ℤ) ++ rest := by
    rw [hcs]
    simp [isSpace_of_isDigit c hc]
  have hhead : (decimal (n : ℤ) ++ rest).head? = some c := by
    rw [hcs]
    rfl
  have hval : Nat.ofDigitChars 10 (decimal (n : ℤ)) 0 = n := by
    rw [decimal_natCast]
    exact Nat.ofDigitChars_ten_toDigits
  simp only [scanDecimal, hdrop, hhead, Option.some.injEq, hsign.1, hsign.2, or_self, if_false,
    takeWhile_digits_append _ rest hdig hrest, decimal_ne_nil, hval]

end FreqAnalysis.Base
