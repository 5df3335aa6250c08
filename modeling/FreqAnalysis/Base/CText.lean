import FreqAnalysis.Base.Text
import Mathlib.Data.List.Infix

/-!
# Reading text with the C library

The functions a C program reads a text file with: `fgets` into a buffer,
`strpbrk`, `strtok`, `strtol` and `atoi`. A buffer is the list of its characters,
and a string ends at its first NUL. `strtok` returns the token and what its
static pointer keeps for the next call.
-/

namespace FreqAnalysis.Base

/-! ### Lines -/

/-- At most `n` characters, up to a newline and with it. -/
def readUpTo : ℕ → List Char → List Char × List Char
  | 0, text => ([], text)
  | _ + 1, [] => ([], [])
  | n + 1, c :: text =>
    if c = '\n' then ([c], text)
    else (c :: (readUpTo n text).1, (readUpTo n text).2)

/-- `fgets(buf, size, f)`; `none` at the end of the file. -/
def fgets (size : ℕ) (text : List Char) : Option (List Char × List Char) :=
  if text = [] then none else some (readUpTo (size - 1) text)

def fgetsFrom (size : ℕ) : ℕ → List Char → List (List Char)
  | 0, _ => []
  | fuel + 1, text =>
    match fgets size text with
    | none => []
    | some (line, rest) => line :: fgetsFrom size fuel rest

/-- The buffers of the loop `while (fgets(buf, size, f))`. Every call takes a
character when the buffer holds one. -/
def fgetsAll (size : ℕ) (text : List Char) : List (List Char) := fgetsFrom size text.length text

theorem readUpTo_line (n : ℕ) (l rest : List Char) (h : '\n' ∉ l) (hlen : l.length < n) :
    readUpTo n (l ++ '\n' :: rest) = (l ++ ['\n'], rest) := by
  induction l generalizing n with
  | nil =>
    obtain ⟨n, rfl⟩ := Nat.exists_eq_add_of_lt hlen
    simp [readUpTo]
  | cons c l ih =>
    obtain ⟨hc, hl⟩ : ¬ '\n' = c ∧ '\n' ∉ l := by simpa using h
    cases n with
    | zero => simp at hlen
    | succ n =>
      have hrec := ih n hl (by simpa using hlen)
      rw [List.cons_append, readUpTo, if_neg (Ne.symm hc), hrec, List.cons_append]

theorem fgetsFrom_putLines (size fuel : ℕ) (ls : List (List Char)) (hfuel : ls.length ≤ fuel)
    (h : ∀ l ∈ ls, '\n' ∉ l ∧ l.length + 1 < size) :
    fgetsFrom size fuel (putLines ls) = ls.map (· ++ ['\n']) := by
  induction ls generalizing fuel with
  | nil =>
    cases fuel with
    | zero => rfl
    | succ fuel => rfl
  | cons l ls ih =>
    obtain ⟨hnl, hlen⟩ := h l (List.mem_cons_self ..)
    have hls : ∀ m ∈ ls, '\n' ∉ m ∧ m.length + 1 < size :=
      fun m hm => h m (List.mem_cons_of_mem _ hm)
    have htext : putLines (l :: ls) = l ++ '\n' :: putLines ls := by
      rw [putLines, List.flatMap_cons, List.append_assoc]
      rfl
    cases fuel with
    | zero => simp at hfuel
    | succ fuel =>
      have hrec := ih fuel (by simpa using hfuel) hls
      have hne : ¬ l ++ '\n' :: putLines ls = [] := by simp
      rw [htext, fgetsFrom, fgets, if_neg hne,
        readUpTo_line _ _ _ hnl (by omega : l.length < size - 1)]
      simp only [hrec, List.map_cons]

theorem length_le_putLines (ls : List (List Char)) : ls.length ≤ (putLines ls).length := by
  induction ls with
  | nil => exact Nat.le_refl _
  | cons l ls ih =>
    simp only [putLines, List.flatMap_cons, List.length_append, List.length_cons] at ih ⊢
    omega

theorem fgetsAll_putLines (size : ℕ) (ls : List (List Char))
    (h : ∀ l ∈ ls, '\n' ∉ l ∧ l.length + 1 < size) :
    fgetsAll size (putLines ls) = ls.map (· ++ ['\n']) :=
  fgetsFrom_putLines size _ ls (length_le_putLines ls) h

/-! ### Strings and tokens -/

def cText (buf : List Char) : List Char := buf.takeWhile (· ≠ '\x00')

/-- `strpbrk(s, accept) != NULL`. -/
def strpbrk (s accept : List Char) : Bool := s.any (accept.contains ·)

def strtok (delim s : List Char) : Option (List Char × List Char) :=
  let t := s.dropWhile (delim.contains ·)
  if t = [] then none
  else some (t.takeWhile (!delim.contains ·), (t.dropWhile (!delim.contains ·)).tail)

theorem cText_eq_self (buf : List Char) (h : '\x00' ∉ buf) : cText buf = buf := by
  apply List.takeWhile_eq_self_iff.mpr
  intro c hc
  have : c ≠ '\x00' := fun h0 => h (h0 ▸ hc)
  simpa using this

theorem strtok_skip (delim s : List Char) (d : Char) (hd : d ∈ delim) :
    strtok delim (d :: s) = strtok delim s := by
  have hdrop : (d :: s).dropWhile (delim.contains ·) = s.dropWhile (delim.contains ·) :=
    List.dropWhile_cons_of_pos (by simpa using hd)
  simp only [strtok, hdrop]

theorem strtok_token (delim tok rest : List Char) (d : Char) (hne : tok ≠ [])
    (htok : ∀ c ∈ tok, c ∉ delim) (hd : d ∈ delim) :
    strtok delim (tok ++ d :: rest) = some (tok, rest) := by
  obtain ⟨c, cs, rfl⟩ := List.exists_cons_of_ne_nil hne
  have hc : c ∉ delim := htok c (List.mem_cons_self ..)
  have hstart : ((c :: cs) ++ d :: rest).dropWhile (delim.contains ·) = (c :: cs) ++ d :: rest :=
    List.dropWhile_cons_of_neg (by simpa using hc)
  have hall : ∀ x ∈ c :: cs, (!delim.contains x) = true := by
    intro x hx
    simpa using htok x hx
  have htake : (d :: rest).takeWhile (!delim.contains ·) = [] :=
    List.takeWhile_cons_of_neg (by simpa using hd)
  have hdrop : (d :: rest).dropWhile (!delim.contains ·) = d :: rest :=
    List.dropWhile_cons_of_neg (by simpa using hd)
  have hcons : ¬ (c :: cs) ++ d :: rest = [] := by simp
  simp only [strtok, hstart, if_neg hcons, List.takeWhile_append_of_pos hall,
    List.dropWhile_append_of_pos hall, htake, hdrop, List.append_nil, List.tail_cons]

/-! ### Numbers -/

def digitValue (c : Char) : Option ℕ :=
  if '0' ≤ c ∧ c ≤ '9' then some (c.toNat - 48)
  else if 'a' ≤ c ∧ c ≤ 'z' then some (c.toNat - 87)
  else if 'A' ≤ c ∧ c ≤ 'Z' then some (c.toNat - 55)
  else none

def isDigitOf (base : ℕ) (c : Char) : Bool := (digitValue c).any (· < base)

def digitsValue (base : ℕ) (ds : List Char) : ℕ :=
  ds.foldl (fun n c => base * n + (digitValue c).getD 0) 0

/-- The mark `0x` that base 16 allows before a digit. -/
def skipMark : List Char → List Char
  | '0' :: x :: d :: rest =>
    if (x = 'x' ∨ x = 'X') ∧ isDigitOf 16 d = true then d :: rest else '0' :: x :: d :: rest
  | s => s

/-- `strtol(s, NULL, base)` with a 64-bit `long`, for the bases 10 and 16. -/
def strtol (base : ℕ) (s : List Char) : ℤ :=
  let t := s.dropWhile isSpace
  let u := if t.head? = some '-' ∨ t.head? = some '+' then t.tail else t
  let n := digitsValue base ((if base = 16 then skipMark u else u).takeWhile (isDigitOf base))
  if t.head? = some '-' then max (-(n : ℤ)) (-2 ^ 63) else min (n : ℤ) (2 ^ 63 - 1)

/-- `atoi(s)`: the `long` is cast to an `int`. -/
def atoi (s : List Char) : ℤ := cInt (strtol 10 s)

theorem digitValue_of_isDigit (c : Char) (h : c.isDigit = true) :
    digitValue c = some (c.toNat - 48) ∧ c.toNat - 48 < 10 := by
  simp only [Char.isDigit, Bool.and_eq_true, decide_eq_true_eq] at h
  have h0 : '0' ≤ c ∧ c ≤ '9' := h
  refine ⟨if_pos h0, ?_⟩
  have h9 : c.toNat ≤ 57 := h.2
  omega

theorem isDigitOf_ten_of_isDigit (c : Char) (h : c.isDigit = true) : isDigitOf 10 c = true := by
  obtain ⟨hv, hlt⟩ := digitValue_of_isDigit c h
  simp [isDigitOf, hv, hlt]

theorem decimal_length_le (n k : ℕ) (hk : 0 < k) (h : n < 10 ^ k) :
    (decimal (n : ℤ)).length ≤ k := by
  rw [decimal_natCast]
  exact (Nat.length_toDigits_le_iff (by norm_num) hk).mpr h

theorem digitsValue_decimal (n : ℕ) : digitsValue 10 (decimal (n : ℤ)) = n := by
  have hfold : ∀ (ds : List Char) (k : ℕ), (∀ c ∈ ds, c.isDigit = true) →
      ds.foldl (fun n c => 10 * n + (digitValue c).getD 0) k = Nat.ofDigitChars 10 ds k := by
    intro ds
    induction ds with
    | nil => intro k _; rfl
    | cons c ds ih =>
      intro k h
      have hv := (digitValue_of_isDigit c (h c (List.mem_cons_self ..))).1
      rw [List.foldl_cons, ih _ (fun d hd => h d (List.mem_cons_of_mem _ hd)), hv]
      rfl
  rw [digitsValue, hfold _ 0 (isDigit_of_mem_decimal n), decimal_natCast,
    Nat.ofDigitChars_ten_toDigits]

theorem strtol_decimal (n : ℕ) (rest : List Char) (hn : n < 2 ^ 63)
    (hrest : rest.head?.all (fun c => !isDigitOf 10 c) = true) :
    strtol 10 (decimal (n : ℤ) ++ rest) = n := by
  obtain ⟨c, cs, hcs, hc⟩ := decimal_head n
  have hdig : ∀ d ∈ decimal (n : ℤ), d.isDigit = true := isDigit_of_mem_decimal n
  have hdrop : (decimal (n : ℤ) ++ rest).dropWhile isSpace = decimal (n : ℤ) ++ rest := by
    rw [hcs, List.cons_append, List.dropWhile_cons_of_neg]
    simp [isSpace_of_isDigit c hc]
  have hsign := not_sign_of_isDigit hc
  have hhead : (decimal (n : ℤ) ++ rest).head? = some c := by
    rw [hcs]
    rfl
  have htake : (decimal (n : ℤ) ++ rest).takeWhile (isDigitOf 10) = decimal (n : ℤ) := by
    rw [List.takeWhile_append_of_pos fun d hd => isDigitOf_ten_of_isDigit d (hdig d hd)]
    cases rest with
    | nil => simp
    | cons d rest =>
      have hd : isDigitOf 10 d = false := by simpa using hrest
      simp [hd]
  simp only [strtol, hdrop, hhead, Option.some.injEq, hsign.1, hsign.2, or_self, if_false,
    htake, digitsValue_decimal, show ¬ (10 : ℕ) = 16 by decide]
  omega

theorem atoi_decimal (n : ℕ) (rest : List Char) (hn : n < 2 ^ 31)
    (hrest : rest.head?.all (fun c => !isDigitOf 10 c) = true) :
    atoi (decimal (n : ℤ) ++ rest) = n := by
  rw [atoi, strtol_decimal n rest (by omega) hrest]
  exact cInt_of_bounds (by omega) (by omega)

/-- The cast keeps the lower half of the `long`. -/
theorem atoi_decimal_low (n : ℕ) (rest : List Char) (hn : n < 2 ^ 63) (hlow : n % 2 ^ 32 < 2 ^ 31)
    (hrest : rest.head?.all (fun c => !isDigitOf 10 c) = true) :
    atoi (decimal (n : ℤ) ++ rest) = (n % 2 ^ 32 : ℕ) := by
  have hcast : ((n : ℤ) % ((2 ^ 32 : ℕ) : ℤ)) = ((n % 2 ^ 32 : ℕ) : ℤ) := by norm_cast
  rw [atoi, strtol_decimal n rest hn hrest, cInt_eq_bmod, ← Int.emod_bmod, hcast]
  exact Int.bmod_eq_of_le (by omega) (by omega)

/-! ### Two hexadecimal digits -/

/-- `printf("%.2hhx", c)`. -/
def hexByte (c : Byte) : List Char := [Nat.digitChar (c.val / 16), Nat.digitChar (c.val % 16)]

theorem strtol_hexByte (c : Byte) : Fin.ofNat 256 (strtol 16 (hexByte c) % 256).toNat = c := by
  revert c
  decide +kernel

def isHex (c : Char) : Bool := c.isDigit || ('a' ≤ c && c ≤ 'f')

theorem isHex_of_mem_hexByte (c : Byte) (x : Char) (h : x ∈ hexByte c) : isHex x = true := by
  have hall : ∀ c : Byte, (hexByte c).all isHex = true := by decide +kernel
  exact List.all_eq_true.mp (hall c) x h

end FreqAnalysis.Base
