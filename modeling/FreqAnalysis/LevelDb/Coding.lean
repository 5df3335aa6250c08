import FreqAnalysis.Base.Text

/-!
# Number and string encodings of the database files

`util/coding.cc`: little-endian words of fixed width, numbers in base 128 with
a continuation bit, and strings behind their length. A decoder works on the
bytes from the current position on and returns what is left of them.
-/

namespace FreqAnalysis.LevelDb

open Base

/-! ### Fixed-width words -/

def encodeFixed32 (value : ℕ) : List Byte := leBytes 4 value

def encodeFixed64 (value : ℕ) : List Byte := leBytes 8 value

def decodeFixed32 (ptr : List Byte) : ℕ := leVal (ptr.take 4)

def decodeFixed64 (ptr : List Byte) : ℕ := leVal (ptr.take 8)

@[simp] theorem encodeFixed32_length (v : ℕ) : (encodeFixed32 v).length = 4 := leBytes_length 4 v

@[simp] theorem encodeFixed64_length (v : ℕ) : (encodeFixed64 v).length = 8 := leBytes_length 8 v

theorem decodeFixed32_encodeFixed32 (v : ℕ) (rest : List Byte) (h : v < 2 ^ 32) :
    decodeFixed32 (encodeFixed32 v ++ rest) = v := by
  rw [decodeFixed32, List.take_left' (encodeFixed32_length v), encodeFixed32, leVal_leBytes]
  exact Nat.mod_eq_of_lt (by norm_num; exact h)

theorem decodeFixed64_encodeFixed64 (v : ℕ) (rest : List Byte) (h : v < 2 ^ 64) :
    decodeFixed64 (encodeFixed64 v ++ rest) = v := by
  rw [decodeFixed64, List.take_left' (encodeFixed64_length v), encodeFixed64, leVal_leBytes]
  exact Nat.mod_eq_of_lt (by norm_num; exact h)

/-! ### Numbers in base 128 -/

/-- The store of a word through an `unsigned char` pointer. -/
def byteOf (v : ℕ) : Byte := Fin.ofNat 256 v

/-- The argument is a `uint32_t`. -/
def encodeVarint32 (v : ℕ) : List Byte :=
  if v < 1 <<< 7 then [byteOf v]
  else if v < 1 <<< 14 then [byteOf (v ||| 128), byteOf (v >>> 7)]
  else if v < 1 <<< 21 then [byteOf (v ||| 128), byteOf (v >>> 7 ||| 128), byteOf (v >>> 14)]
  else if v < 1 <<< 28 then
    [byteOf (v ||| 128), byteOf (v >>> 7 ||| 128), byteOf (v >>> 14 ||| 128), byteOf (v >>> 21)]
  else
    [byteOf (v ||| 128), byteOf (v >>> 7 ||| 128), byteOf (v >>> 14 ||| 128),
      byteOf (v >>> 21 ||| 128), byteOf (v >>> 28)]

/-- The loop of `GetVarint32PtrFallback`; the bytes are those from `p` to `limit`. -/
def getVarint32PtrFallback (shift result : ℕ) : List Byte → Option (ℕ × List Byte)
  | [] => none
  | byte :: p =>
    if shift ≤ 28 then
      if byte.val &&& 128 ≠ 0 then
        getVarint32PtrFallback (shift + 7) (result ||| ((byte.val &&& 127) <<< shift) % 2 ^ 32) p
      else some (result ||| (byte.val <<< shift) % 2 ^ 32, p)
    else none

def getVarint32Ptr (p : List Byte) : Option (ℕ × List Byte) :=
  match p with
  | byte :: rest =>
    if byte.val &&& 128 = 0 then some (byte.val, rest) else getVarint32PtrFallback 0 0 p
  | [] => getVarint32PtrFallback 0 0 p

@[simp] theorem val_byteOf_of_lt (v : ℕ) (h : v < 256) : (byteOf v).val = v :=
  Nat.mod_eq_of_lt h

theorem and_128_eq_zero_iff (b : Byte) : b.val &&& 128 = 0 ↔ b.val < 128 := by
  revert b
  decide +kernel

theorem val_byteOf_or (x : ℕ) : (byteOf (x ||| 128)).val = x % 128 + 128 := by
  have hval : (byteOf (x ||| 128)).val = (x ||| 128) % 2 ^ 8 := rfl
  have hbits : ∀ y : Fin 256, y.val ||| 128 = y.val % 128 + 128 := by decide +kernel
  have hlow : x % 2 ^ 8 < 256 := Nat.mod_lt _ (by decide)
  have hor := hbits ⟨x % 2 ^ 8, hlow⟩
  have h128 : 128 % 2 ^ 8 = 128 := by decide
  rw [hval, Nat.or_mod_two_pow, h128, hor]
  dsimp only
  omega

theorem or_shiftLeft (result x shift : ℕ) (hr : result < 2 ^ shift) (hx : x <<< shift < 2 ^ 32) :
    result ||| (x <<< shift) % 2 ^ 32 = result + x * 2 ^ shift := by
  rw [Nat.mod_eq_of_lt hx, Nat.or_comm, Nat.shiftLeft_eq, Nat.mul_comm,
    ← Nat.two_pow_add_eq_or_of_lt hr]
  ring

theorem getVarint32PtrFallback_more (shift result x : ℕ) (p : List Byte) (hs : shift ≤ 21)
    (hr : result < 2 ^ shift) :
    getVarint32PtrFallback shift result (byteOf (x ||| 128) :: p) =
      getVarint32PtrFallback (shift + 7) (result + x % 128 * 2 ^ shift) p := by
  have hval := val_byteOf_or x
  have hcont : (byteOf (x ||| 128)).val &&& 128 ≠ 0 := by
    intro h0
    have := (and_128_eq_zero_iff _).mp h0
    omega
  have hlow : (byteOf (x ||| 128)).val &&& 127 = x % 128 := by
    have hmask := Nat.and_two_pow_sub_one_eq_mod (byteOf (x ||| 128)).val 7
    norm_num at hmask
    rw [hmask, hval]
    omega
  have hfit : (x % 128) <<< shift < 2 ^ 32 := by
    rw [Nat.shiftLeft_eq]
    calc x % 128 * 2 ^ shift < 128 * 2 ^ shift :=
          Nat.mul_lt_mul_of_pos_right (Nat.mod_lt _ (by decide)) (Nat.two_pow_pos shift)
      _ ≤ 128 * 2 ^ 21 := Nat.mul_le_mul_left _ (Nat.pow_le_pow_right (by decide) hs)
      _ ≤ 2 ^ 32 := by norm_num
  rw [getVarint32PtrFallback, if_pos (by omega), if_pos hcont, hlow,
    or_shiftLeft result _ shift hr hfit]

theorem getVarint32PtrFallback_last (shift result x : ℕ) (p : List Byte) (hs : shift ≤ 28)
    (hr : result < 2 ^ shift) (hx : x < 128) (hfit : x * 2 ^ shift < 2 ^ 32) :
    getVarint32PtrFallback shift result (byteOf x :: p) = some (result + x * 2 ^ shift, p) := by
  have hval : (byteOf x).val = x := val_byteOf_of_lt x (by omega)
  have hstop : (byteOf x).val &&& 128 = 0 := (and_128_eq_zero_iff _).mpr (by omega)
  rw [getVarint32PtrFallback, if_pos hs, if_neg (by rw [hstop]; simp), hval,
    or_shiftLeft result x shift hr (by rwa [Nat.shiftLeft_eq])]

theorem getVarint32Ptr_more (x : ℕ) (p : List Byte) :
    getVarint32Ptr (byteOf (x ||| 128) :: p) = getVarint32PtrFallback 7 (x % 128) p := by
  have hval := val_byteOf_or x
  have hcont : ¬ (byteOf (x ||| 128)).val &&& 128 = 0 := by
    intro h0
    have := (and_128_eq_zero_iff _).mp h0
    omega
  have hstep := getVarint32PtrFallback_more 0 0 x p (by decide) (by decide)
  rw [getVarint32Ptr, if_neg hcont, hstep]
  simp

theorem getVarint32Ptr_encodeVarint32 (v : ℕ) (rest : List Byte) (h : v < 2 ^ 32) :
    getVarint32Ptr (encodeVarint32 v ++ rest) = some (v, rest) := by
  have hp7 : 1 <<< 7 = 2 ^ 7 := by decide
  have hp14 : 1 <<< 14 = 2 ^ 14 := by decide
  have hp21 : 1 <<< 21 = 2 ^ 21 := by decide
  have hp28 : 1 <<< 28 = 2 ^ 28 := by decide
  rw [encodeVarint32, hp7, hp14, hp21, hp28]
  simp only [Nat.shiftRight_eq_div_pow]
  split_ifs with h7 h14 h21 h28
  · have hval : (byteOf v).val = v := val_byteOf_of_lt v (by omega)
    have hstop : (byteOf v).val &&& 128 = 0 := (and_128_eq_zero_iff _).mpr (by omega)
    rw [List.singleton_append, getVarint32Ptr, if_pos hstop, hval]
  · have hlast : v / 2 ^ 7 * 2 ^ 7 < 2 ^ 32 := by omega
    simp only [List.cons_append, List.nil_append]
    rw [getVarint32Ptr_more, getVarint32PtrFallback_last 7 _ _ rest (by decide) (by omega)
      (by omega) hlast]
    have hsum : v % 128 + v / 2 ^ 7 * 2 ^ 7 = v := by omega
    rw [hsum]
  · have hlast : v / 2 ^ 14 * 2 ^ 14 < 2 ^ 32 := by omega
    simp only [List.cons_append, List.nil_append]
    rw [getVarint32Ptr_more, getVarint32PtrFallback_more 7 _ _ _ (by decide) (by omega),
      getVarint32PtrFallback_last (7 + 7) _ _ rest (by decide) (by omega) (by omega) hlast]
    have hsum : v % 128 + v / 2 ^ 7 % 128 * 2 ^ 7 + v / 2 ^ 14 * 2 ^ (7 + 7) = v := by omega
    rw [hsum]
  · have hlast : v / 2 ^ 21 * 2 ^ 21 < 2 ^ 32 := by omega
    simp only [List.cons_append, List.nil_append]
    rw [getVarint32Ptr_more, getVarint32PtrFallback_more 7 _ _ _ (by decide) (by omega),
      getVarint32PtrFallback_more (7 + 7) _ _ _ (by decide) (by omega),
      getVarint32PtrFallback_last (7 + 7 + 7) _ _ rest (by decide) (by omega) (by omega) hlast]
    have hsum : v % 128 + v / 2 ^ 7 % 128 * 2 ^ 7 + v / 2 ^ 14 % 128 * 2 ^ (7 + 7) +
        v / 2 ^ 21 * 2 ^ (7 + 7 + 7) = v := by omega
    rw [hsum]
  · have hlast : v / 2 ^ 28 * 2 ^ 28 < 2 ^ 32 := by omega
    simp only [List.cons_append, List.nil_append]
    rw [getVarint32Ptr_more, getVarint32PtrFallback_more 7 _ _ _ (by decide) (by omega),
      getVarint32PtrFallback_more (7 + 7) _ _ _ (by decide) (by omega),
      getVarint32PtrFallback_more (7 + 7 + 7) _ _ _ (by decide) (by omega),
      getVarint32PtrFallback_last (7 + 7 + 7 + 7) _ _ rest (by decide) (by omega) (by omega) hlast]
    have hsum : v % 128 + v / 2 ^ 7 % 128 * 2 ^ 7 + v / 2 ^ 14 % 128 * 2 ^ (7 + 7) +
        v / 2 ^ 21 % 128 * 2 ^ (7 + 7 + 7) + v / 2 ^ 28 * 2 ^ (7 + 7 + 7 + 7) = v := by omega
    rw [hsum]

/-! ### Strings behind their length -/

/-- The length is passed as a `uint32_t`. -/
def putLengthPrefixedSlice (value : List Byte) : List Byte :=
  encodeVarint32 (value.length % 2 ^ 32) ++ value

def getLengthPrefixedSlice (input : List Byte) : Option (List Byte × List Byte) :=
  match getVarint32Ptr input with
  | some (len, rest) => if len ≤ rest.length then some (rest.take len, rest.drop len) else none
  | none => none

theorem getLengthPrefixedSlice_put (s rest : List Byte) (h : s.length < 2 ^ 32) :
    getLengthPrefixedSlice (putLengthPrefixedSlice s ++ rest) = some (s, rest) := by
  rw [getLengthPrefixedSlice, putLengthPrefixedSlice, Nat.mod_eq_of_lt h, List.append_assoc,
    getVarint32Ptr_encodeVarint32 _ _ h]
  simp

end FreqAnalysis.LevelDb
