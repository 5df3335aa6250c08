import FreqAnalysis.Base.Bytes
import Mathlib.Data.BitVec

/-!
# Cyclic redundancy checks in reflected form

The register of a reflected CRC shifts right and takes the polynomial in when a
one falls out. Shifting is linear over exclusive or, and undone by the
polynomial's top bit; table-driven code computes several of its steps at once.
-/

namespace FreqAnalysis.Base.Crc

variable {w : ℕ} (poly : BitVec w)

def bitStep (x : BitVec w) : BitVec w := (x >>> 1) ^^^ (if x.getLsbD 0 then poly else 0#w)

def bits : ℕ → BitVec w → BitVec w
  | 0, x => x
  | n + 1, x => bits n (bitStep poly x)

theorem bitStep_xor (x y : BitVec w) :
    bitStep poly (x ^^^ y) = bitStep poly x ^^^ bitStep poly y := by
  have hsel : (if (x ^^^ y).getLsbD 0 then poly else 0#w) =
      (if x.getLsbD 0 then poly else 0#w) ^^^ (if y.getLsbD 0 then poly else 0#w) := by
    rw [BitVec.getLsbD_xor]
    cases x.getLsbD 0 <;> cases y.getLsbD 0 <;> simp
  rw [bitStep, bitStep, bitStep, hsel, BitVec.ushiftRight_xor_distrib]
  ac_rfl

theorem bits_xor (n : ℕ) (x y : BitVec w) :
    bits poly n (x ^^^ y) = bits poly n x ^^^ bits poly n y := by
  induction n generalizing x y with
  | zero => rfl
  | succ n ih => rw [bits, bits, bits, bitStep_xor, ih]

theorem bits_add (m n : ℕ) (x : BitVec w) :
    bits poly (m + n) x = bits poly n (bits poly m x) := by
  induction m generalizing x with
  | zero => rw [Nat.zero_add]; rfl
  | succ m ih => rw [Nat.succ_add, bits, bits, ih]

-- no one falls out while the low bits are zero
theorem bits_of_low_zero (n : ℕ) (x : BitVec w) (h : ∀ i < n, x.getLsbD i = false) :
    bits poly n x = x >>> n := by
  induction n generalizing x with
  | zero => simp [bits]
  | succ n ih =>
    have hstep : bitStep poly x = x >>> 1 := by
      simp [bitStep, h 0 (Nat.succ_pos n)]
    have hlow : ∀ i < n, (x >>> 1).getLsbD i = false := by
      intro i hi
      rw [BitVec.getLsbD_ushiftRight]
      exact h (1 + i) (by omega)
    rw [bits, hstep, ih _ hlow, ← BitVec.shiftRight_add, Nat.add_comm]

theorem bits_shiftLeft (n : ℕ) (x : BitVec w) (h : x.toNat * 2 ^ n < 2 ^ w) :
    bits poly n (x <<< n) = x := by
  have hlow : ∀ i < n, (x <<< n).getLsbD i = false := by
    intro i hi
    simp [BitVec.getLsbD_shiftLeft, hi]
  rw [bits_of_low_zero poly n _ hlow]
  apply BitVec.eq_of_toNat_eq
  rw [BitVec.toNat_ushiftRight, BitVec.toNat_shiftLeft, Nat.shiftLeft_eq,
    Nat.shiftRight_eq_div_pow, Nat.mod_eq_of_lt h]
  exact Nat.mul_div_cancel _ (Nat.two_pow_pos n)

/-- `n` steps on a register split at bit `k`: the low part is the input of a
table, the high part has only to be shifted. -/
theorem bits_split (k n : ℕ) (x : BitVec w) :
    bits poly (k + n) x = bits poly (k + n) (x ^^^ (x >>> k) <<< k) ^^^ bits poly n (x >>> k) := by
  have hlow : ∀ i < k, ((x >>> k) <<< k).getLsbD i = false := by
    intro i hi
    simp [BitVec.getLsbD_shiftLeft, hi]
  have hback : ((x >>> k) <<< k) >>> k = x >>> k := by
    apply BitVec.eq_of_getLsbD_eq
    intro i hi
    rw [BitVec.getLsbD_ushiftRight, BitVec.getLsbD_shiftLeft, BitVec.getLsbD_ushiftRight]
    by_cases hw : k + i < w
    · simp [hw]
    · have hx : x.getLsbD (k + i) = false := BitVec.getLsbD_of_ge _ _ (by omega)
      simp [hw, hx]
  have hhigh : bits poly (k + n) ((x >>> k) <<< k) = bits poly n (x >>> k) := by
    rw [bits_add, bits_of_low_zero poly k _ hlow, hback]
  rw [← hhigh, ← bits_xor]
  congr 1
  rw [BitVec.xor_assoc, BitVec.xor_self, BitVec.xor_zero]

/-! ### Injectivity -/

theorem bitStep_injective (hw : 0 < w) (hp : poly.getLsbD (w - 1) = true) :
    Function.Injective (bitStep poly) := by
  intro x y h
  -- the top bit of the result is the bit that fell out
  have htop : ∀ z : BitVec w, (bitStep poly z).getLsbD (w - 1) = z.getLsbD 0 := by
    intro z
    have hz : (z >>> 1).getLsbD (w - 1) = false := by
      rw [BitVec.getLsbD_ushiftRight]
      exact BitVec.getLsbD_of_ge _ _ (by omega)
    rw [bitStep, BitVec.getLsbD_xor, hz]
    cases z.getLsbD 0 <;> simp [hp]
  have hzero : x.getLsbD 0 = y.getLsbD 0 := by
    rw [← htop x, ← htop y, h]
  have hshift : x >>> 1 = y >>> 1 := by
    rw [bitStep, bitStep, hzero] at h
    have hcancel := congrArg (fun z => z ^^^ (if y.getLsbD 0 then poly else 0#w)) h
    simpa only [BitVec.xor_assoc, BitVec.xor_self, BitVec.xor_zero] using hcancel
  apply BitVec.eq_of_getLsbD_eq
  intro i hi
  cases i with
  | zero => exact hzero
  | succ i =>
    have hbit := congrArg (fun z => z.getLsbD i) hshift
    simpa only [BitVec.getLsbD_ushiftRight, Nat.add_comm 1 i] using hbit

theorem bits_injective (hw : 0 < w) (hp : poly.getLsbD (w - 1) = true) (n : ℕ) :
    Function.Injective (bits poly n) := by
  induction n with
  | zero => exact fun x y h => h
  | succ n ih => exact fun x y h => bitStep_injective poly hw hp (ih h)

/-! ### Bytes -/

/-- The check of a byte string, bit by bit, from the register `l`. -/
def update (l : BitVec w) (s : List Byte) : BitVec w :=
  s.foldl (fun l b => bits poly 8 (l ^^^ BitVec.ofNat w b.val)) l

theorem update_append (l : BitVec w) (s t : List Byte) :
    update poly l (s ++ t) = update poly (update poly l s) t := List.foldl_append

theorem update_injective (hw : 0 < w) (hp : poly.getLsbD (w - 1) = true) (s : List Byte) :
    Function.Injective (fun l => update poly l s) := by
  induction s with
  | nil => exact fun x y h => h
  | cons b s ih =>
    intro x y h
    have hstep := bits_injective poly hw hp 8 (ih h)
    have hcancel := congrArg (fun z => z ^^^ BitVec.ofNat w b.val) hstep
    simpa only [BitVec.xor_assoc, BitVec.xor_self, BitVec.xor_zero] using hcancel

theorem ofNat_add_mul (b v : ℕ) (hb : b < 256) :
    BitVec.ofNat w (b + 256 * v) = BitVec.ofNat w b ^^^ BitVec.ofNat w v <<< 8 := by
  have hsum : b + 256 * v = b ^^^ v <<< 8 := by
    have hor : 2 ^ 8 * v + b = 2 ^ 8 * v ||| b := Nat.two_pow_add_eq_or_of_lt hb v
    have hdisj : 2 ^ 8 * v ||| b = 2 ^ 8 * v ^^^ b := by
      apply Nat.eq_of_testBit_eq
      intro i
      rw [Nat.testBit_or, Nat.testBit_xor, Nat.testBit_two_pow_mul]
      by_cases hi : 8 ≤ i
      · have hbit : b.testBit i = false :=
          Nat.testBit_lt_two_pow (lt_of_lt_of_le hb (Nat.pow_le_pow_right Nat.two_pos hi))
        simp [hbit]
      · simp [hi]
    rw [Nat.shiftLeft_eq, Nat.mul_comm v, Nat.xor_comm b, ← hdisj, ← hor]
    omega
  rw [hsum]
  apply BitVec.eq_of_getLsbD_eq
  intro i hi
  simp only [BitVec.getLsbD_ofNat, BitVec.getLsbD_xor, BitVec.getLsbD_shiftLeft, Nat.testBit_xor,
    Nat.testBit_shiftLeft, hi, decide_true, Bool.true_and]
  by_cases h8 : i < 8
  · simp [h8, show ¬ 8 ≤ i by omega]
  · have hlt : i - 8 < w := by omega
    simp [h8, hlt, show 8 ≤ i by omega]

/-- The bytes that fit into the register may be taken in as one word. -/
theorem update_word (l : BitVec w) (s : List Byte) (h : 8 * s.length ≤ w) :
    update poly l s = bits poly (8 * s.length) (l ^^^ BitVec.ofNat w (leVal s)) := by
  induction s generalizing l with
  | nil => simp [update, bits, leVal]
  | cons b s ih =>
    have hlen : 8 * s.length + 8 ≤ w := by simpa [Nat.mul_add] using h
    have hval : leVal (b :: s) = b.val + 256 * leVal s := rfl
    have hs : leVal s < 2 ^ (8 * s.length) := by
      rw [pow_mul]
      exact leVal_lt s
    have hfit : (BitVec.ofNat w (leVal s)).toNat * 2 ^ 8 < 2 ^ w := by
      have hle : (BitVec.ofNat w (leVal s)).toNat ≤ leVal s := by
        rw [BitVec.toNat_ofNat]
        exact Nat.mod_le _ _
      calc (BitVec.ofNat w (leVal s)).toNat * 2 ^ 8 ≤ leVal s * 2 ^ 8 := Nat.mul_le_mul_right _ hle
        _ < 2 ^ (8 * s.length) * 2 ^ 8 := Nat.mul_lt_mul_of_pos_right hs (Nat.two_pow_pos 8)
        _ = 2 ^ (8 * s.length + 8) := by rw [← pow_add]
        _ ≤ 2 ^ w := Nat.pow_le_pow_right (by decide) hlen
    have hfirst : update poly l (b :: s) =
        update poly (bits poly 8 (l ^^^ BitVec.ofNat w b.val)) s := rfl
    rw [hfirst, ih _ (by omega), hval, ofNat_add_mul _ _ b.isLt, List.length_cons,
      Nat.mul_add, Nat.mul_one, Nat.add_comm (8 * s.length) 8, bits_add, ← BitVec.xor_assoc,
      bits_xor poly 8 (l ^^^ BitVec.ofNat w b.val), bits_shiftLeft poly 8 _ hfit]

/-- Two strings of one length that differ only inside a window no wider than the
register have different checks. -/
theorem update_ne_of_window (hw : 0 < w) (hp : poly.getLsbD (w - 1) = true) (l : BitVec w)
    (s u v t : List Byte) (hlen : u.length = v.length) (hfit : 8 * u.length ≤ w) (hne : u ≠ v) :
    update poly l (s ++ (u ++ t)) ≠ update poly l (s ++ (v ++ t)) := by
  intro h
  simp only [update_append] at h
  have hmid := update_injective poly hw hp t h
  rw [update_word poly _ u hfit, update_word poly _ v (by omega), hlen] at hmid
  have hword := bits_injective poly hw hp _ hmid
  have hcancel := congrArg (fun z => update poly l s ^^^ z) hword
  simp only [← BitVec.xor_assoc, BitVec.xor_self, BitVec.zero_xor] at hcancel
  have hbound : ∀ z : List Byte, 8 * z.length ≤ w → leVal z < 2 ^ w := by
    intro z hz
    calc leVal z < (2 ^ 8) ^ z.length := leVal_lt z
      _ = 2 ^ (8 * z.length) := (pow_mul 2 8 z.length).symm
      _ ≤ 2 ^ w := Nat.pow_le_pow_right (by decide) hz
  have hvals : leVal u = leVal v := by
    have htn := congrArg BitVec.toNat hcancel
    rwa [BitVec.toNat_ofNat, BitVec.toNat_ofNat, Nat.mod_eq_of_lt (hbound u hfit),
      Nat.mod_eq_of_lt (hbound v (by omega))] at htn
  apply hne
  rw [← leBytes_leVal u, ← leBytes_leVal v, hvals, hlen]

end FreqAnalysis.Base.Crc
