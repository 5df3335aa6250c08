import FreqAnalysis.Base.Text
import FreqAnalysis.Fingerprint
import Mathlib.Data.Nat.Bitwise

/-!
# The Bloom filter (bloom.c)

The bit array is a byte string; `bloom_check_add` tests, and for an addition
sets, the bits `(a + i*b) % bits` for `i < hashes`, where `a` and `b` are two
murmurhash2 values and the sum wraps at 32 bits. The number of bits and of hash
functions is computed in floating point by `bloom_init`; both are parameters
here, and so is the hash function.
-/

namespace FreqAnalysis.Ddfs
open Base

/-- What `bloom_init` computes from the number of entries and the error rate. -/
structure BloomSize where
  bits : ℕ
  hashes : ℕ
  bits_pos : 0 < bits

/-- The length of the bit array in bytes (`bloom.c:102-106`). -/
def BloomSize.bytes (z : BloomSize) : ℕ :=
  if z.bits % 8 ≠ 0 then z.bits / 8 + 1 else z.bits / 8

theorem BloomSize.div_lt_bytes (z : BloomSize) (x : ℕ) (hx : x < z.bits) : x / 8 < z.bytes := by
  unfold BloomSize.bytes
  split_ifs <;> omega

structure Bloom (z : BloomSize) where
  bf : List Byte
  ready : Bool
  length_bf : bf.length = z.bytes

def bloomInit (z : BloomSize) : Bloom z := ⟨List.replicate z.bytes 0, true, List.length_replicate⟩

/-- The loop of `murmurhash2` over words of four bytes, and the `switch` on
what is left (`MurmurHash2.c`). -/
def murmurLoop (m h : UInt32) : List Byte → UInt32
  | b0 :: b1 :: b2 :: b3 :: data =>
    let k := UInt32.ofNat (leVal [b0, b1, b2, b3]) * m
    let k := (k ^^^ (k >>> 24)) * m
    murmurLoop m ((h * m) ^^^ k) data
  | [b0, b1, b2] =>
    (h ^^^ (UInt32.ofNat b2.val <<< 16) ^^^ (UInt32.ofNat b1.val <<< 8) ^^^ UInt32.ofNat b0.val) * m
  | [b0, b1] => (h ^^^ (UInt32.ofNat b1.val <<< 8) ^^^ UInt32.ofNat b0.val) * m
  | [b0] => (h ^^^ UInt32.ofNat b0.val) * m
  | [] => h

/-- `murmurhash2`. The results below hold for any function in its place. -/
def murmurhash2 (key : List Byte) (seed : UInt32) : UInt32 :=
  let m : UInt32 := 0x5bd1e995
  let h := murmurLoop m (seed ^^^ UInt32.ofNat key.length) key
  let h := (h ^^^ (h >>> 13)) * m
  h ^^^ (h >>> 15)

/-! ### Single bits -/

/-- `test_bit_set_bit`: the old bit, and the array after it was set. -/
def testBitSetBit (buf : List Byte) (x : ℕ) (setBit : Bool) : Bool × List Byte :=
  let byte := x >>> 3
  let c := buf.getD byte 0
  let mask := 1 <<< (x % 8)
  if c.val &&& mask ≠ 0 then (true, buf)
  else (false, if setBit then buf.set byte (Fin.ofNat 256 (c.val ||| mask)) else buf)

def bitAt (buf : List Byte) (x : ℕ) : Bool := (buf.getD (x / 8) 0).val.testBit (x % 8)

theorem and_mask_ne_zero_iff (c k : ℕ) : c &&& (1 <<< k) ≠ 0 ↔ c.testBit k = true := by
  rw [Nat.one_shiftLeft, Nat.and_two_pow]
  cases c.testBit k <;> simp

theorem testBitSetBit_fst (buf : List Byte) (x : ℕ) (setBit : Bool) :
    (testBitSetBit buf x setBit).1 = bitAt buf x := by
  have hsh : x >>> 3 = x / 8 := Nat.shiftRight_eq_div_pow x 3
  simp only [testBitSetBit, hsh, and_mask_ne_zero_iff, bitAt]
  by_cases h : (buf.getD (x / 8) 0).val.testBit (x % 8) = true
  · rw [if_pos h]
    exact h.symm
  · rw [if_neg h]
    exact (Bool.eq_false_of_not_eq_true h).symm

theorem testBitSetBit_length (buf : List Byte) (x : ℕ) (setBit : Bool) :
    (testBitSetBit buf x setBit).2.length = buf.length := by
  simp only [testBitSetBit]
  split_ifs <;> simp

theorem testBitSetBit_test (buf : List Byte) (x : ℕ) : (testBitSetBit buf x false).2 = buf := by
  simp only [testBitSetBit, Bool.false_eq_true, if_false]
  split_ifs <;> rfl

theorem testBit_or_mask (c : Byte) (k j : ℕ) (hk : k < 8) :
    (Fin.ofNat 256 (c.val ||| 1 <<< k)).val.testBit j = (c.val.testBit j || decide (k = j)) := by
  have hlt : c.val ||| 1 <<< k < 256 := by
    have h1 : c.val < 2 ^ 8 := c.isLt
    have h2 : 1 <<< k < 2 ^ 8 := by
      rw [Nat.one_shiftLeft]
      exact Nat.pow_lt_pow_right (by norm_num) hk
    exact Nat.or_lt_two_pow h1 h2
  rw [Fin.val_ofNat, Nat.mod_eq_of_lt hlt, Nat.testBit_or, Nat.one_shiftLeft,
    Nat.testBit_two_pow]

theorem bitAt_testBitSetBit (buf : List Byte) (x y : ℕ) (hx : x / 8 < buf.length) :
    bitAt (testBitSetBit buf x true).2 y = (bitAt buf y || decide (x = y)) := by
  have hsh : x >>> 3 = x / 8 := Nat.shiftRight_eq_div_pow x 3
  simp only [testBitSetBit, hsh, and_mask_ne_zero_iff, if_true]
  split_ifs with hset
  · by_cases hxy : x = y
    · have hbit : bitAt buf y = true := hxy ▸ hset
      simp [hbit]
    · simp [hxy]
  · by_cases hbyte : x / 8 = y / 8
    · have hget : (buf.set (x / 8)
            (Fin.ofNat 256 ((buf.getD (x / 8) 0).val ||| 1 <<< (x % 8)))).getD (y / 8) 0
          = Fin.ofNat 256 ((buf.getD (x / 8) 0).val ||| 1 <<< (x % 8)) := by
        rw [← hbyte]
        simp [List.getD_eq_getElem?_getD, hx]
      have hiff : (x % 8 = y % 8) ↔ x = y := by omega
      rw [bitAt, hget, testBit_or_mask _ _ _ (by omega), bitAt, ← hbyte]
      simp [hiff]
    · have hxy : x ≠ y := fun h => hbyte (by rw [h])
      have hget : ∀ c : Byte, (buf.set (x / 8) c).getD (y / 8) 0 = buf.getD (y / 8) 0 := by
        intro c
        simp [List.getD_eq_getElem?_getD, List.getElem?_set_ne hbyte]
      rw [bitAt, hget, bitAt]
      simp [hxy]

/-! ### Checking and adding -/

section Filter

variable {z : BloomSize} (hash : List Byte → UInt32 → UInt32)

/-- The bit positions of a buffer: `x = (a + i*b) % bloom->bits`. -/
def bloomIndex (z : BloomSize) (buffer : List Byte) (i : ℕ) : ℕ :=
  let a := hash buffer 0x9747b28c
  let b := hash buffer a
  (a + UInt32.ofNat i * b).toNat % z.bits

def checkAddLoop (z : BloomSize) (buffer : List Byte) (add : Bool) (bf : List Byte) :
    ℕ → ℕ × List Byte
  | 0 => (0, bf)
  | i + 1 =>
    let (hits, buf) := checkAddLoop z buffer add bf i
    let (hit, buf') := testBitSetBit buf (bloomIndex hash z buffer i) add
    (if hit then hits + 1 else hits, buf')

theorem checkAddLoop_length (buffer : List Byte) (add : Bool) (bf : List Byte) (n : ℕ) :
    (checkAddLoop hash z buffer add bf n).2.length = bf.length := by
  induction n with
  | zero => rfl
  | succ n ih => rw [checkAddLoop, testBitSetBit_length, ih]

/-- `bloom_check_add`: 1 when every bit was set before, 0 when one was not, -1
for a filter that was never initialised. -/
def bloomCheckAdd (b : Bloom z) (buffer : List Byte) (add : Bool) : ℤ × Bloom z :=
  if b.ready = false then (-1, b)
  else
    let r := checkAddLoop hash z buffer add b.bf z.hashes
    (if r.1 = z.hashes then 1 else 0,
      ⟨r.2, b.ready, (checkAddLoop_length hash buffer add b.bf z.hashes).trans b.length_bf⟩)

def bloomCheck (b : Bloom z) (buffer : List Byte) : ℤ :=
  (bloomCheckAdd hash b buffer false).1

def bloomAdd (b : Bloom z) (buffer : List Byte) : Bloom z :=
  (bloomCheckAdd hash b buffer true).2

def Bloom.Holds (b : Bloom z) (buffer : List Byte) : Prop :=
  ∀ i < z.hashes, bitAt b.bf (bloomIndex hash z buffer i) = true

theorem bloomIndex_lt (buffer : List Byte) (i : ℕ) : bloomIndex hash z buffer i < z.bits :=
  Nat.mod_lt _ z.bits_pos

theorem checkAddLoop_test (buffer bf : List Byte) (n : ℕ) :
    (checkAddLoop hash z buffer false bf n).2 = bf := by
  induction n with
  | zero => rfl
  | succ n ih => rw [checkAddLoop, testBitSetBit_test, ih]

theorem checkAddLoop_hits_le (buffer bf : List Byte) (add : Bool) (n : ℕ) :
    (checkAddLoop hash z buffer add bf n).1 ≤ n := by
  induction n with
  | zero => exact Nat.le_refl 0
  | succ n ih =>
    simp only [checkAddLoop]
    split_ifs <;> omega

theorem checkAddLoop_hits_iff (buffer bf : List Byte) (n : ℕ) :
    (checkAddLoop hash z buffer false bf n).1 = n ↔
      ∀ i < n, bitAt bf (bloomIndex hash z buffer i) = true := by
  induction n with
  | zero => simp [checkAddLoop]
  | succ n ih =>
    have hle := checkAddLoop_hits_le hash (z := z) buffer bf false n
    simp only [checkAddLoop, testBitSetBit_fst, checkAddLoop_test]
    constructor
    · intro h i hi
      split_ifs at h with hbit
      · rcases Nat.lt_succ_iff_lt_or_eq.mp hi with hlt | heq
        · exact ih.mp (by omega) i hlt
        · rw [heq]
          exact hbit
      · omega
    · intro h
      have hbit := h n (Nat.lt_succ_self n)
      have hrec := ih.mpr fun i hi => h i (by omega)
      simp [hbit, hrec]

theorem bitAt_checkAddLoop (buffer bf : List Byte) (hlen : bf.length = z.bytes) (n y : ℕ) :
    bitAt (checkAddLoop hash z buffer true bf n).2 y = true ↔
      bitAt bf y = true ∨ ∃ i < n, bloomIndex hash z buffer i = y := by
  induction n with
  | zero => simp [checkAddLoop]
  | succ n ih =>
    have hx : bloomIndex hash z buffer n / 8
        < (checkAddLoop hash z buffer true bf n).2.length := by
      rw [checkAddLoop_length, hlen]
      exact z.div_lt_bytes _ (bloomIndex_lt hash buffer n)
    simp only [checkAddLoop]
    rw [bitAt_testBitSetBit _ _ _ hx, Bool.or_eq_true, ih, decide_eq_true_eq, or_assoc]
    apply or_congr_right
    constructor
    · rintro (⟨i, hi, h⟩ | h)
      · exact ⟨i, by omega, h⟩
      · exact ⟨n, Nat.lt_succ_self n, h⟩
    · rintro ⟨i, hi, h⟩
      rcases Nat.lt_succ_iff_lt_or_eq.mp hi with hlt | heq
      · exact Or.inl ⟨i, hlt, h⟩
      · exact Or.inr (heq ▸ h)

theorem bloomCheck_eq_one_iff (b : Bloom z) (buffer : List Byte) (hr : b.ready = true) :
    bloomCheck hash b buffer = 1 ↔ b.Holds hash buffer := by
  simp only [bloomCheck, bloomCheckAdd, hr, Bool.true_eq_false, if_false]
  rw [Bloom.Holds, ← checkAddLoop_hits_iff hash buffer b.bf z.hashes]
  split_ifs with h
  · simp [h]
  · simp [h]

theorem bloomCheck_eq_zero_iff (b : Bloom z) (buffer : List Byte) (hr : b.ready = true) :
    bloomCheck hash b buffer = 0 ↔ ¬ b.Holds hash buffer := by
  rw [← bloomCheck_eq_one_iff hash b buffer hr]
  simp only [bloomCheck, bloomCheckAdd, hr, Bool.true_eq_false, if_false]
  split_ifs <;> simp

theorem bloomCheckAdd_ready (b : Bloom z) (buffer : List Byte) (add : Bool) :
    (bloomCheckAdd hash b buffer add).2.ready = b.ready := by
  unfold bloomCheckAdd
  split_ifs <;> rfl

theorem bloomAdd_ready (b : Bloom z) (buffer : List Byte) :
    (bloomAdd hash b buffer).ready = b.ready := bloomCheckAdd_ready hash b buffer true

theorem holds_bloomAdd_self (b : Bloom z) (buffer : List Byte) (hr : b.ready = true) :
    (bloomAdd hash b buffer).Holds hash buffer := by
  intro i hi
  simp only [bloomAdd, bloomCheckAdd, hr, Bool.true_eq_false, if_false]
  rw [bitAt_checkAddLoop hash buffer b.bf b.length_bf]
  exact Or.inr ⟨i, hi, rfl⟩

theorem holds_bloomAdd_of_holds (b : Bloom z) (buffer other : List Byte) (hr : b.ready = true)
    (h : b.Holds hash other) : (bloomAdd hash b buffer).Holds hash other := by
  intro i hi
  simp only [bloomAdd, bloomCheckAdd, hr, Bool.true_eq_false, if_false]
  rw [bitAt_checkAddLoop hash buffer b.bf b.length_bf]
  exact Or.inl (h i hi)

end Filter

/-! ### Saving and loading -/

def bloomConfOut {z : BloomSize} (b : Bloom z) : List Char := bytesText b.bf

/-- `bloom_init_conf`: the bit array is overwritten when the file exists. -/
def bloomInitConf {z : BloomSize} (b : Bloom z) : Option (List Char) → Bloom z
  | none => b
  | some contents => ⟨textBytes z.bytes contents, b.ready, textBytes_length z.bytes contents⟩

theorem bloomInitConf_bloomConfOut {z : BloomSize} (b c : Bloom z) :
    (bloomInitConf c (some (bloomConfOut b))).bf = b.bf := by
  have h := textBytes_bytesText b.bf []
  rw [List.append_nil, b.length_bf] at h
  exact h

/-! ### Additions, checks and restarts -/

/-- What happens to the filter from its first run on. A restart writes the bit array
and reads it into a filter that `bloom_init` has just made. -/
inductive BloomOp where
  | add (buffer : List Byte)
  | check (buffer : List Byte)
  | restart

section Runs

variable {z : BloomSize} (hash : List Byte → UInt32 → UInt32)

def bloomStep (b : Bloom z) : BloomOp → Bloom z
  | .add buffer => bloomAdd hash b buffer
  | .check buffer => (bloomCheckAdd hash b buffer false).2
  | .restart => bloomInitConf (bloomInit z) (some (bloomConfOut b))

def bloomRun (z : BloomSize) (ops : List BloomOp) : Bloom z :=
  ops.foldl (bloomStep hash) (bloomInit z)

theorem bloomRun_concat (ops : List BloomOp) (op : BloomOp) :
    bloomRun hash z (ops ++ [op]) = bloomStep hash (bloomRun hash z ops) op := by
  rw [bloomRun, List.foldl_append]
  rfl

theorem bloomStep_check (b : Bloom z) (buffer : List Byte) :
    (bloomStep hash b (.check buffer)).bf = b.bf := by
  unfold bloomStep bloomCheckAdd
  by_cases h : b.ready = false
  · simp only [if_pos h]
  · simp only [if_neg h, checkAddLoop_test]

theorem bloomStep_restart (b : Bloom z) : (bloomStep hash b .restart).bf = b.bf :=
  bloomInitConf_bloomConfOut b (bloomInit z)

theorem bloomStep_ready {b : Bloom z} (h : b.ready = true) (op : BloomOp) :
    (bloomStep hash b op).ready = true := by
  cases op with
  | add buffer => exact (bloomCheckAdd_ready hash b buffer true).trans h
  | check buffer => exact (bloomCheckAdd_ready hash b buffer false).trans h
  | restart => rfl

theorem holds_bloomStep {b : Bloom z} (hr : b.ready = true) {buffer : List Byte}
    (h : b.Holds hash buffer) (op : BloomOp) : (bloomStep hash b op).Holds hash buffer := by
  cases op with
  | add other => exact holds_bloomAdd_of_holds hash b other buffer hr h
  | check other =>
    rw [Bloom.Holds, bloomStep_check]
    exact h
  | restart =>
    rw [Bloom.Holds, bloomStep_restart]
    exact h

theorem bloomRun_holds (ops : List BloomOp) :
    (bloomRun hash z ops).ready = true ∧
      ∀ buffer, .add buffer ∈ ops → (bloomRun hash z ops).Holds hash buffer := by
  induction ops using List.reverseRecOn with
  | nil => exact ⟨rfl, fun _ h => absurd h List.not_mem_nil⟩
  | append_singleton ops op ih =>
    obtain ⟨hready, hholds⟩ := ih
    rw [bloomRun_concat]
    refine ⟨bloomStep_ready hash hready op, ?_⟩
    intro buffer hmem
    rcases List.mem_append.mp hmem with hold | hnew
    · exact holds_bloomStep hash hready (hholds buffer hold) op
    · rw [← List.mem_singleton.mp hnew]
      exact holds_bloomAdd_self hash (bloomRun hash z ops) buffer hready

/-- After any run every buffer added so far is found; a check changes no bit, and a
restart brings the bit array back. -/
theorem bloom_no_false_negative (z : BloomSize) (ops : List BloomOp) :
    (∀ buffer, .add buffer ∈ ops → bloomCheck hash (bloomRun hash z ops) buffer = 1) ∧
      (∀ buffer, (bloomRun hash z (ops ++ [.check buffer])).bf = (bloomRun hash z ops).bf) ∧
      (bloomRun hash z (ops ++ [.restart])).bf = (bloomRun hash z ops).bf := by
  obtain ⟨hready, hholds⟩ := bloomRun_holds hash (z := z) ops
  refine ⟨?_, ?_, ?_⟩
  · intro buffer hmem
    exact (bloomCheck_eq_one_iff hash _ buffer hready).mpr (hholds buffer hmem)
  · intro buffer
    rw [bloomRun_concat, bloomStep_check]
  · rw [bloomRun_concat, bloomStep_restart]

end Runs
end FreqAnalysis.Ddfs
