import Mathlib.Data.List.Basic
import Mathlib.Data.List.GetD
import Mathlib.Data.List.TakeWhile
import Mathlib.Order.Fin.Basic
import Mathlib.Data.Fintype.Basic
import Mathlib.Tactic.NormNum
import Mathlib.Tactic.Linarith
import Mathlib.Tactic.Ring

/-!
# Bytes, C strings and little-endian words

The byte-level vocabulary of C code that keeps binary data in `char` buffers:
the C string at the start of a buffer, `strncmp`, `std::string::resize`, and
fixed-width little-endian words read back from a buffer.
-/

namespace FreqAnalysis.Base

abbrev Byte := Fin 256

-- byte literals refer to this instance by name instead of unfolding 256
instance byteNeZero : NeZero 256 := ⟨by decide⟩

/-! ### C strings -/

/-- The C string at the start of a buffer: the bytes before the first NUL. -/
def cStr (s : List Byte) : List Byte := s.takeWhile (fun b => b ≠ 0)

/-- `strncmp(a, b, n)` on buffers of at least `n` bytes. The result is the
difference of the first two bytes that differ, and 0 when none does before a
common NUL or the bound. -/
def strncmp : ℕ → List Byte → List Byte → ℤ
  | n + 1, a :: s, b :: t =>
    if a ≠ b then (a.val : ℤ) - b.val else if a = 0 then 0 else strncmp n s t
  | _, _, _ => 0

theorem strncmp_eq_zero_iff (n : ℕ) (s t : List Byte) (hs : s.length = n) (ht : t.length = n) :
    strncmp n s t = 0 ↔ cStr s = cStr t := by
  induction n generalizing s t with
  | zero =>
    have hs0 : s = [] := List.eq_nil_of_length_eq_zero hs
    have ht0 : t = [] := List.eq_nil_of_length_eq_zero ht
    subst hs0 ht0
    simp [strncmp]
  | succ n ih =>
    obtain ⟨a, s, rfl⟩ := List.exists_cons_of_length_eq_add_one hs
    obtain ⟨b, t, rfl⟩ := List.exists_cons_of_length_eq_add_one ht
    have hs' : s.length = n := by simpa using hs
    have ht' : t.length = n := by simpa using ht
    by_cases hab : a = b
    · subst hab
      by_cases ha : a = 0
      · simp [strncmp, cStr, ha]
      · have hrec := ih s t hs' ht'
        simp only [cStr] at hrec
        simp [strncmp, cStr, ha, hrec]
    · -- a differing first byte decides both sides, whichever of the two is NUL
      have hv : (a.val : ℤ) - b.val ≠ 0 := by
        intro h
        exact hab (Fin.ext (by omega))
      have hne : cStr (a :: s) ≠ cStr (b :: t) := by
        intro h
        by_cases ha : a = 0
        · have hb : b ≠ 0 := fun hb => hab (ha.trans hb.symm)
          simp [cStr, ha, hb] at h
        · by_cases hb : b = 0
          · simp [cStr, ha, hb] at h
          · simp only [cStr, ne_eq, ha, hb, not_false_eq_true, decide_true,
              List.takeWhile_cons_of_pos, List.cons.injEq] at h
            exact hab h.1
      simp only [strncmp, ne_eq, hab, not_false_eq_true, if_true, hv, hne]

/-- `memcmp` on buffers of one length. -/
def memcmp : List Byte → List Byte → ℤ
  | a :: s, b :: t => if a = b then memcmp s t else (a.val : ℤ) - b.val
  | _, _ => 0

theorem memcmp_eq_zero_iff (s t : List Byte) (h : s.length = t.length) :
    memcmp s t = 0 ↔ s = t := by
  induction s generalizing t with
  | nil =>
    have ht : t = [] := List.eq_nil_of_length_eq_zero h.symm
    subst ht
    simp [memcmp]
  | cons a s ih =>
    cases t with
    | nil => cases h
    | cons b t =>
      have hrec := ih t (by simpa using h)
      rw [memcmp, List.cons.injEq]
      split_ifs with hab
      · rw [hrec]
        exact ⟨fun hst => ⟨hab, hst⟩, fun hst => hst.2⟩
      · have hval : ¬ a.val = b.val := fun hv => hab (Fin.ext hv)
        exact ⟨fun hzero => absurd hzero (by omega), fun hst => absurd hst.1 hab⟩

theorem memcmp_pos_iff (s t : List Byte) (h : s.length = t.length) : 0 < memcmp s t ↔ t < s := by
  induction s generalizing t with
  | nil =>
    have ht : t = [] := List.eq_nil_of_length_eq_zero h.symm
    subst ht
    simp [memcmp]
  | cons a s ih =>
    cases t with
    | nil => cases h
    | cons b t =>
      have hrec := ih t (by simpa using h)
      rw [List.cons_lt_cons_iff, memcmp]
      split_ifs with hab
      · subst hab
        simp [hrec]
      · have hba : ¬ b = a := fun h0 => hab h0.symm
        simp only [hba, false_and, or_false, Fin.lt_def]
        omega

theorem cStr_length_le (s : List Byte) : (cStr s).length ≤ s.length :=
  (List.takeWhile_prefix _).length_le

theorem zero_not_mem_cStr (s : List Byte) : (0 : Byte) ∉ cStr s := by
  intro h
  have := List.mem_takeWhile_imp h
  simp at this

theorem cStr_append_of_not_mem (s t : List Byte) (h : (0 : Byte) ∉ s) :
    cStr (s ++ t) = s ++ cStr t := by
  induction s with
  | nil => rfl
  | cons a s ih =>
    have ha : a ≠ 0 := fun h0 => h (h0 ▸ List.mem_cons_self ..)
    have hs : (0 : Byte) ∉ s := fun h0 => h (List.mem_cons_of_mem _ h0)
    have hrec := ih hs
    simp only [cStr, List.cons_append, ne_eq, ha, not_false_eq_true, decide_true,
      List.takeWhile_cons_of_pos, List.cons.injEq, true_and] at hrec ⊢
    exact hrec

theorem getD_cStr (s : List Byte) (k : ℕ) (h : k < (cStr s).length) :
    (cStr s).getD k 0 = s.getD k 0 ∧ s.getD k 0 ≠ 0 := by
  have hpre : cStr s <+: s := List.takeWhile_prefix _
  have hk : k < s.length := lt_of_lt_of_le h hpre.length_le
  have heq : (cStr s)[k] = s[k] := hpre.getElem h
  have hmem : (cStr s)[k] ∈ cStr s := List.getElem_mem h
  rw [List.getD_eq_getElem _ _ h, List.getD_eq_getElem _ _ hk]
  refine ⟨heq, ?_⟩
  intro h0
  rw [heq, h0] at hmem
  exact zero_not_mem_cStr s hmem

theorem getD_cStr_length (s : List Byte) : s.getD (cStr s).length 0 = 0 := by
  induction s with
  | nil => rfl
  | cons a s ih =>
    by_cases ha : a = 0
    · simp [cStr, ha]
    · have hc : cStr (a :: s) = a :: cStr s := by simp [cStr, ha]
      rw [hc, List.length_cons, List.getD_cons_succ]
      exact ih

/-- `std::string::resize(n)`: cut to `n` bytes or fill up with NULs. -/
def resize (n : ℕ) (s : List Byte) : List Byte := s.take n ++ List.replicate (n - s.length) 0

theorem resize_length (n : ℕ) (s : List Byte) : (resize n s).length = n := by
  simp only [resize, List.length_append, List.length_take, List.length_replicate]
  omega

theorem getD_resize (n : ℕ) (s : List Byte) (k : ℕ) (hk : k < n) :
    (resize n s).getD k 0 = s.getD k 0 := by
  rw [resize]
  rcases Nat.lt_or_ge k s.length with hs | hs
  · rw [List.getD_append _ _ _ _ (by rw [List.length_take]; omega)]
    simp [List.getD_eq_getElem?_getD, hk]
  · rw [List.getD_append_right _ _ _ _ (by rw [List.length_take]; omega),
      List.getD_eq_default _ _ hs]
    simp [List.getD_eq_getElem?_getD, List.getElem?_replicate]
    split_ifs <;> rfl

/-! ### Little-endian words -/

/-- The `w`-byte little-endian encoding of `n` (taken modulo `256 ^ w`). -/
def leBytes : ℕ → ℕ → List Byte
  | 0, _ => []
  | w + 1, n => Fin.ofNat 256 n :: leBytes w (n / 256)

def leVal (s : List Byte) : ℕ := s.foldr (fun b v => b.val + 256 * v) 0

@[simp] theorem leBytes_length (w n : ℕ) : (leBytes w n).length = w := by
  induction w generalizing n with
  | zero => rfl
  | succ w ih => simp [leBytes, ih]

theorem leVal_leBytes (w n : ℕ) : leVal (leBytes w n) = n % 256 ^ w := by
  induction w generalizing n with
  | zero => simp [leBytes, leVal, Nat.mod_one]
  | succ w ih =>
    have hrec := ih (n / 256)
    simp only [leVal] at hrec
    simp only [leBytes, leVal, List.foldr_cons, hrec, Fin.val_ofNat]
    rw [pow_succ', Nat.mod_mul]

theorem leBytes_leVal (s : List Byte) : leBytes s.length (leVal s) = s := by
  induction s with
  | nil => rfl
  | cons b s ih =>
    have hb := b.isLt
    have hval : leVal (b :: s) = b.val + 256 * leVal s := rfl
    have hlow : (b.val + 256 * leVal s) % 256 = b.val := by omega
    have hhigh : (b.val + 256 * leVal s) / 256 = leVal s := by omega
    rw [List.length_cons, leBytes, hval, hhigh, ih]
    congr 1
    exact Fin.ext hlow

theorem leVal_lt (s : List Byte) : leVal s < 256 ^ s.length := by
  have hself := leVal_leBytes s.length (leVal s)
  rw [leBytes_leVal] at hself
  rw [hself]
  exact Nat.mod_lt _ (by positivity)

theorem leVal_append (s t : List Byte) : leVal (s ++ t) = leVal s + 256 ^ s.length * leVal t := by
  induction s with
  | nil => simp [leVal]
  | cons b s ih =>
    have hcons : ∀ l : List Byte, leVal (b :: l) = b.val + 256 * leVal l := fun l => rfl
    rw [List.cons_append, hcons, hcons, ih, List.length_cons, pow_succ']
    ring

theorem leBytes_mod (w a b : ℕ) (h : a % 256 ^ w = b % 256 ^ w) : leBytes w a = leBytes w b := by
  induction w generalizing a b with
  | zero => rfl
  | succ w ih =>
    rw [pow_succ', Nat.mod_mul, Nat.mod_mul] at h
    have hlow : a % 256 = b % 256 := by omega
    have hhigh : a / 256 % 256 ^ w = b / 256 % 256 ^ w := by omega
    rw [leBytes, leBytes, ih _ _ hhigh]
    congr 1
    exact Fin.ext hlow

end FreqAnalysis.Base
