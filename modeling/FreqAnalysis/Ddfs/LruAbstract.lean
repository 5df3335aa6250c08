import FreqAnalysis.Base.Lists
import FreqAnalysis.Base.Recency
import FreqAnalysis.Ddfs.LruConf

/-!
# The cache and the least-recently-used policy

What an LRU cache is for is said by the history of uses alone: it holds the `m`
most recently used distinct fingerprints. A hit is a use, and so is the insertion
of a new fingerprint. The code follows this policy until a call meets a cached
fingerprint that is another one but has the same bucket and the same C string;
then it reports a hit and replaces the stored key by the caller's.
-/

namespace FreqAnalysis.Ddfs
open Base LruCache

namespace LruCache

def Call.str : Call → Fp
  | .find str => str
  | .putdata str => str

/-- For every call its answer, and the list from head to back after it. -/
def observe (c : LruCache) : List Call → Option (List (Bool × List Fp))
  | [] => some []
  | a :: calls => do
    let (r, c) ← c.call a
    let ks ← c.recency
    let rest ← c.observe calls
    some ((r, ks) :: rest)

end LruCache

/-! ### The policy -/

/-- The answer of a call, and the history with the use it makes. -/
def useStep (m : ℕ) (uses : List Fp) : Call → Bool × List Fp
  | .find str => if str ∈ recent m uses then (true, uses ++ [str]) else (false, uses)
  | .putdata str => (decide (str ∉ recent m uses), uses ++ [str])

def lruObserve (m : ℕ) : List Fp → List Call → List (Bool × List Fp)
  | _, [] => []
  | uses, a :: calls =>
    ((useStep m uses a).1, recent m (useStep m uses a).2) :: lruObserve m (useStep m uses a).2 calls

def usesAfter (m : ℕ) (calls : List Call) (uses : List Fp) : List Fp :=
  calls.foldl (fun uses a => (useStep m uses a).2) uses

/-! ### One call -/

theorem Apart.eq_of_keyMatch {ks : List Fp} (h : Apart ks) {a b : Fp} (ha : a ∈ ks) (hb : b ∈ ks)
    (hab : keyMatch a b = true) : a = b := by
  by_contra hne
  have hsymm : Std.Symm fun x y => keyMatch x y = false := by
    constructor
    intro x y hxy
    rw [keyMatch_comm]
    exact hxy
  have hfalse : keyMatch a b = false := List.Pairwise.forall h ha hb hne
  rw [hab] at hfalse
  cases hfalse

theorem lruFind_of_mem {ks : List Fp} (hap : Apart ks) {str : Fp} (h : str ∈ ks) :
    lruFind ks str = (true, str :: ks.filter (· ≠ str)) := by
  cases herase : eraseOldest str ks with
  | none =>
    have hno := (eraseOldest_eq_none_iff str ks).mp herase str h
    rw [keyMatch_self] at hno
    cases hno
  | some ks' =>
    obtain ⟨k1, k, k2, rfl, hk, -, rfl⟩ := eraseOldest_split str ks ks' herase
    obtain rfl : str = k := hap.eq_of_keyMatch h (by simp) hk
    have hnot : str ∉ k1 ++ k2 := (List.nodup_cons.mp (List.nodup_middle.mp hap.nodup)).1
    have hkeep : (k1 ++ k2).filter (· ≠ str) = k1 ++ k2 := by
      apply List.filter_eq_self.mpr
      intro k hk
      exact decide_eq_true fun h0 => hnot (h0 ▸ hk)
    rw [lruFind, herase, List.filter_append, List.filter_cons_of_neg (by simp),
      ← List.filter_append, hkeep]

theorem lruFind_eq_miss_iff (ks : List Fp) (str : Fp) :
    lruFind ks str = (false, ks) ↔ ∀ k ∈ ks, keyMatch str k = false := by
  rw [← eraseOldest_eq_none_iff, lruFind]
  cases eraseOldest str ks with
  | none => simp
  | some ks' => simp

/-- A match in a list without `str` is another fingerprint. -/
theorem miss_iff_of_not_mem {ks : List Fp} {str : Fp} (h : str ∉ ks) :
    lruFind ks str = (false, ks) ↔ ∀ k ∈ ks, keyMatch str k = true → k = str := by
  rw [lruFind_eq_miss_iff]
  constructor
  · intro hmiss k hk hmatch
    rw [hmiss k hk] at hmatch
    cases hmatch
  · intro hother k hk
    by_contra hmatch
    have heq := hother k hk (by simpa using hmatch)
    exact h (heq ▸ hk)

theorem lruPut_eq_push_iff (m : ℤ) (ks : List Fp) (str : Fp) :
    lruPut m ks str = (true, lruPush m ks str) ↔ lruFind ks str = (false, ks) := by
  rw [lruPut, lruFind]
  cases eraseOldest str ks with
  | none => simp
  | some ks' => simp

theorem lruPush_eq_take {m : ℕ} {ks : List Fp} (h : ks.length ≤ m) (str : Fp) :
    lruPush m ks str = (str :: ks).take m := by
  unfold lruPush
  split_ifs with hroom
  · rw [List.take_of_length_le (by rw [List.length_cons]; omega)]
  · have hlen : ks.length = m := by omega
    rw [List.dropLast_eq_take, List.length_cons, hlen, Nat.add_sub_cancel]

theorem keyCall_hit {m : ℕ} {uses : List Fp} (hap : Apart (recent m uses)) (a : Call)
    (hx : a.str ∈ recent m uses) :
    keyCall m (recent m uses) a = ((useStep m uses a).1, recent m (useStep m uses a).2) := by
  have hfind := lruFind_of_mem hap hx
  have hrecent := recent_concat_of_mem hx
  cases a with
  | find str =>
    simp only [Call.str] at hx hfind hrecent
    simp only [keyCall, useStep, hfind, hx, if_true, hrecent]
  | putdata str =>
    simp only [Call.str] at hx hfind hrecent
    simp only [keyCall, lruPut, useStep, hfind, hx, not_true_eq_false, decide_false, hrecent]

theorem keyCall_miss_iff {m : ℕ} {uses : List Fp} (a : Call) (hx : a.str ∉ recent m uses) :
    keyCall m (recent m uses) a = ((useStep m uses a).1, recent m (useStep m uses a).2) ↔
      lruFind (recent m uses) a.str = (false, recent m uses) := by
  cases a with
  | find str =>
    simp only [Call.str] at hx
    simp only [keyCall, useStep, hx, if_false, Call.str]
  | putdata str =>
    simp only [Call.str] at hx ⊢
    have hpush := lruPush_eq_take (recent_length_le m uses) str
    simp only [keyCall, useStep, hx, not_false_eq_true, decide_true,
      recent_concat_of_not_mem hx, ← hpush]
    exact lruPut_eq_push_iff m (recent m uses) str

/-- A call on the recency list does what the policy says exactly when no other
fingerprint in it compares equal. -/
theorem keyCall_recent_iff {m : ℕ} {uses : List Fp} (hap : Apart (recent m uses)) (a : Call) :
    keyCall m (recent m uses) a = ((useStep m uses a).1, recent m (useStep m uses a).2) ↔
      ∀ k ∈ recent m uses, keyMatch a.str k = true → k = a.str := by
  by_cases hx : a.str ∈ recent m uses
  · exact iff_of_true (keyCall_hit hap a hx)
      fun k hk hmatch => (hap.eq_of_keyMatch hx hk hmatch).symm
  · rw [keyCall_miss_iff a hx, miss_iff_of_not_mem hx]

/-! ### A run -/

theorem observe_cons {c c' : LruCache} {a : Call} {r : Bool} {ks : List Fp}
    (hcall : c.call a = some (r, c')) (hc : Caches c' ks) (calls : List Call) :
    c.observe (a :: calls) = (c'.observe calls).map fun rest => (r, ks) :: rest := by
  simp only [observe, hcall, hc.recency, Option.bind_eq_bind, Option.bind_some]
  cases c'.observe calls with
  | none => rfl
  | some rest => rfl

theorem observe_iff {m : ℕ} (calls : List Call) (c : LruCache) (uses : List Fp)
    (hmax : c.maxCacheSize = m) (hc : Caches c (recent m uses)) (hap : Apart (recent m uses)) :
    c.observe calls = some (lruObserve m uses calls) ↔
      ∀ pre a post, calls = pre ++ a :: post →
        ∀ k ∈ recent m (usesAfter m pre uses), keyMatch a.str k = true → k = a.str := by
  induction calls generalizing c uses with
  | nil => simp [observe, lruObserve]
  | cons a calls ih =>
    obtain ⟨c', hcall, hmax', hc'⟩ := hc.call a
    rw [hmax] at hcall hc'
    have hone := keyCall_recent_iff hap a
    rw [forall_split_cons, observe_cons hcall hc' calls, lruObserve, Option.map_eq_some_iff]
    constructor
    · intro h
      obtain ⟨rest, hrest, hcons⟩ := h
      obtain ⟨hhead, rfl⟩ := List.cons.inj hcons
      have hnext : (keyCall m (recent m uses) a).2 = recent m (useStep m uses a).2 :=
        congrArg Prod.snd hhead
      rw [hnext] at hc'
      have hap' := hap.keyCall (m := m) a
      rw [hnext] at hap'
      exact ⟨hone.mp hhead, (ih c' _ (hmax'.trans hmax) hc' hap').mp hrest⟩
    · intro h
      have hhead := hone.mpr h.1
      have hnext : (keyCall m (recent m uses) a).2 = recent m (useStep m uses a).2 :=
        congrArg Prod.snd hhead
      rw [hnext] at hc'
      have hap' := hap.keyCall (m := m) a
      rw [hnext] at hap'
      exact ⟨_, (ih c' _ (hmax'.trans hmax) hc' hap').mpr h.2, congrArg (· :: _) hhead⟩

/-- A run of the cache is a run of the policy exactly when no call meets another
cached fingerprint that the cache takes for it. -/
theorem lru_policy_iff (m : ℕ) (calls : List Call) :
    (LruCache.new m).observe calls = some (lruObserve m [] calls) ↔
      ∀ pre a post, calls = pre ++ a :: post →
        ∀ k ∈ recent m (usesAfter m pre []), keyMatch a.str k = true → k = a.str := by
  have hempty : recent m ([] : List Fp) = [] := List.take_nil
  apply observe_iff calls (LruCache.new m) [] rfl
  · rw [hempty]
    exact caches_new m (Int.natCast_nonneg m)
  · rw [hempty]
    exact List.Pairwise.nil

/-- Both keys hash to 625 and start with a NUL: the second one is found in a
cache that only ever saw the first, and takes its place. -/
theorem lru_false_hit :
    (LruCache.new 2).observe
        [.putdata ⟨[0, 1, 0, 0, 0, 0], rfl⟩, .find ⟨[0, 0, 5, 0, 0, 0], rfl⟩]
      = some [(true, [⟨[0, 1, 0, 0, 0, 0], rfl⟩]), (true, [⟨[0, 0, 5, 0, 0, 0], rfl⟩])] ∧
    (LruCache.new 2).observe
        [.putdata ⟨[0, 1, 0, 0, 0, 0], rfl⟩, .find ⟨[0, 0, 5, 0, 0, 0], rfl⟩]
      ≠ some (lruObserve 2 []
          [.putdata ⟨[0, 1, 0, 0, 0, 0], rfl⟩, .find ⟨[0, 0, 5, 0, 0, 0], rfl⟩]) := by
  have hrun : (LruCache.new 2).observe
      [.putdata ⟨[0, 1, 0, 0, 0, 0], rfl⟩, .find ⟨[0, 0, 5, 0, 0, 0], rfl⟩]
      = some [(true, [⟨[0, 1, 0, 0, 0, 0], rfl⟩]), (true, [⟨[0, 0, 5, 0, 0, 0], rfl⟩])] := by
    decide +kernel
  have hpolicy : lruObserve 2 []
      [.putdata ⟨[0, 1, 0, 0, 0, 0], rfl⟩, .find ⟨[0, 0, 5, 0, 0, 0], rfl⟩]
      = [(true, [⟨[0, 1, 0, 0, 0, 0], rfl⟩]), (false, [⟨[0, 1, 0, 0, 0, 0], rfl⟩])] := by
    decide +kernel
  refine ⟨hrun, ?_⟩
  rw [hrun, hpolicy]
  simp

end FreqAnalysis.Ddfs
