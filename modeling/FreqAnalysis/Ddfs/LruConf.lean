import FreqAnalysis.Ddfs.LruRefine

/-!
# The cache across restarts (output_conf, init_conf)

`output_conf` writes the keys from head to back, and `init_conf` replays the
lines with `add_node_to_head`, so the line written first ends up at the back.
A restart therefore turns the recency list around.
-/

namespace FreqAnalysis.Ddfs
open Base

namespace LruCache

/-- A restart: the cache is saved, and a new one of capacity `m` loads it. -/
def restart (m : ℤ) (c : LruCache) : Option LruCache := do
  let conf ← c.outputConf
  (LruCache.new m).initConf (some conf)

inductive Call where
  | find (str : Fp)
  | putdata (str : Fp)

def call (c : LruCache) : Call → Option (Bool × LruCache)
  | .find str => c.find str
  | .putdata str => c.putdata str

def answers (c : LruCache) : List Call → Option (List Bool)
  | [] => some []
  | a :: calls => do
    let (r, c) ← c.call a
    let rs ← c.answers calls
    some (r :: rs)

inductive Reachable (m : ℕ) : LruCache → Prop
  | new : Reachable m (LruCache.new m)
  | call {c c' : LruCache} {a : Call} {r : Bool} :
      Reachable m c → c.call a = some (r, c') → Reachable m c'
  | restart {c c' : LruCache} : Reachable m c → c.restart m = some c' → Reachable m c'

/-- Saving and loading loses nothing: the same recency list, the same size, and
the same answers from then on. -/
def Restores (m : ℕ) (c : LruCache) : Prop :=
  ∃ c', c.restart m = some c' ∧ c'.recency = c.recency ∧ c'.nowCacheSize = c.nowCacheSize ∧
    ∀ calls, c'.answers calls = c.answers calls

end LruCache

open LruCache

def keyCall (m : ℤ) (ks : List Fp) : Call → Bool × List Fp
  | .find str => lruFind ks str
  | .putdata str => lruPut m ks str

theorem Caches.call {c : LruCache} {ks : List Fp} (h : Caches c ks) (a : Call) :
    ∃ c', c.call a = some ((keyCall c.maxCacheSize ks a).1, c') ∧
      c'.maxCacheSize = c.maxCacheSize ∧ Caches c' (keyCall c.maxCacheSize ks a).2 := by
  cases a with
  | find str => exact h.find str
  | putdata str => exact h.putdata str

/-! ### Loading -/

theorem foldlM_addNodeToHead (c : LruCache) (ks : List Fp) (lines : List (List Char))
    (h : Caches c ks) :
    ∃ c', lines.foldlM (fun c line => (c.addNodeToHead (Fp.ofText line)).map Prod.snd) c
        = some c' ∧
      c'.maxCacheSize = c.maxCacheSize ∧
      Caches c' ((lines.map Fp.ofText).foldl (lruPush c.maxCacheSize) ks) := by
  induction lines generalizing c ks with
  | nil => exact ⟨c, rfl, rfl, h⟩
  | cons line lines ih =>
    obtain ⟨c1, hadd, hmax1, hc1⟩ := h.addNodeToHead (Fp.ofText line)
    obtain ⟨c2, hrest, hmax2, hc2⟩ := ih c1 _ hc1
    refine ⟨c2, ?_, hmax2.trans hmax1, ?_⟩
    · simp only [List.foldlM_cons, hadd, Option.map_some, Option.bind_eq_bind, Option.bind_some]
      exact hrest
    · rw [hmax1] at hc2
      exact hc2

theorem Caches.initConf {c : LruCache} {ks : List Fp} (h : Caches c ks)
    (conf : Option (List Char)) :
    ∃ c' ks', c.initConf conf = some c' ∧ c'.maxCacheSize = c.maxCacheSize ∧ Caches c' ks' := by
  cases conf with
  | none => exact ⟨c, ks, rfl, rfl, h⟩
  | some text =>
    obtain ⟨c', hload, hmax, hc⟩ := foldlM_addNodeToHead c ks (getLines text) h
    exact ⟨c', _, hload, hmax, hc⟩

theorem foldl_lruPush (m : ℤ) (ks new : List Fp) (h : ((ks.length + new.length : ℕ) : ℤ) ≤ m) :
    new.foldl (lruPush m) ks = new.reverse ++ ks := by
  induction new generalizing ks with
  | nil => rfl
  | cons k new ih =>
    have hroom : (ks.length : ℤ) < m := by
      simp only [List.length_cons] at h
      omega
    have hrest : (((k :: ks).length + new.length : ℕ) : ℤ) ≤ m := by
      simp only [List.length_cons] at h ⊢
      omega
    rw [List.foldl_cons, lruPush, if_pos hroom, ih (k :: ks) hrest]
    simp

theorem Caches.restart {m : ℕ} {c : LruCache} {ks : List Fp} (h : Caches c ks)
    (hm : c.maxCacheSize = m) :
    ∃ c', c.restart m = some c' ∧ c'.maxCacheSize = m ∧ Caches c' ks.reverse := by
  obtain ⟨c', hload, hmax, hc⟩ := foldlM_addNodeToHead (LruCache.new m) [] (ks.map Fp.text)
    (caches_new m (Int.natCast_nonneg m))
  have hkeys : (ks.map Fp.text).map Fp.ofText = ks := by
    rw [List.map_map]
    exact (List.map_congr_left fun k _ => Fp.ofText_text k).trans (List.map_id ks)
  rw [hkeys] at hc
  have hlen : (([] : List Fp).length + ks.length : ℕ) ≤ (m : ℤ) := by
    have := h.length_le
    rw [hm] at this
    simpa using this
  have hfold := foldl_lruPush (m : ℤ) [] ks hlen
  rw [List.append_nil] at hfold
  refine ⟨c', ?_, hmax, ?_⟩
  · have hw : c.listNodes.walk c.brk c.head = some ks := h.recency
    simp only [LruCache.restart, LruCache.outputConf, hw, Option.map_some, Option.bind_eq_bind,
      Option.bind_some, LruCache.initConf, Fp.getLines_text]
    exact hload
  · change Caches c' (ks.foldl (lruPush (m : ℤ)) []) at hc
    rwa [hfold] at hc

/-! ### Keys stay apart -/

def Apart (ks : List Fp) : Prop := ks.Pairwise (fun a b => keyMatch a b = false)

theorem keyMatch_comm (a b : Fp) : keyMatch a b = keyMatch b a := by
  rw [Bool.eq_iff_iff]
  simp only [keyMatch, Bool.and_eq_true, decide_eq_true_eq, sameCStr_iff]
  constructor <;> rintro ⟨h1, h2⟩ <;> exact ⟨h1.symm, h2.symm⟩

theorem keyMatch_self (a : Fp) : keyMatch a a = true := by
  simp [keyMatch, sameCStr_iff]

theorem Apart.nodup {ks : List Fp} (h : Apart ks) : ks.Nodup := by
  apply h.imp
  intro a b hab heq
  rw [heq, keyMatch_self] at hab
  exact Bool.noConfusion hab

theorem Apart.reverse {ks : List Fp} (h : Apart ks) : Apart ks.reverse := by
  refine List.pairwise_reverse.mpr (h.imp ?_)
  intro a b hab
  rw [keyMatch_comm]
  exact hab

theorem Apart.lruFind {ks : List Fp} (h : Apart ks) (str : Fp) : Apart (lruFind ks str).2 := by
  cases herase : eraseOldest str ks with
  | none => simpa [Ddfs.lruFind, herase] using h
  | some ks' =>
    obtain ⟨k1, x, k2, rfl, hx, -, rfl⟩ := eraseOldest_split str ks ks' herase
    have hmid : Apart (x :: (k1 ++ k2)) := by
      refine (List.pairwise_middle ?_).mp h
      intro a b hab
      rw [keyMatch_comm]
      exact hab
    obtain ⟨hfar, hrest⟩ := List.pairwise_cons.mp hmid
    have hfar' : ∀ y ∈ k1 ++ k2, keyMatch str y = false := by
      intro y hy
      rw [← keyMatch_congr str x y hx]
      exact hfar y hy
    have hres : (Ddfs.lruFind (k1 ++ x :: k2) str).2 = str :: (k1 ++ k2) := by
      rw [Ddfs.lruFind, herase]
    rw [hres]
    exact List.pairwise_cons.mpr ⟨hfar', hrest⟩

theorem Apart.lruPut {m : ℤ} {ks : List Fp} (h : Apart ks) (str : Fp) :
    Apart (lruPut m ks str).2 := by
  have hfind := h.lruFind str
  cases herase : eraseOldest str ks with
  | some ks' =>
    simp only [Ddfs.lruFind, herase] at hfind
    simpa [Ddfs.lruPut, Ddfs.lruFind, herase] using hfind
  | none =>
    have hcons : Apart (str :: ks) :=
      List.pairwise_cons.mpr ⟨(eraseOldest_eq_none_iff str ks).mp herase, h⟩
    have hpush : Apart (lruPush m ks str) := by
      unfold lruPush
      split_ifs
      · exact hcons
      · exact hcons.sublist (List.dropLast_sublist _)
    simpa [Ddfs.lruPut, Ddfs.lruFind, herase] using hpush

theorem Apart.keyCall {m : ℤ} {ks : List Fp} (h : Apart ks) (a : Call) :
    Apart (keyCall m ks a).2 := by
  cases a with
  | find str => exact h.lruFind str
  | putdata str => exact h.lruPut str

theorem LruCache.Reachable.caches {m : ℕ} {c : LruCache} (h : Reachable m c) :
    c.maxCacheSize = m ∧ ∃ ks, Caches c ks ∧ Apart ks := by
  induction h with
  | new => exact ⟨rfl, [], caches_new m (Int.natCast_nonneg m), List.Pairwise.nil⟩
  | @call c c' a r _ hcall ih =>
    obtain ⟨hmax, ks, hc, hap⟩ := ih
    obtain ⟨c1, hcall1, hmax1, hc1⟩ := hc.call a
    have heq : c1 = c' := by
      rw [hcall, Option.some.injEq, Prod.mk.injEq] at hcall1
      exact hcall1.2.symm
    subst heq
    exact ⟨hmax1.trans hmax, _, hc1, hap.keyCall a⟩
  | @restart c c' _ hre ih =>
    obtain ⟨hmax, ks, hc, hap⟩ := ih
    obtain ⟨c1, hre1, hmax1, hc1⟩ := hc.restart hmax
    have heq : c1 = c' := by
      rw [hre, Option.some.injEq] at hre1
      exact hre1.symm
    subst heq
    exact ⟨hmax1, _, hc1, hap.reverse⟩

/-! ### What a restart changes -/

theorem answers_congr (calls : List Call) (c c' : LruCache) (ks : List Fp) (h : Caches c ks)
    (h' : Caches c' ks) (hmax : c'.maxCacheSize = c.maxCacheSize) :
    c'.answers calls = c.answers calls := by
  induction calls generalizing c c' ks with
  | nil => rfl
  | cons a calls ih =>
    obtain ⟨c1, hcall, hmax1, hc1⟩ := h.call a
    obtain ⟨c2, hcall', hmax2, hc2⟩ := h'.call a
    rw [hmax] at hcall' hc2
    have hrec := ih c1 c2 _ hc1 hc2 (by rw [hmax1, hmax2, hmax])
    simp only [LruCache.answers, hcall, hcall', Option.bind_eq_bind, Option.bind_some, hrec]

theorem reverse_eq_self_iff {α : Type} (l : List α) (h : l.Nodup) :
    l.reverse = l ↔ l.length ≤ 1 := by
  constructor
  · intro hrev
    cases l with
    | nil => simp
    | cons a t =>
      -- the first and the last element agree, so they are the same position
      rcases List.eq_nil_or_concat t with rfl | ⟨u, b, rfl⟩
      · simp
      · rw [List.concat_eq_append] at *
        have hhead := congrArg List.head? hrev
        have hab : b = a := by simpa using hhead
        have hnot := (List.nodup_cons.mp h).1
        exact absurd (by simp [hab]) hnot
  · intro hlen
    match l, hlen with
    | [], _ => rfl
    | [a], _ => rfl

/-- Saving and loading restores the cache exactly when it holds at most one
fingerprint. -/
theorem restores_iff (m : ℕ) (c : LruCache) (h : Reachable m c) :
    Restores m c ↔ c.nowCacheSize ≤ 1 := by
  obtain ⟨hmax, ks, hc, hap⟩ := h.caches
  obtain ⟨c', hre, hmax', hc'⟩ := hc.restart hmax
  have hnow := hc.now
  have hiff := reverse_eq_self_iff ks hap.nodup
  constructor
  · rintro ⟨c1, hre1, hrec, -, -⟩
    have heq : c' = c1 := by
      rw [hre, Option.some.injEq] at hre1
      exact hre1
    subst heq
    rw [hc'.recency, hc.recency, Option.some.injEq] at hrec
    have hlen := hiff.mp hrec
    omega
  · intro hle
    have hrev : ks.reverse = ks := hiff.mpr (by omega)
    rw [hrev] at hc'
    refine ⟨c', hre, by rw [hc'.recency, hc.recency], by rw [hc'.now, hc.now], ?_⟩
    intro calls
    exact answers_congr calls c c' ks hc hc' (hmax'.trans hmax.symm)

def oneKey : LruCache :=
  (((LruCache.new 2).putdata ⟨[1, 1, 1, 1, 1, 1], rfl⟩).map Prod.snd).getD (LruCache.new 2)

theorem restores_oneKey : Reachable 2 oneKey ∧ Restores 2 oneKey := by
  have hcall : (LruCache.new 2).call (.putdata ⟨[1, 1, 1, 1, 1, 1], rfl⟩)
      = some (true, oneKey) := by rfl
  have hreach : Reachable 2 oneKey := .call .new hcall
  have hone : oneKey.nowCacheSize ≤ 1 := by decide +kernel
  exact ⟨hreach, (restores_iff 2 oneKey hreach).mpr hone⟩

def twoKeys : Option LruCache := do
  let (_, c) ← (LruCache.new 2).putdata ⟨[1, 1, 1, 1, 1, 1], rfl⟩
  let (_, c) ← c.putdata ⟨[2, 2, 2, 2, 2, 2], rfl⟩
  some c

/-- A restart of that cache changes which key the next insertion evicts. -/
theorem restart_twoKeys :
    twoKeys.bind LruCache.recency
      = some [⟨[2, 2, 2, 2, 2, 2], rfl⟩, ⟨[1, 1, 1, 1, 1, 1], rfl⟩] ∧
    (twoKeys.bind (LruCache.restart 2)).bind LruCache.recency
      = some [⟨[1, 1, 1, 1, 1, 1], rfl⟩, ⟨[2, 2, 2, 2, 2, 2], rfl⟩] ∧
    twoKeys.bind (fun c => c.answers
        [.putdata ⟨[3, 3, 3, 3, 3, 3], rfl⟩, .find ⟨[1, 1, 1, 1, 1, 1], rfl⟩])
      = some [true, false] ∧
    (twoKeys.bind (LruCache.restart 2)).bind (fun c => c.answers
        [.putdata ⟨[3, 3, 3, 3, 3, 3], rfl⟩, .find ⟨[1, 1, 1, 1, 1, 1], rfl⟩])
      = some [true, true] := by
  decide +kernel

end FreqAnalysis.Ddfs
