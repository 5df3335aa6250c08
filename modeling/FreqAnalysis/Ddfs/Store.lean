import FreqAnalysis.Base.Lists
import FreqAnalysis.Ddfs.ContainerRuns
import FreqAnalysis.Ddfs.Guarantees
import Mathlib.Data.Finset.Card

/-!
# The prototype as a store of containers

What `ddfs` is for, without Bloom filter, cache, index and conf files: a store keeps the
first occurrence of every fingerprint, in containers that are closed when the next chunk
does not fit and at the end of a run. The prototype refines that store on every sequence
of traces in which no two fingerprints have the same C string: its container files, its
index and its counters depend on the traces only, not on the filter, the hash function or
what is in the cache.
-/

namespace FreqAnalysis.Ddfs
open Base

structure Store where
  containers : List (List Chunk)
  opened : List Chunk

namespace Store

def empty : Store := ⟨[], []⟩

def size (t : Store) : ℤ := (t.opened.map Chunk.size).sum

/-- The fingerprints of every container, the open one last. -/
def fps (t : Store) : List (List Fp) := (t.containers ++ [t.opened]).map (List.map Chunk.hash)

def stored (t : Store) : List Fp := t.fps.flatten

def close (t : Store) : Store :=
  if t.opened = [] then t else ⟨t.containers ++ [t.opened], []⟩

/-- The test is made on an `int`; for chunks of at most 4 MB it is exact (`Bounded.put_eq`). -/
def put (t : Store) (c : Chunk) : Store :=
  let t := if cInt (t.size + c.size) > maxSize then t.close else t
  { t with opened := t.opened ++ [c] }

def add (t : Store) (c : Chunk) : Store := if t.stored.contains c.hash then t else t.put c

def run (t : Store) (trace : List Chunk) : Store := (trace.foldl add t).close

def runs (traces : List (List Chunk)) : Store := traces.foldl run empty

/-- The number of the container that holds a fingerprint, as `fpindex::find` reports it. -/
def find (t : Store) (x : Fp) : ℤ :=
  if t.stored.contains x then (t.fps.findIdx fun l => l.contains x) else -1

theorem add_of_mem {t : Store} {c : Chunk} (h : c.hash ∈ t.stored) : t.add c = t :=
  if_pos (List.contains_iff_mem.mpr h)

theorem add_of_not_mem {t : Store} {c : Chunk} (h : c.hash ∉ t.stored) : t.add c = t.put c :=
  if_neg fun hc => h (List.contains_iff_mem.mp hc)

theorem stored_eq (t : Store) :
    t.stored = (t.containers.map (List.map Chunk.hash)).flatten ++ t.opened.map Chunk.hash := by
  simp [stored, fps]

theorem stored_close (t : Store) : t.close.stored = t.stored := by
  unfold close
  split
  · rfl
  · simp [stored_eq]

theorem stored_put (t : Store) (c : Chunk) : (t.put c).stored = t.stored ++ [c.hash] := by
  have happend : ∀ t : Store, stored { t with opened := t.opened ++ [c] } = t.stored ++ [c.hash] :=
    fun t => by simp [stored_eq]
  unfold put
  split
  · rw [happend, stored_close]
  · rw [happend]

theorem opened_close (t : Store) : t.close.opened = [] := by
  unfold close
  split
  · assumption
  · rfl

theorem opened_run (t : Store) (trace : List Chunk) : (t.run trace).opened = [] :=
  opened_close _

/-- A store keeps first occurrences. -/
theorem stored_add {t : Store} {l : List Fp} (h : t.stored = l.eraseDups) (c : Chunk) :
    (t.add c).stored = (l ++ [c.hash]).eraseDups := by
  rw [List.eraseDups_append, ← h]
  by_cases hmem : c.hash ∈ t.stored
  · have hl : c.hash ∈ l := by rwa [h, List.mem_eraseDups] at hmem
    simp [List.removeAll, hl, add_of_mem hmem]
  · have hl : c.hash ∉ l := by rwa [h, List.mem_eraseDups] at hmem
    simp [List.removeAll, hl, add_of_not_mem hmem, stored_put, List.eraseDups_cons]

theorem stored_foldl_add {t : Store} {l : List Fp} (h : t.stored = l.eraseDups)
    (trace : List Chunk) :
    (trace.foldl add t).stored = (l ++ trace.map Chunk.hash).eraseDups := by
  induction trace generalizing t l with
  | nil => simpa using h
  | cons c trace ih =>
    rw [List.foldl_cons, ih (stored_add h c), List.map_cons, List.append_assoc,
      List.singleton_append]

theorem stored_runs {t : Store} {l : List Fp} (h : t.stored = l.eraseDups)
    (runs : List (List Chunk)) :
    (runs.foldl run t).stored = (l ++ runs.flatten.map Chunk.hash).eraseDups := by
  induction runs generalizing t l with
  | nil => simpa using h
  | cons trace runs ih =>
    have hrun : (t.run trace).stored = (l ++ trace.map Chunk.hash).eraseDups :=
      (stored_close _).trans (stored_foldl_add h trace)
    rw [List.foldl_cons, ih hrun, List.flatten_cons, List.map_append, List.append_assoc]

/-- Containers are not empty and hold at most 4 MB. -/
structure Bounded (t : Store) : Prop where
  closed : ∀ l ∈ t.containers, l ≠ [] ∧ (l.map Chunk.size).sum ≤ maxSize
  nonneg : 0 ≤ t.size
  fits : t.size ≤ maxSize

theorem Bounded.close {t : Store} (h : t.Bounded) : t.close.Bounded ∧ t.close.size = 0 := by
  by_cases hnil : t.opened = []
  · rw [Store.close, if_pos hnil]
    refine ⟨h, ?_⟩
    rw [size, hnil]
    rfl
  · rw [Store.close, if_neg hnil]
    have hempty : (0 : ℤ) ≤ maxSize := by decide
    refine ⟨⟨?_, le_rfl, hempty⟩, rfl⟩
    intro l hl
    rcases List.mem_append.mp hl with hl | hl
    · exact h.closed l hl
    · rw [List.mem_singleton.mp hl]
      exact ⟨hnil, h.fits⟩

/-- A container is closed exactly when the next chunk does not fit. -/
theorem Bounded.put_eq {t : Store} (h : t.Bounded) {c : Chunk} (h0 : 0 ≤ c.size)
    (hc : c.size ≤ maxSize) :
    t.put c = if t.size + c.size > maxSize then { t.close with opened := t.close.opened ++ [c] }
      else { t with opened := t.opened ++ [c] } := by
  have hmax : maxSize = 4194304 := rfl
  have hnonneg := h.nonneg
  have hfits := h.fits
  rw [Store.put, cInt_of_bounds (by omega) (by omega)]
  split_ifs <;> rfl

theorem Bounded.put {t : Store} (h : t.Bounded) {c : Chunk} (h0 : 0 ≤ c.size)
    (hc : c.size ≤ maxSize) : (t.put c).Bounded := by
  have hnonneg := h.nonneg
  have hpush : ∀ t : Store, size { t with opened := t.opened ++ [c] } = t.size + c.size :=
    fun t => by simp [size]
  rw [h.put_eq h0 hc]
  split_ifs with hfull
  · obtain ⟨hclosed, hzero⟩ := h.close
    refine ⟨hclosed.closed, ?_, ?_⟩ <;> rw [hpush, hzero] <;> omega
  · refine ⟨h.closed, ?_, ?_⟩ <;> rw [hpush] <;> omega

theorem Bounded.run {t : Store} (h : t.Bounded) {trace : List Chunk}
    (hsize : ∀ c ∈ trace, 0 ≤ c.size ∧ c.size ≤ maxSize) : (t.run trace).Bounded := by
  have hadd : (trace.foldl add t).Bounded := by
    refine List.foldlRecOn trace add h fun t ht c hc => ?_
    rw [add]
    split
    · exact ht
    · exact ht.put (hsize c hc).1 (hsize c hc).2
  exact hadd.close.1

theorem bounded_runs {traces : List (List Chunk)}
    (hsize : ∀ c ∈ traces.flatten, 0 ≤ c.size ∧ c.size ≤ maxSize) : (runs traces).Bounded := by
  refine List.foldlRecOn traces run ⟨by simp [empty], le_rfl, by decide⟩ fun t ht trace htrace => ?_
  exact ht.run fun c hc => hsize c (List.mem_flatten.mpr ⟨trace, htrace, hc⟩)

end Store

/-! ### The container manager refines it -/

structure Lays (cm : ContainerManager) (v : Volume) (t : Store) : Prop where
  written : v.written = t.containers.mapIdx fun i l => ((i : ℤ), l.map Chunk.hash)
  next : cm.nowId = t.containers.length
  tmp : cm.tmp = t.opened.map Chunk.hash
  size : cm.nowSize = cInt t.size
  inserted : v.inserted = t.stored

namespace Lays

variable {cm : ContainerManager} {v : Volume} {t : Store}

theorem pocessw (h : Lays cm v t) (stale : ℕ → ℕ → Byte) :
    Lays (cm.pocessw stale v).2.1 (cm.pocessw stale v).2.2 t.close := by
  by_cases hnil : t.opened = []
  · have htmp : cm.tmp = [] := by rw [h.tmp, hnil, List.map_nil]
    have hsame : cm.pocessw stale v = (false, cm, v) := by simp [ContainerManager.pocessw, htmp]
    rw [hsame, Store.close, if_pos hnil]
    exact h
  · have htmp : cm.tmp ≠ [] := by
      rw [h.tmp]
      simpa using hnil
    have hstored : v.inserted = t.close.stored := h.inserted.trans t.stored_close.symm
    rw [ContainerManager.pocessw_of_ne_nil stale cm v htmp]
    rw [Store.close, if_neg hnil] at hstored ⊢
    have hwritten : v.written ++ [(cm.nowId, cm.tmp)]
        = (t.containers ++ [t.opened]).mapIdx fun i l => ((i : ℤ), l.map Chunk.hash) := by
      rw [List.mapIdx_concat, ← h.written, h.next, h.tmp]
    have hnext : cm.nowId + 1 = ((t.containers ++ [t.opened]).length : ℤ) := by
      rw [h.next, List.length_append, List.length_singleton]
      rfl
    exact ⟨hwritten, hnext, rfl, rfl, hstored⟩

theorem push (h : Lays cm v t) (c : Chunk) :
    Lays { cm with nowSize := cInt (cm.nowSize + c.size), tmp := cm.tmp ++ [c.hash] }
      { v with inserted := v.inserted ++ [c.hash] } { t with opened := t.opened ++ [c] } := by
  refine ⟨h.written, h.next, ?_, ?_, ?_⟩
  · rw [h.tmp, List.map_append]
    rfl
  · rw [h.size, cInt_add]
    simp [Store.size]
  · rw [h.inserted]
    simp [Store.stored_eq]

theorem insert (h : Lays cm v t) (stale : ℕ → ℕ → Byte) (c : Chunk) :
    Lays (cm.insert stale v c.hash c.size).1 (cm.insert stale v c.hash c.size).2 (t.put c) := by
  unfold ContainerManager.insert Store.put
  rw [h.size, cInt_add]
  by_cases hfull : cInt (t.size + c.size) > maxSize
  · simp only [if_pos hfull]
    exact (h.pocessw stale).push c
  · simp only [if_neg hfull]
    exact h.push c

theorem init (h : Lays cm v t) (hopen : t.opened = []) {v' : Volume}
    (hwritten : v'.written = v.written) (hins : v'.inserted = v.inserted) :
    Lays ⟨cm.nowId, 0, []⟩ v' t := by
  refine ⟨hwritten.trans h.written, h.next, ?_, ?_, hins.trans h.inserted⟩
  · rw [hopen, List.map_nil]
  · rw [Store.size, hopen]
    rfl

end Lays

/-! ### The system refines it -/

section System

variable {P : Params}

/-- A chunk found in the cache or the index changes the cache and the counters only. -/
def SameStore (s s' : State P.size) : Prop :=
  s'.cmr = s.cmr ∧ s'.volume = s.volume ∧ s'.index = s.index

/-- What one chunk can do. -/
theorem Inv.readChunk_cases {s : State P.size} (h : Inv P s) (c : Chunk) :
    (∃ s', Ddfs.readChunk P s c = .ok s' ∧ SameStore s s' ∧
      ∃ x ∈ s.volume.inserted, cStr x.val = cStr c.hash.val) ∨
    c.hash ∉ s.volume.inserted ∧ ∃ lpc n, Ddfs.readChunk P s c
      = .ok (Ddfs.punique P { s with lpc := lpc, indexAccess := n } c.hash c.size) := by
  obtain ⟨hit, lpc, hfind, hc, hstored⟩ := h.cached.find c.hash
  cases hit with
  | true => exact Or.inl ⟨_, readChunk_hit hfind, ⟨rfl, rfl, rfl⟩, hstored rfl⟩
  | false =>
    cases hget : s.index.get c.hash with
    | none =>
      obtain ⟨n, hread⟩ := readChunk_unique (P := P) hfind hget
      have hnew : c.hash ∉ s.volume.inserted := fun hmem =>
        (s.index.get_eq_none_iff c.hash).mp hget ((h.indexed c.hash).mpr hmem)
      exact Or.inr ⟨hnew, lpc, n, hread⟩
    | some id =>
      obtain ⟨conti, hload, hconti⟩ := h.containers.loadtonode c.hash id hget
      have hw := h.withLpc lpc (s.indexAccess + 1) s.loadingAccess hc
      obtain ⟨lpc', l, hcache, -⟩ := hw.loadCache conti hconti
      have hmem := (h.indexed c.hash).mp ((s.index.mem_keys_iff c.hash).mpr ⟨id, hget⟩)
      exact Or.inl ⟨_, (readChunk_dup h id conti hfind hget hload).trans hcache, ⟨rfl, rfl, rfl⟩,
        c.hash, hmem, rfl⟩

def Refines (s : State P.size) (t : Store) : Prop := Lays s.cmr s.volume t

/-- No two of the fingerprints are equal for `strncmp`. -/
def Unambiguous (l : List Fp) : Prop := ∀ x ∈ l, ∀ y ∈ l, sameCStr x y = true → x = y

instance (l : List Fp) : Decidable (Unambiguous l) := by unfold Unambiguous; infer_instance

theorem Refines.readChunk {s : State P.size} {t : Store} {all : List Fp}
    (hall : Unambiguous all) (h : Refines s t) (hr : RunInv P .running s)
    (hsub : ∀ x ∈ t.stored, x ∈ all) {c : Chunk} (hc : c.hash ∈ all) :
    ∃ s', Ddfs.readChunk P s c = .ok s' ∧ RunInv P .running s' ∧ Refines s' (t.add c) := by
  obtain ⟨s', hread, hr', -, -⟩ := hr.readChunk c
  refine ⟨s', hread, hr', ?_⟩
  rcases hr.inv.readChunk_cases c with ⟨s'', hread', ⟨hcmr, hvol, -⟩, x, hx, heq⟩
    | ⟨hnew, lpc, n, hread'⟩
  · obtain rfl : s'' = s' := Except.ok.inj (hread'.symm.trans hread)
    have hxt : x ∈ t.stored := h.inserted ▸ hx
    obtain rfl : x = c.hash := hall x (hsub x hxt) c.hash hc ((sameCStr_iff x c.hash).mpr heq)
    rw [Refines, hcmr, hvol, Store.add_of_mem hxt]
    exact h
  · obtain rfl := Except.ok.inj (hread'.symm.trans hread)
    have hnot : c.hash ∉ t.stored := h.inserted ▸ hnew
    rw [Store.add_of_not_mem hnot]
    exact Lays.insert h (P.stale s.cmr.nowId) c

theorem Refines.readChunks {s : State P.size} {t : Store} {all l : List Fp} {trace : List Chunk}
    (hall : Unambiguous all) (h : Refines s t) (hr : RunInv P .running s)
    (hstored : t.stored = l.eraseDups) (hsub : ∀ x ∈ l ++ trace.map Chunk.hash, x ∈ all) :
    ∃ s', trace.foldlM (Ddfs.readChunk P) s = .ok s' ∧ RunInv P .running s' ∧
      Refines s' (trace.foldl Store.add t) := by
  induction trace generalizing s t l with
  | nil => exact ⟨s, rfl, hr, h⟩
  | cons c trace ih =>
    have hold : ∀ x ∈ t.stored, x ∈ all := by
      intro x hx
      rw [hstored, List.mem_eraseDups] at hx
      exact hsub x (List.mem_append_left _ hx)
    obtain ⟨s1, hread, hr1, h1⟩ := h.readChunk hall hr hold (hsub c.hash (by simp))
    obtain ⟨s2, hrest, hr2, h2⟩ := ih h1 hr1 (Store.stored_add hstored c)
      (fun x hx => hsub x (by simpa using hx))
    exact ⟨s2, readChunks_cons hread hrest, hr2, h2⟩

theorem Refines.sysIni {s : State P.size} {t : Store} (h : Refines s t) (hr : RunInv P .idle s)
    (hopen : t.opened = []) :
    ∃ s', Ddfs.sysIni P s = .ok s' ∧ RunInv P .running s' ∧ Refines s' t := by
  obtain ⟨s', hstart, hr', -, hins⟩ := hr.sysIni
  refine ⟨s', hstart, hr', ?_⟩
  obtain ⟨v, hinit, -⟩ := hr.inv.containers.init (hr.saved rfl).flushed
  simp only [Ddfs.sysIni, hinit, orCrash, bind, Except.bind] at hstart
  split at hstart
  · cases hstart
  · cases hstart
    exact Lays.init h hopen (ContainerManager.init_written hinit) hins

theorem Refines.finishRun {s : State P.size} {t : Store} (h : Refines s t)
    (hr : RunInv P .running s) :
    ∃ s', Ddfs.finishRun P s = .ok s' ∧ RunInv P .idle s' ∧ Refines s' t.close := by
  obtain ⟨s', hend, hr', -, -⟩ := hr.finishRun
  refine ⟨s', hend, hr', ?_⟩
  simp only [Ddfs.finishRun, bind, Except.bind] at hend
  split at hend
  · cases hend
  · cases hend
    exact Lays.pocessw h (P.stale s.cmr.nowId)

theorem Refines.ddfs {s : State P.size} {t : Store} {all l : List Fp} (trace : List Chunk)
    (hall : Unambiguous all) (h : Refines s t) (hr : RunInv P .idle s) (hopen : t.opened = [])
    (hstored : t.stored = l.eraseDups) (hsub : ∀ x ∈ l ++ trace.map Chunk.hash, x ∈ all) :
    ∃ s', Ddfs.ddfs P s trace = .ok s' ∧ RunInv P .idle s' ∧ Refines s' (t.run trace) := by
  obtain ⟨s1, hstart, hr1, h1⟩ := h.sysIni hr hopen
  obtain ⟨s2, hread, hr2, h2⟩ := h1.readChunks hall hr1 hstored hsub
  obtain ⟨s3, hend, hr3, h3⟩ := h2.finishRun hr2
  refine ⟨s3, ?_, hr3, h3⟩
  simp only [Ddfs.ddfs, hstart, hread, hend, bind, Except.bind]

def ddfsRuns (P : Params) (runs : List (List Chunk)) : Except Fault (State P.size) :=
  runs.foldlM (ddfs P) (State.initial P.size)

theorem Refines.runs {s : State P.size} {t : Store} {all l : List Fp} {runs : List (List Chunk)}
    (hall : Unambiguous all) (h : Refines s t) (hr : RunInv P .idle s) (hopen : t.opened = [])
    (hstored : t.stored = l.eraseDups) (hsub : ∀ x ∈ l ++ runs.flatten.map Chunk.hash, x ∈ all) :
    ∃ s', runs.foldlM (Ddfs.ddfs P) s = .ok s' ∧ RunInv P .idle s' ∧
      Refines s' (runs.foldl Store.run t) := by
  induction runs generalizing s t l with
  | nil => exact ⟨s, rfl, hr, h⟩
  | cons trace runs ih =>
    obtain ⟨s1, hrun, hr1, h1⟩ := h.ddfs trace hall hr hopen hstored
      (fun x hx => hsub x (by
        rcases List.mem_append.mp hx with hx | hx
        · exact List.mem_append_left _ hx
        · simp only [List.flatten_cons, List.map_append]
          exact List.mem_append_right _ (List.mem_append_left _ hx)))
    have hstored1 : (t.run trace).stored = (l ++ trace.map Chunk.hash).eraseDups :=
      (Store.stored_close _).trans (Store.stored_foldl_add hstored trace)
    obtain ⟨s2, hrest, hr2, h2⟩ := ih h1 hr1 (t.opened_run trace) hstored1
      (fun x hx => hsub x (by simpa using hx))
    refine ⟨s2, ?_, hr2, h2⟩
    simp only [List.foldlM_cons, hrun, bind, Except.bind]
    exact hrest

theorem refines_runs (P : Params) (traces : List (List Chunk))
    (hdistinct : Unambiguous (traces.flatten.map Chunk.hash)) :
    ∃ s, ddfsRuns P traces = .ok s ∧ RunInv P .idle s ∧ Refines s (Store.runs traces) := by
  have h0 : Refines (State.initial P.size) Store.empty := ⟨rfl, rfl, rfl, rfl, rfl⟩
  exact h0.runs (l := []) hdistinct runInv_initial rfl rfl (fun x hx => hx)

theorem Store.stored_runs_empty (traces : List (List Chunk)) :
    (Store.runs traces).stored = (traces.flatten.map Chunk.hash).eraseDups :=
  Store.stored_runs (t := Store.empty) (l := []) rfl traces

theorem Refines.fpFind_eq {ph : Phase} {s : State P.size} {t : Store} (h : Refines s t)
    (hr : RunInv P ph s) (x : Fp) : fpFind s.index x = t.find x := by
  have hnodup : t.stored.Nodup := h.inserted ▸ hr.inv.once
  have hkeys : x ∈ s.index.keys ↔ x ∈ t.stored := h.inserted ▸ hr.inv.indexed x
  cases hget : s.index.get x with
  | none =>
    have hx : ¬ t.stored.contains x = true := fun hx =>
      (s.index.get_eq_none_iff x).mp hget (hkeys.mpr (List.contains_iff_mem.mp hx))
    simp only [fpFind, hget, Option.getD_none, Store.find, if_neg hx]
  | some id =>
    have hx : t.stored.contains x = true :=
      List.contains_iff_mem.mpr (hkeys.mp ((s.index.mem_keys_iff x).mpr ⟨id, hget⟩))
    simp only [fpFind, hget, Option.getD_some, Store.find, if_pos hx]
    -- the container the index names holds x, and no other one does
    rcases hr.inv.containers.located x id hget with ⟨l, hl, hxl⟩ | ⟨rfl, hxl⟩
    · rw [h.written, List.mem_mapIdx] at hl
      obtain ⟨i, hi, heq⟩ := hl
      obtain ⟨rfl, rfl⟩ := Prod.mk.inj heq
      have hi' : i < t.fps.length := by
        simp only [Store.fps, List.length_map, List.length_append, List.length_singleton]
        omega
      have hxi : x ∈ t.fps[i] := by
        simpa only [Store.fps, List.getElem_map, List.getElem_append_left hi] using hxl
      rw [findIdx_of_nodup_flatten hnodup (fun _ => List.contains_iff_mem) hi' hxi]
    · have hi' : t.containers.length < t.fps.length := by simp [Store.fps]
      have hxi : x ∈ t.fps[t.containers.length] := by
        rw [h.tmp] at hxl
        simpa [Store.fps] using hxl
      rw [h.next, findIdx_of_nodup_flatten hnodup (fun _ => List.contains_iff_mem) hi' hxi]

theorem Refines.updates_eq {s : State P.size} {t : Store} (h : Refines s t)
    (hr : RunInv P .idle s) : s.updates = t.stored.length := by
  have hcount : s.updates = s.index.entries.length := hr.counted
  have hperm : s.index.keys.Perm t.stored :=
    (List.perm_ext_iff_of_nodup s.index.nodup_keys (h.inserted ▸ hr.inv.once)).mpr
      fun x => h.inserted ▸ hr.inv.indexed x
  rw [hcount, ← hperm.length_eq, SortedMap.keys, List.length_map]

/-- One update for each different fingerprint of the traces, and these are indexed. -/
theorem Refines.updates_eq_card {s : State P.size} {traces : List (List Chunk)} {l : List Fp}
    (h : Refines s (Store.runs traces)) (hr : RunInv P .idle s)
    (hmem : ∀ x, x ∈ traces.flatten.map Chunk.hash ↔ x ∈ l) :
    s.updates = l.toFinset.card ∧ ∀ x, x ∈ s.index.keys ↔ x ∈ l := by
  have hstored : ∀ x, x ∈ (Store.runs traces).stored ↔ x ∈ l := by
    intro x
    rw [Store.stored_runs_empty, List.mem_eraseDups]
    exact hmem x
  have hnodup : (Store.runs traces).stored.Nodup := h.inserted ▸ hr.inv.once
  refine ⟨?_, ?_⟩
  · rw [h.updates_eq hr, ← List.toFinset_card_of_nodup hnodup]
    congr 1
    ext x
    rw [List.mem_toFinset, List.mem_toFinset]
    exact hstored x
  · intro x
    rw [hr.inv.indexed x, h.inserted]
    exact hstored x

/-- On traces without two fingerprints of one C string, with chunks of at most 4 MB,
`ddfs` run after run ends with the containers of the abstract store, in files numbered from
0, an index that names the container of every stored fingerprint, and one update for each of
them; the fingerprints stored are the first occurrences, whatever the filter and the hash
function are. A file holds the fingerprints of its container, but for the bytes that
`pocessw` reads behind an inner NUL. -/
theorem ddfs_refines_store (P : Params) (traces : List (List Chunk))
    (hdistinct : Unambiguous (traces.flatten.map Chunk.hash))
    (hsize : ∀ c ∈ traces.flatten, 0 ≤ c.size ∧ c.size ≤ maxSize) :
    ∃ s, ddfsRuns P traces = .ok s ∧
      s.volume.inserted = (traces.flatten.map Chunk.hash).eraseDups ∧
      s.volume.written
        = (Store.runs traces).containers.mapIdx (fun i l => ((i : ℤ), l.map Chunk.hash)) ∧
      (∀ l ∈ (Store.runs traces).containers, l ≠ [] ∧ (l.map Chunk.size).sum ≤ maxSize) ∧
      (∀ e ∈ s.volume.written,
        s.volume.files (decimal e.1)
          = some (ContainerManager.containerText (P.stale e.1) e.2) ∧
        ((∀ x ∈ e.2, ContainerManager.NoInnerNul x) → s.volume.files (decimal e.1)
          = some (putLines (e.2.map fun x => bytesText x.val)))) ∧
      (∀ x, fpFind s.index x = (Store.runs traces).find x) ∧
      s.updates = (Store.runs traces).stored.length := by
  obtain ⟨s, hrun, hr, h⟩ := refines_runs P traces hdistinct
  refine ⟨s, hrun, h.inserted.trans (Store.stored_runs_empty traces), h.written,
    (Store.bounded_runs hsize).closed, ?_, h.fpFind_eq hr, h.updates_eq hr⟩
  intro e he
  have hfile := (hr.inv.containers.written e.1 e.2 he).2.2
  refine ⟨hfile, fun hno => ?_⟩
  rw [hfile, ContainerManager.containerText_of_noInnerNul _ hno]

/-- Two runs. The second chunk does not fit into the first container, and the second run
starts a container of its own. -/
theorem ddfs_refines_store_two : ∃ s,
    ddfsRuns smallParams [[⟨.filled 1, 3000000⟩, ⟨.filled 2, 2000000⟩, ⟨.filled 1, 3000000⟩],
      [⟨.filled 2, 2000000⟩, ⟨.filled 3, 8192⟩]] = .ok s ∧
    s.volume.written = [(0, [.filled 1]), (1, [.filled 2]), (2, [.filled 3])] ∧
    fpFind s.index (.filled 3) = 2 ∧ s.updates = 3 := by
  obtain ⟨s, hrun, -, hwritten, -, -, hfind, hupdates⟩ := ddfs_refines_store smallParams
    [[⟨.filled 1, 3000000⟩, ⟨.filled 2, 2000000⟩, ⟨.filled 1, 3000000⟩],
      [⟨.filled 2, 2000000⟩, ⟨.filled 3, 8192⟩]] (by decide) (by decide)
  exact ⟨s, hrun, hwritten, (hfind _).trans (by decide), hupdates⟩

end System
end FreqAnalysis.Ddfs
