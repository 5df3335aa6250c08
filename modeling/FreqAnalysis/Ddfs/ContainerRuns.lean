import FreqAnalysis.Ddfs.SystemInv
import Mathlib.Algebra.Order.BigOperators.Group.List

/-!
# Containers over many runs (container_manager.cc)

A history of the container manager is a sequence of calls on a volume that was empty
at first: `insert` for a unique chunk, `pocessw` as `read_hashes` calls it when a
trace ends, and `init` when the next run starts. `now_id`, `now_size`, `tmp`, the
container files and `MAINFEST` are updated in four places; together they describe one
partition of the inserted chunks into closed containers and an open one. A run that
stops without its last `pocessw` loses the open container, and nothing else.
-/

namespace FreqAnalysis.Ddfs
open Base

theorem ContainerInv.forget {stale : ℤ → ℕ → ℕ → Byte} {cm : ContainerManager} {v : Volume}
    {index : SortedMap Fp ℤ} (h : ContainerInv stale cm v index) :
    ContainerInv stale cm v SortedMap.empty := by
  refine ⟨h.nowId_nonneg, h.saved, h.written, h.fresh, ?_, h.written_inserted, h.tmp_inserted⟩
  intro x id hget
  cases hget

namespace ContainerManager

abbrev ChunkSize := {n : ℤ // 0 ≤ n ∧ n ≤ maxSize}

inductive Call where
  | insert (str : Fp) (size : ChunkSize)
  | pocessw
  | init

def Call.chunk : Call → Option (Fp × ChunkSize)
  | .insert str size => some (str, size)
  | .pocessw => none
  | .init => none

def stream (calls : List Call) : List (Fp × ChunkSize) := calls.filterMap Call.chunk

/-- Runs end with `pocessw`: no `insert` is the last call before a restart. -/
def Orderly (calls : List Call) : Prop :=
  calls.IsChain fun a b => b = .init → a.chunk = none

section History

variable (stale : ℤ → ℕ → ℕ → Byte)

def perform (s : ContainerManager × Volume) : Call → Option (ContainerManager × Volume)
  | .insert str size => some (s.1.insert (stale s.1.nowId) s.2 str size)
  | .pocessw => some (s.1.pocessw (stale s.1.nowId) s.2).2
  | .init => init s.2

def history (calls : List Call) : Option (ContainerManager × Volume) :=
  calls.foldl (fun s c => s.bind fun s => perform stale s c) (init emptyVolume)

theorem history_concat (calls : List Call) (c : Call) :
    history stale (calls ++ [c]) = (history stale calls).bind fun s => perform stale s c := by
  rw [history, List.foldl_append]
  rfl

end History

/-! ### Closed containers and the open one -/

def totalSize (l : List (Fp × ChunkSize)) : ℤ := (l.map fun c => c.2.val).sum

theorem totalSize_concat (l : List (Fp × ChunkSize)) (c : Fp × ChunkSize) :
    totalSize (l ++ [c]) = totalSize l + c.2.val := by
  simp [totalSize]

theorem totalSize_nonneg (l : List (Fp × ChunkSize)) : 0 ≤ totalSize l := by
  refine List.sum_nonneg fun n hn => ?_
  obtain ⟨c, -, rfl⟩ := List.mem_map.mp hn
  exact c.2.property.1

/-- The containers `closed` were written under the ids from 0 on, and `tmp` holds the
chunks `opened`. -/
structure Partition (cm : ContainerManager) (v : Volume)
    (closed : List (List (Fp × ChunkSize))) (opened : List (Fp × ChunkSize)) : Prop where
  ids : v.written = closed.mapIdx fun i l => ((i : ℤ), l.map Prod.fst)
  next : cm.nowId = closed.length
  tmp : cm.tmp = opened.map Prod.fst
  size : cm.nowSize = totalSize opened
  fits : totalSize opened ≤ maxSize
  closed_fits : ∀ l ∈ closed, l ≠ [] ∧ totalSize l ≤ maxSize

section Steps

variable {cm : ContainerManager} {v : Volume} {closed : List (List (Fp × ChunkSize))}
  {opened : List (Fp × ChunkSize)}

theorem Partition.pocessw (h : Partition cm v closed opened) (stale : ℕ → ℕ → Byte) :
    ∃ closed', closed'.flatten = closed.flatten ++ opened ∧
      Partition (cm.pocessw stale v).2.1 (cm.pocessw stale v).2.2 closed' [] ∧
      (cm.pocessw stale v).2.2.inserted = v.inserted := by
  by_cases hnil : opened = []
  · have htmp : cm.tmp = [] := by rw [h.tmp, hnil, List.map_nil]
    have hsame : cm.pocessw stale v = (false, cm, v) := by
      simp [ContainerManager.pocessw, htmp]
    rw [hsame]
    subst hnil
    exact ⟨closed, by rw [List.append_nil], h, rfl⟩
  · have htmp : cm.tmp ≠ [] := by
      rw [h.tmp]
      simpa using hnil
    rw [pocessw_of_ne_nil stale cm v htmp]
    have hids : v.written ++ [(cm.nowId, cm.tmp)]
        = (closed ++ [opened]).mapIdx fun i l => ((i : ℤ), l.map Prod.fst) := by
      rw [List.mapIdx_concat, ← h.ids, h.next, h.tmp]
    have hnext : cm.nowId + 1 = ((closed ++ [opened]).length : ℤ) := by
      rw [h.next, List.length_append, List.length_singleton]
      rfl
    have hclosed : ∀ l ∈ closed ++ [opened], l ≠ [] ∧ totalSize l ≤ maxSize := by
      intro l hl
      rcases List.mem_append.mp hl with hold | hnew
      · exact h.closed_fits l hold
      · rw [List.mem_singleton.mp hnew]
        exact ⟨hnil, h.fits⟩
    exact ⟨closed ++ [opened], by simp, ⟨hids, hnext, rfl, rfl, by decide, hclosed⟩, rfl⟩

/-- The sums of an open container do not leave the range of an `int`. -/
theorem Partition.cInt_size (h : Partition cm v closed opened) (size : ChunkSize) :
    cInt (cm.nowSize + size.val) = totalSize opened + size.val := by
  have hmax : maxSize = 4194304 := rfl
  have hopen := totalSize_nonneg opened
  have hfits := h.fits
  have hsize := size.property
  rw [h.size]
  exact cInt_of_bounds (by omega) (by omega)

theorem Partition.push (h : Partition cm v closed opened) (str : Fp) (size : ChunkSize)
    (hfit : totalSize opened + size.val ≤ maxSize) :
    Partition { cm with nowSize := cInt (cm.nowSize + size.val), tmp := cm.tmp ++ [str] }
      { v with inserted := v.inserted ++ [str] } closed (opened ++ [(str, size)]) := by
  have htmp : cm.tmp ++ [str] = (opened ++ [(str, size)]).map Prod.fst := by
    rw [h.tmp, List.map_append]
    rfl
  have hsize : cInt (cm.nowSize + size.val) = totalSize (opened ++ [(str, size)]) := by
    rw [h.cInt_size, totalSize_concat]
  exact ⟨h.ids, h.next, htmp, hsize, by rw [totalSize_concat]; exact hfit, h.closed_fits⟩

theorem Partition.insert (h : Partition cm v closed opened) (stale : ℕ → ℕ → Byte) (str : Fp)
    (size : ChunkSize) :
    ∃ closed' opened', closed'.flatten ++ opened' = closed.flatten ++ opened ++ [(str, size)] ∧
      Partition (cm.insert stale v str size).1 (cm.insert stale v str size).2 closed' opened' ∧
      (cm.insert stale v str size).2.inserted = v.inserted ++ [str] := by
  unfold ContainerManager.insert
  by_cases hfull : cInt (cm.nowSize + size.val) > maxSize
  · obtain ⟨closed', hflat, hpart, hins⟩ := h.pocessw stale
    have hfit : totalSize [] + size.val ≤ maxSize := by
      have hsize := size.property.2
      simpa [totalSize] using hsize
    have hpush := hpart.push str size hfit
    simp only [if_pos hfull]
    exact ⟨closed', [] ++ [(str, size)], by rw [hflat, List.nil_append], hpush, by rw [hins]⟩
  · simp only [if_neg hfull]
    have hfit : totalSize opened + size.val ≤ maxSize := by
      rw [← h.cInt_size]
      omega
    have hflat : closed.flatten ++ (opened ++ [(str, size)])
        = closed.flatten ++ opened ++ [(str, size)] := (List.append_assoc ..).symm
    exact ⟨closed, opened ++ [(str, size)], hflat, h.push str size hfit, trivial⟩

theorem Partition.overflow (h : Partition cm v closed opened) (stale : ℕ → ℕ → Byte) (str : Fp)
    (size : ChunkSize) (hclose : (cm.insert stale v str size).2.written ≠ v.written) :
    maxSize < totalSize opened + size.val := by
  by_contra hle
  have hfit : ¬ cInt (cm.nowSize + size.val) > maxSize := by
    rw [h.cInt_size]
    omega
  apply hclose
  simp only [ContainerManager.insert, if_neg hfit]

theorem Partition.init (h : Partition cm v closed opened) {cm' : ContainerManager} {v' : Volume}
    (hcm : cm' = ⟨cm.nowId, 0, []⟩) (hv : v'.written = v.written) :
    Partition cm' v' closed [] := by
  subst hcm
  exact ⟨hv.trans h.ids, h.next, rfl, rfl, by decide, h.closed_fits⟩

end Steps

/-! ### Every history -/

structure Traced (stale : ℤ → ℕ → ℕ → Byte) (calls : List Call) (cm : ContainerManager)
    (v : Volume) (closed : List (List (Fp × ChunkSize))) (opened : List (Fp × ChunkSize)) :
    Prop where
  -- of the index nothing is needed here
  files : ContainerInv stale cm v SortedMap.empty
  part : Partition cm v closed opened
  inserted : v.inserted = (stream calls).map Prod.fst
  sub : (closed.flatten ++ opened).Sublist (stream calls)
  all : Orderly calls → closed.flatten ++ opened = stream calls
  flushed : (∀ c ∈ calls.getLast?, c.chunk = none) → opened = []

theorem stream_concat (calls : List Call) (c : Call) :
    stream (calls ++ [c]) = stream calls ++ c.chunk.toList := by
  rw [stream, List.filterMap_append]
  cases h : c.chunk with
  | none => simp [stream, h]
  | some e => simp [stream, h]

theorem orderly_concat {calls : List Call} {c : Call} (h : Orderly (calls ++ [c])) :
    Orderly calls ∧ (c = .init → ∀ a ∈ calls.getLast?, a.chunk = none) := by
  obtain ⟨hcalls, -, hlast⟩ := List.isChain_append.mp h
  refine ⟨hcalls, ?_⟩
  intro hinit a ha
  exact hlast a ha c rfl hinit

theorem init_written {cm : ContainerManager} {v v' : Volume} (h : init v = some (cm, v')) :
    v'.written = v.written := by
  unfold init at h
  cases hfile : v.files mainfest with
  | none =>
    simp only [hfile, Option.some.injEq, Prod.mk.injEq] at h
    rw [← h.2]
    rfl
  | some text =>
    simp only [hfile, Option.map_eq_some_iff, Prod.mk.injEq] at h
    obtain ⟨id, -, -, hv⟩ := h
    rw [hv]

section Trace

variable {stale : ℤ → ℕ → ℕ → Byte} {calls : List Call} {cm : ContainerManager} {v : Volume}
  {closed : List (List (Fp × ChunkSize))} {opened : List (Fp × ChunkSize)}

theorem Traced.insert (h : Traced stale calls cm v closed opened) (str : Fp) (size : ChunkSize) :
    ∃ closed' opened', Traced stale (calls ++ [.insert str size])
      (cm.insert (stale cm.nowId) v str size).1 (cm.insert (stale cm.nowId) v str size).2
      closed' opened' := by
  obtain ⟨hfiles, -, -⟩ := h.files.insert str size.val
  obtain ⟨closed', opened', hflat, hpart, hins⟩ := h.part.insert (stale cm.nowId) str size
  have hstream : stream (calls ++ [.insert str size]) = stream calls ++ [(str, size)] :=
    stream_concat calls _
  refine ⟨closed', opened', hfiles.forget, hpart, ?_, ?_, ?_, ?_⟩
  · rw [hins, h.inserted, hstream, List.map_append]
    rfl
  · rw [hflat, hstream]
    exact h.sub.append_right _
  · intro horder
    rw [hflat, hstream, h.all (orderly_concat horder).1]
  · intro hlast
    have hnone := hlast (.insert str size) (by rw [List.getLast?_concat]; rfl)
    cases hnone

theorem Traced.pocessw (h : Traced stale calls cm v closed opened) :
    ∃ closed', Traced stale (calls ++ [.pocessw]) (cm.pocessw (stale cm.nowId) v).2.1
      (cm.pocessw (stale cm.nowId) v).2.2 closed' [] := by
  obtain ⟨hfiles, -, -, -⟩ := h.files.pocessw
  obtain ⟨closed', hflat, hpart, hins⟩ := h.part.pocessw (stale cm.nowId)
  have hstream : stream (calls ++ [.pocessw]) = stream calls := by
    rw [stream_concat]
    exact List.append_nil _
  refine ⟨closed', hfiles, hpart, ?_, ?_, ?_, fun _ => rfl⟩
  · rw [hins, h.inserted, hstream]
  · rw [List.append_nil, hflat, hstream]
    exact h.sub
  · intro horder
    rw [List.append_nil, hflat, hstream, h.all (orderly_concat horder).1]

theorem Traced.init (h : Traced stale calls cm v closed opened) :
    ∃ cm' v', ContainerManager.init v = some (cm', v') ∧
      Traced stale (calls ++ [.init]) cm' v' closed [] := by
  have hf := h.files
  have hempty : ContainerInv stale ⟨cm.nowId, cm.nowSize, []⟩ v SortedMap.empty :=
    ⟨hf.nowId_nonneg, hf.saved, hf.written, hf.fresh, (fun _ _ hget => nomatch hget),
      hf.written_inserted, fun _ hx => absurd hx List.not_mem_nil⟩
  obtain ⟨v', hinit, hfiles, hins, -⟩ := hempty.init rfl
  have hstream : stream (calls ++ [.init]) = stream calls := by
    rw [stream_concat]
    exact List.append_nil _
  refine ⟨_, v', hinit, hfiles, h.part.init rfl (init_written hinit), ?_, ?_, ?_, fun _ => rfl⟩
  · rw [hins, h.inserted, hstream]
  · rw [List.append_nil, hstream]
    exact (List.sublist_append_left _ _).trans h.sub
  · intro horder
    obtain ⟨hcalls, hlast⟩ := orderly_concat horder
    have hall := h.all hcalls
    rw [h.flushed (hlast rfl)] at hall
    rw [hstream, hall]

theorem Traced.step (h : Traced stale calls cm v closed opened) (c : Call) :
    ∃ cm' v' closed' opened', perform stale (cm, v) c = some (cm', v') ∧
      Traced stale (calls ++ [c]) cm' v' closed' opened' := by
  cases c with
  | insert str size =>
    obtain ⟨closed', opened', htraced⟩ := h.insert str size
    exact ⟨_, _, closed', opened', rfl, htraced⟩
  | pocessw =>
    obtain ⟨closed', htraced⟩ := h.pocessw
    exact ⟨_, _, closed', [], rfl, htraced⟩
  | init =>
    obtain ⟨cm', v', hinit, htraced⟩ := h.init
    exact ⟨cm', v', closed, [], hinit, htraced⟩

end Trace

theorem traced_nil (stale : ℤ → ℕ → ℕ → Byte) :
    ∃ cm v, history stale [] = some (cm, v) ∧ Traced stale [] cm v [] [] := by
  have h0 : ContainerInv stale ⟨0, 0, []⟩ emptyVolume SortedMap.empty :=
    ⟨le_rfl, Or.inr ⟨rfl, rfl⟩, fun _ _ h => absurd h List.not_mem_nil, fun _ _ => rfl,
      (fun _ _ hget => nomatch hget), fun _ _ h => absurd h List.not_mem_nil,
      fun _ h => absurd h List.not_mem_nil⟩
  obtain ⟨v, hinit, hfiles, hins, -⟩ := h0.init rfl
  have hpart : Partition ⟨0, 0, []⟩ v [] [] :=
    ⟨init_written hinit, rfl, rfl, rfl, by decide, fun _ h => absurd h List.not_mem_nil⟩
  exact ⟨_, v, hinit, hfiles, hpart, hins, List.Sublist.refl _, fun _ => rfl, fun _ => rfl⟩

theorem history_traced (stale : ℤ → ℕ → ℕ → Byte) (calls : List Call) :
    ∃ cm v closed opened, history stale calls = some (cm, v) ∧
      Traced stale calls cm v closed opened := by
  induction calls using List.reverseRecOn with
  | nil =>
    obtain ⟨cm, v, hrun, htraced⟩ := traced_nil stale
    exact ⟨cm, v, [], [], hrun, htraced⟩
  | append_singleton calls c ih =>
    obtain ⟨cm, v, closed, opened, hrun, htraced⟩ := ih
    obtain ⟨cm', v', closed', opened', hstep, htraced'⟩ := htraced.step c
    refine ⟨cm', v', closed', opened', ?_, htraced'⟩
    rw [history_concat, hrun, Option.bind_some, hstep]

/-- Every history has a partition of its chunks: the closed containers are not empty,
no larger than the limit, and stand in the files 0, 1, 2, ... in the order in which
they were closed; the open one is `tmp`. `insert` closes a container only for a
chunk that does not fit into it. -/
theorem containers_partition (stale : ℤ → ℕ → ℕ → Byte) (calls : List Call) :
    ∃ (cm : ContainerManager) (v : Volume) (closed : List (List (Fp × ChunkSize)))
        (opened : List (Fp × ChunkSize)),
      history stale calls = some (cm, v) ∧
      v.inserted = (stream calls).map Prod.fst ∧
      (closed.flatten ++ opened).Sublist (stream calls) ∧
      (Orderly calls → closed.flatten ++ opened = stream calls) ∧
      v.written = closed.mapIdx (fun i l => ((i : ℤ), l.map Prod.fst)) ∧
      (∀ e ∈ v.written, v.files (decimal e.1) = some (containerText (stale e.1) e.2)) ∧
      (∀ l ∈ closed, l ≠ [] ∧ totalSize l ≤ maxSize) ∧
      cm.nowId = closed.length ∧ cm.tmp = opened.map Prod.fst ∧
      cm.nowSize = totalSize opened ∧
      ∀ (str : Fp) (size : ChunkSize),
        (cm.insert (stale cm.nowId) v str size.val).2.written ≠ v.written →
        maxSize < totalSize opened + size.val := by
  obtain ⟨cm, v, closed, opened, hrun, h⟩ := history_traced stale calls
  have hfile : ∀ e ∈ v.written, v.files (decimal e.1) = some (containerText (stale e.1) e.2) :=
    fun e he => (h.files.written e.1 e.2 he).2.2
  exact ⟨cm, v, closed, opened, hrun, h.inserted, h.sub, h.all, h.part.ids, hfile,
    h.part.closed_fits, h.part.next, h.part.tmp, h.part.size,
    fun str size => h.part.overflow (stale cm.nowId) str size⟩

end ContainerManager
end FreqAnalysis.Ddfs
