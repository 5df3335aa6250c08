import FreqAnalysis.Locality.AttackAnswers

/-!
# The inference rate

The attack reports `correct + common - leak` out of `total`. The chunks behind
`correct` are those of the answers: they were popped from `q_t`, which holds every
ciphertext chunk at most once, and their plaintexts are keys of `origin`. The chunks
behind `common - leak` are leaked ones whose plaintext is not.
-/

namespace FreqAnalysis.Locality
open Base

/-- What `stat_db` counted, and the chunks leaked but not in `origin`. -/
structure RateInv (A : Params) (s : State) : Prop where
  total : s.total = A.target.keys.length
  missed : ∃ missed : List Fp, missed.Sublist A.target.keys ∧
    s.common = s.leak + missed.length ∧
    ∀ t ∈ missed, ∀ p, A.plain t = some p → p ∉ A.origin.keys

theorem RateInv.start (A : Params) : RateInv A (start A) := by
  have hs := statDb_inv A
  have htotal : (statDb A).total = A.target.keys.length := by
    rw [hs.total, SortedMap.keys, List.length_map]
  exact ⟨htotal, hs.missed⟩

/-- `main_loop` leaves the counters of `stat_db` alone. -/
theorem Moves.counters {A : Params} {s s' : State} (h : Moves A s s') :
    s'.total = s.total ∧ s'.common = s.common ∧ s'.leak = s.leak := by
  cases h with
  | leave side rest heq => cases side <;> exact ⟨rfl, rfl, rfl⟩
  | _ => exact ⟨rfl, rfl, rfl⟩

theorem Reachable.rateInv {A : Params} {s : State} (h : Reachable A s) : RateInv A s := by
  refine h.induct (RateInv.start A) fun s s' _ hi hmove => ?_
  obtain ⟨htotal, hcommon, hleak⟩ := hmove.counters
  refine ⟨htotal.trans hi.total, ?_⟩
  rw [hcommon, hleak]
  exact hi.missed

/-- No ciphertext chunk is counted twice: as inferred twice, or as inferred and
as leaked without an entry in `origin`. -/
theorem inference_rate_le (A : Params)
    (hM : ∀ side, ∀ x ∈ recordKeys (A.sideO side), x ∈ A.origin.keys)
    (hC : ∀ side, ∀ x ∈ recordKeys (A.sideT side), x ∈ A.target.keys)
    (s : State) (h : Reachable A s) :
    s.leak ≤ s.common ∧ s.correct + s.common - s.leak ≤ s.total := by
  have hsrc : Sources A (fun x => x ∈ A.origin.keys) (fun x => x ∈ A.target.keys) :=
    ⟨fun _ hx => hx, hM, fun _ hx => hx, hC⟩
  have hrate := h.rateInv
  obtain ⟨l, hl⟩ := h.answers
  have hinv := hl.inv hM
  obtain ⟨missed, hmsub, hcommon, hmissed⟩ := hrate.missed
  obtain ⟨hits, hhitsEq⟩ : ∃ hits, hits = l.map fun p => p.2.key := ⟨_, rfl⟩
  have hcorrect : s.correct = hits.length := by rw [hhitsEq, List.length_map, hinv.counted]
  have hhits_pushed : hits.Sublist s.pushed := by
    rw [hhitsEq]
    exact hinv.popped.trans (List.take_sublist _ _)
  have hnodup : (hits ++ missed).Nodup := by
    refine List.nodup_append.mpr ⟨hhits_pushed.nodup h.inferInv.nodup,
      hmsub.nodup A.target.nodup_keys, ?_⟩
    intro a ha b hb hab
    subst hab
    rw [hhitsEq] at ha
    obtain ⟨p, hp, rfl⟩ := List.mem_map.mp ha
    exact hmissed _ hb p.1.key (hinv.genuine p hp) (hinv.known p hp)
  have hsub : hits ++ missed ⊆ A.target.keys := by
    intro x hx
    rcases List.mem_append.mp hx with hx | hx
    · exact (h.drawn hsrc).pushed x (hhits_pushed.subset hx)
    · exact hmsub.subset hx
  have hle := hnodup.length_le_of_subset hsub
  rw [List.length_append, ← hrate.total] at hle
  omega

theorem inference_rate_le_leaked : ∃ s, Reachable leakedParams s ∧ s.pc = .done ∧
    s.leak ≤ s.common ∧ s.correct + s.common - s.leak ≤ s.total := by
  obtain ⟨s0, hinit⟩ := exists_afterInit leakedParams
  obtain ⟨s, hrun, hdone⟩ :=
    run_to_done leakedParams _ s0 hinit.reachable hinit.head (Nat.le_add_left ..)
  have hr := hinit.reachable.run hrun
  refine ⟨s, hr, hdone, inference_rate_le leakedParams ?_ ?_ s hr⟩
  · intro side
    cases side <;> decide +kernel
  · intro side
    cases side <;> decide +kernel

end FreqAnalysis.Locality
